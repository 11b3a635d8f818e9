/-
**Syntax trees.**

Expressions and statements.  An occurrence of a name that may stand for a local variable — a
variable that is read or assigned, a superclass, `this`, `super` — is a *reference*, and carries a
number of its own: what the analysis of scopes finds out about a reference is recorded under that
number, so that two occurrences never share an answer, however alike they look.

A tree that is still being put together may have a *hole*, a place marked as one for an expression
or a statement with nothing in it.  Every pass over the tree refuses a hole.  Texts never give one.

Main definitions:

* `Lox.Literal` — the values that can be written down;
* `Lox.Reference` — an occurrence of a name;
* `Lox.Expr`, `Lox.Stmt`, `Lox.Routine` — **expressions, statements** and declared bodies;
* `Lox.Expr.references`, `Lox.Stmt.references` — the references of a tree, in the order of the text;
* `Lox.Stmt.shape` — the name of a statement's form.
-/

import Lox.Token.Basic

set_option relaxedAutoImplicit false
set_option autoImplicit false

namespace Lox

/-- The values that can be written down in a program. -/
inductive Literal where
  | nil
  | bool (b : Bool)
  | number (x : Number)
  | string (s : String)
deriving DecidableEq

/-- The number of a reference. -/
abbrev NodeId := Nat

/-- A **reference**: an occurrence of a name, with the number it is known by. -/
structure Reference where
  id : NodeId
  name : Token
deriving DecidableEq

/-- What is to be filled in at a hole. -/
inductive Hole where
  | expr
  | stmt
deriving DecidableEq

/-- The **expressions** of the language. -/
inductive Expr where
  | literal (value : Literal)
  | grouping (inner : Expr)
  | unary (operator : Token) (right : Expr)
  | binary (left : Expr) (operator : Token) (right : Expr)
  | logical (left : Expr) (operator : Token) (right : Expr)
  | variable (ref : Reference)
  | assign (target : Reference) (value : Expr)
  | call (callee : Expr) (paren : Token) (arguments : List Expr)
  | get (object : Expr) (name : Token)
  | set (object : Expr) (name : Token) (value : Expr)
  | this (ref : Reference)
  | super (ref : Reference) (method : Token)
  | hole (h : Hole)

mutual

/-- The **statements** of the language. -/
inductive Stmt where
  | expression (e : Expr)
  | print (e : Expr)
  | var (name : Token) (initializer : Option Expr)
  | block (body : List Stmt)
  | cond (condition : Expr) (thenBranch : Stmt) (elseBranch : Option Stmt)
  | loop (condition : Expr) (body : Stmt)
  | function (routine : Routine)
  | ret (keyword : Token) (value : Option Expr)
  | classDecl (name : Token) (superclass : Option Reference) (methods : List Routine)

/-- A declared body: a function, or a method of a class. -/
inductive Routine where
  | mk (name : Token) (params : List Token) (body : List Stmt)

end

namespace Routine

def name : Routine → Token
  | mk name _ _ => name

def params : Routine → List Token
  | mk _ params _ => params

def body : Routine → List Stmt
  | mk _ _ body => body

/-- The method of this name makes new objects ready. -/
def initializerName : String := "init"

/-- Whether a method is the one that makes new objects ready. -/
def isInitializer (r : Routine) : Bool := r.name.lexeme == initializerName

end Routine

instance : Inhabited Expr := ⟨.literal .nil⟩

instance : Inhabited Stmt := ⟨.block []⟩

/-! ### References -/

mutual

/-- The references of an expression, in the order of the text. -/
def Expr.references : Expr → List Reference
  | .literal _ => []
  | .grouping e => e.references
  | .unary _ e => e.references
  | .binary l _ r => l.references ++ r.references
  | .logical l _ r => l.references ++ r.references
  | .variable r => [r]
  | .assign r e => r :: e.references
  | .call f _ as => f.references ++ referencesOfArguments as
  | .get e _ => e.references
  | .set o _ v => o.references ++ v.references
  | .this r => [r]
  | .super r _ => [r]
  | .hole _ => []

/-- The references of a list of arguments. -/
def referencesOfArguments : List Expr → List Reference
  | [] => []
  | e :: es => e.references ++ referencesOfArguments es

end

mutual

/-- The references of a statement, in the order of the text. -/
def Stmt.references : Stmt → List Reference
  | .expression e => e.references
  | .print e => e.references
  | .var _ init => init.elim [] Expr.references
  | .block body => referencesOfBody body
  | .cond c t none => c.references ++ t.references
  | .cond c t (some e) => c.references ++ t.references ++ e.references
  | .loop c b => c.references ++ b.references
  | .function f => f.references
  | .ret _ value => value.elim [] Expr.references
  | .classDecl _ sup methods => sup.toList ++ referencesOfMethods methods

/-- The references of a declared body. -/
def Routine.references : Routine → List Reference
  | .mk _ _ body => referencesOfBody body

/-- The references of a list of statements. -/
def referencesOfBody : List Stmt → List Reference
  | [] => []
  | s :: ss => s.references ++ referencesOfBody ss

/-- The references of a list of methods. -/
def referencesOfMethods : List Routine → List Reference
  | [] => []
  | m :: ms => m.references ++ referencesOfMethods ms

end

theorem referencesOfBody_append (ss ts : List Stmt) :
    referencesOfBody (ss ++ ts) = referencesOfBody ss ++ referencesOfBody ts := by
  induction ss with
  | nil => rfl
  | cons s ss ih => rw [List.cons_append, referencesOfBody, ih, referencesOfBody, List.append_assoc]

theorem referencesOfMethods_append (ms ms' : List Routine) :
    referencesOfMethods (ms ++ ms') = referencesOfMethods ms ++ referencesOfMethods ms' := by
  induction ms with
  | nil => rfl
  | cons m ms ih => simp [referencesOfMethods, ih]

/-! ### Shapes -/

/-- The name of what is to be filled in. -/
def Hole.shape : Hole → String
  | expr => "Expr"
  | stmt => "Stmt"

/-- The name of a statement's form. -/
def Stmt.shape : Stmt → String
  | .expression _ => "Expression"
  | .print _ => "Print"
  | .var .. => "Var"
  | .block _ => "Block"
  | .cond .. => "If"
  | .loop .. => "While"
  | .function _ => "Function"
  | .ret .. => "Return"
  | .classDecl .. => "Class"

end Lox
