/-
**Where references point.**

A pass over a tree that follows the scopes a program opens.  A reference to a name of one of these
scopes is given its distance: how many scopes lie between it and the innermost one that holds the
name.  A name that no scope holds is global; globals are no scope here, and a reference to one has
no distance.  On the way, what the rules about scopes, `return`, `this` and `super` forbid is
reported; the pass goes on after every finding, and only a hole in the tree stops it.

Main definitions:

* `Lox.Distances` — the distances found so far, by the numbers of the references;
* `Lox.Surroundings` — the body and the class that a place of the tree lies in;
* `Lox.Resolution`, `Lox.Resolve` — the open scopes, the surroundings, the distances and the
  findings;
* `Lox.resolveExpr`, `Lox.resolveStmt` — the pass;
* `Lox.Resolved`, `Lox.runResolve` — **what the pass gives** for a whole tree.
-/

import Std.Data.TreeMap
import Lox.Diagnostic.Basic
import Lox.Failure
import Lox.Scope.Bindings

set_option relaxedAutoImplicit false
set_option autoImplicit false

namespace Lox

/-- Distances by the numbers of the references. -/
abbrev Distances := Std.TreeMap NodeId Nat

/-! ### Surroundings -/

/-- The kinds of bodies that a place of the tree can lie in. -/
inductive BodyKind where
  | top
  | function
  | initializer
  | method
deriving DecidableEq

/-- The kinds of classes that a place of the tree can lie in. -/
inductive ClassKind where
  | none
  | base
  | derived
deriving DecidableEq

/-- The innermost body and the innermost class around a place. -/
structure Surroundings where
  body : BodyKind := .top
  cls : ClassKind := .none
deriving DecidableEq

namespace Surroundings

/-- What is wrong with a `return` here. -/
def returnProblem? (place : Surroundings) : Option Problem :=
  if place.body = .top then some .returnAtTop else none

/-- What is wrong with the value of a `return` here. -/
def returnValueProblem? (place : Surroundings) : Option Problem :=
  if place.body = .initializer then some .returnFromInitializer else none

/-- What is wrong with `super` here. -/
def superProblem? (place : Surroundings) : Option Problem :=
  match place.cls with
  | .none => some .superOutsideClass
  | .base => some .superWithoutSuperclass
  | .derived => none

end Surroundings

/-! ### Open scopes -/

/-- The name that a method calls its object by. -/
def thisName : String := "this"

/-- The name that a method calls the superclass by. -/
def superName : String := "super"

/-- Whether a declared name has been given its first value. -/
inductive Readiness where
  | declared
  | defined
deriving DecidableEq

/-- The open scopes, the innermost first; the surroundings of the place at hand; the distances; and
the findings, the last one first. -/
structure Resolution where
  scopes : List (Bindings Readiness)
  place : Surroundings
  distances : Distances
  findings : List Diagnostic

namespace Resolution

/-- What is wrong with the declaration of a name: the innermost scope holds it already. -/
def declarationProblem? (r : Resolution) (name : String) : Option Problem :=
  if r.scopes.head?.any fun scope => scope.binds name then some .redeclared else none

/-- What is wrong with reading a name: it is read in its own initializer. -/
def readProblem? (r : Resolution) (name : String) : Option Problem :=
  if r.scopes.head?.bind (·.get? name) = some .declared then some .readInOwnInitializer else none

end Resolution

/-- A step of the pass. -/
abbrev Resolve := EStateM Fault Resolution

namespace Resolve

/-- Reports a problem and goes on. -/
def report (t : Token) (p : Problem) : Resolve Unit :=
  modify fun r => { r with findings := ⟨.token t, p⟩ :: r.findings }

/-- Reports a problem, if there is one. -/
def report? (t : Token) : Option Problem → Resolve Unit
  | none => pure ()
  | some p => report t p

/-- Puts a name into the innermost scope, in the given state. -/
def mark (name : Token) (state : Readiness) : Resolve Unit :=
  modify fun r =>
    match r.scopes with
    | [] => r
    | scope :: outer => { r with scopes := scope.set name.lexeme state :: outer }

/-- Declares a name in the innermost scope, which must not hold it yet. -/
def declare (name : Token) : Resolve Unit := do
  report? name ((← get).declarationProblem? name.lexeme)
  mark name .declared

/-- A declared name gets its first value. -/
def define (name : Token) : Resolve Unit := mark name .defined

/-- Declares a name that has its value at once. -/
def introduce (name : Token) : Resolve Unit := do
  declare name
  define name

/-- Records the distance of a reference, if an open scope holds its name. -/
def locate (ref : Reference) : Resolve Unit :=
  modify fun r =>
    match r.scopes.findIdx? fun scope => scope.binds ref.name.lexeme with
    | none => r
    | some d => { r with distances := r.distances.insert ref.id d }

/-- A new scope, which holds the given names from the start. -/
def newScope (names : List String) : Bindings Readiness :=
  Bindings.ofList (names.map fun name => (name, .defined))

/-- A step inside a new scope. -/
def inScope {α : Type} (names : List String) (step : Resolve α) : Resolve α := fun r =>
  match step { r with scopes := newScope names :: r.scopes } with
  | .ok a r => .ok a { r with scopes := r.scopes.tail }
  | .error f r => .error f { r with scopes := r.scopes.tail }

/-- The innermost body around the place at hand is of the given kind from here on. -/
def setBody (kind : BodyKind) : Resolve Unit :=
  modify fun r => { r with place := { r.place with body := kind } }

/-- The innermost class around the place at hand is of the given kind from here on. -/
def setClass (kind : ClassKind) : Resolve Unit :=
  modify fun r => { r with place := { r.place with cls := kind } }

/-- A step inside a body of the given kind. -/
def inBody (kind : BodyKind) (step : Resolve Unit) : Resolve Unit := do
  let outer := (← get).place.body
  setBody kind
  step
  setBody outer

/-- A step inside a class of the given kind. -/
def inClass (kind : ClassKind) (step : Resolve Unit) : Resolve Unit := do
  let outer := (← get).place.cls
  setClass kind
  step
  setClass outer

end Resolve

open Resolve

/-! ### The pass -/

/-- A variable that is read: in its own initializer it has no value yet. -/
def resolveVariable (ref : Reference) : Resolve Unit := do
  report? ref.name ((← get).readProblem? ref.name.lexeme)
  locate ref

mutual

/-- The pass over an expression. -/
def resolveExpr : Expr → Resolve Unit
  | .literal _ => pure ()
  | .grouping e => resolveExpr e
  | .unary _ e => resolveExpr e
  | .binary l _ r => do
    resolveExpr l
    resolveExpr r
  | .logical l _ r => do
    resolveExpr l
    resolveExpr r
  | .variable ref => resolveVariable ref
  | .assign ref value => do
    resolveExpr value
    locate ref
  | .call callee _ arguments => do
    resolveExpr callee
    resolveArguments arguments
  | .get object _ => resolveExpr object
  | .set object _ value => do
    resolveExpr value
    resolveExpr object
  | .this ref => do
    if (← get).place.cls = .none then report ref.name .thisOutsideClass else locate ref
  | .super ref _ => do
    report? ref.name (← get).place.superProblem?
    locate ref
  | .hole h => throw (.unhandled h.shape .resolution)

/-- The pass over the arguments of a call. -/
def resolveArguments : List Expr → Resolve Unit
  | [] => pure ()
  | e :: es => do
    resolveExpr e
    resolveArguments es

end

/-- The pass over an expression that may be absent. -/
def resolveOptional : Option Expr → Resolve Unit
  | none => pure ()
  | some e => resolveExpr e

/-- Parameters are names of the body's scope that have their values at once. -/
def resolveParameters : List Token → Resolve Unit
  | [] => pure ()
  | p :: ps => do
    introduce p
    resolveParameters ps

mutual

/-- The pass over a statement. -/
def resolveStmt : Stmt → Resolve Unit
  | .expression e => resolveExpr e
  | .print e => resolveExpr e
  | .var name initializer => do
    declare name
    resolveOptional initializer
    define name
  | .block body => inScope [] (resolveBody body)
  | .cond c t none => do
    resolveExpr c
    resolveStmt t
  | .cond c t (some e) => do
    resolveExpr c
    resolveStmt t
    resolveStmt e
  | .loop c body => do
    resolveExpr c
    resolveStmt body
  | .function routine => do
    introduce routine.name
    resolveRoutine .function routine
  | .ret keyword value => do
    let place := (← get).place
    report? keyword place.returnProblem?
    report? keyword (if value.isSome then place.returnValueProblem? else none)
    resolveOptional value
  | .classDecl name none methods => inClass .base do
    introduce name
    inScope [thisName] (resolveMethods methods)
  | .classDecl name (some superclass) methods => inClass .derived do
    introduce name
    report? superclass.name
      (if name.lexeme = superclass.name.lexeme then some .inheritsFromItself else none)
    resolveVariable superclass
    inScope [superName] (inScope [thisName] (resolveMethods methods))

/-- The pass over a declared body of the given kind: its parameters and its statements share one
scope. -/
def resolveRoutine (kind : BodyKind) : Routine → Resolve Unit
  | .mk _ params body => inBody kind (inScope [] do
    resolveParameters params
    resolveBody body)

/-- The pass over the statements of a body. -/
def resolveBody : List Stmt → Resolve Unit
  | [] => pure ()
  | s :: ss => do
    resolveStmt s
    resolveBody ss

/-- The pass over the methods of a class. -/
def resolveMethods : List Routine → Resolve Unit
  | [] => pure ()
  | m :: ms => do
    resolveRoutine (if m.isInitializer then .initializer else .method) m
    resolveMethods ms

end

/-! ### Whole trees -/

/-- What the pass gives: all distances known now, its findings, and the fault that stopped it. -/
structure Resolved where
  distances : Distances
  findings : List Diagnostic
  fault : Option Fault

/-- The state that the pass begins with: no scope is open. -/
def Resolution.start (distances : Distances) : Resolution := ⟨[], {}, distances, []⟩

/-- Runs the pass from the start. -/
def runResolve (step : Resolve Unit) (distances : Distances) : Resolved :=
  match step (.start distances) with
  | .ok _ r => ⟨r.distances, r.findings.reverse, none⟩
  | .error f r => ⟨r.distances, r.findings.reverse, some f⟩

/-- The pass over a program. -/
def resolveProgram (program : List Stmt) : Distances → Resolved :=
  runResolve (resolveBody program)

/-- The pass over a single expression. -/
def resolveExpression (e : Expr) : Distances → Resolved := runResolve (resolveExpr e)

end Lox
