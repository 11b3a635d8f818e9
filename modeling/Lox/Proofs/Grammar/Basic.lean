/-
**The grammar.**

Which tokens make an expression, a statement or a program, and the tree that they make.  The rules
are those of a context-free grammar with the trees beside them: an operator of a rank has an operand
of its own rank on the left and one of the next rank on the right, so that it associates to the
left; an assignment has its value on the right, and a name or a property on the left.

An `else` belongs to the nearest `if` that has none.  A statement is *closed* when no `if` at its
end waits for an `else`, and only a closed statement stands before one.

The numbers of the references are left open: a tree with other numbers is a tree of the same tokens.

Main definitions:

* `Lox.Grammar.Rank` — **the ranks of expressions**, from the loosest to the tightest;
* `Lox.Grammar.Derives` — **expressions** of a rank;
* `Lox.Grammar.Parses`, `Lox.Grammar.Program` — **statements and declarations**, and whole programs;
* `Lox.Expr.unnumbered`, `Lox.Stmt.unnumbered` — a tree without the numbers of its references.
-/

import Lox.Tree.Parser.Program

set_option relaxedAutoImplicit false
set_option autoImplicit false

namespace Lox

namespace Grammar

/-! ### Expressions -/

/-- The ranks of expressions, from the loosest to the tightest. -/
inductive Rank where
  | assignment
  | disjunction
  | conjunction
  | equality
  | comparison
  | term
  | factor
  | unary
  | call
  | primary
deriving DecidableEq

namespace Rank

/-- The next tighter rank. -/
def next? : Rank → Option Rank
  | assignment => some disjunction
  | disjunction => some conjunction
  | conjunction => some equality
  | equality => some comparison
  | comparison => some term
  | term => some factor
  | factor => some unary
  | unary => some call
  | call => some primary
  | primary => none

/-- The operators that stand between two operands. -/
def operators : Rank → List Token.Kind
  | disjunction => [.keyword .or]
  | conjunction => [.keyword .and]
  | equality => [.symbol .bangEqual, .symbol .equalEqual]
  | comparison => [.symbol .greater, .symbol .greaterEqual, .symbol .less, .symbol .lessEqual]
  | term => [.symbol .minus, .symbol .plus]
  | factor => [.symbol .slash, .symbol .star]
  | _ => []

/-- The tree of an operator and its operands. -/
def join : Rank → Expr → Token → Expr → Expr
  | disjunction | conjunction => .logical
  | _ => .binary

end Rank

/-- Stretches of tokens with commas between them. -/
inductive Separated : List (List Token) → List Token → Prop
  | none : Separated [] []
  | one (ts : List Token) : Separated [ts] ts
  | more {ts us : List Token} {next : List Token} {parts : List (List Token)} {comma : Token}
      (hcomma : comma.kind = .symbol .comma) (hparts : Separated (next :: parts) us) :
      Separated (ts :: next :: parts) (ts ++ comma :: us)

/-- The **expressions** of a rank: their tokens and their trees. -/
inductive Derives : Rank → List Token → Expr → Prop
  | tighter {r r' : Rank} {ts : List Token} {e : Expr} (hr : r.next? = some r')
      (he : Derives r' ts e) : Derives r ts e
  | assign {ref : Reference} {equals : Token} {ts : List Token} {value : Expr}
      (hname : ref.name.kind = .identifier) (hequals : equals.kind = .symbol .equal)
      (hvalue : Derives .assignment ts value) :
      Derives .assignment (ref.name :: equals :: ts) (.assign ref value)
  | set {os ts : List Token} {object value : Expr} {dot name equals : Token}
      (hobject : Derives .call os object) (hdot : dot.kind = .symbol .dot)
      (hname : name.kind = .identifier) (hequals : equals.kind = .symbol .equal)
      (hvalue : Derives .assignment ts value) :
      Derives .assignment (os ++ dot :: name :: equals :: ts) (.set object name value)
  | operator {r r' : Rank} {ls rs : List Token} {left right : Expr} {t : Token}
      (hr : r.next? = some r') (hleft : Derives r ls left) (ht : t.kind ∈ r.operators)
      (hright : Derives r' rs right) : Derives r (ls ++ t :: rs) (r.join left t right)
  | unary {t : Token} {ts : List Token} {e : Expr}
      (ht : t.kind = .symbol .bang ∨ t.kind = .symbol .minus) (he : Derives .unary ts e) :
      Derives .unary (t :: ts) (.unary t e)
  | call {fs as : List Token} {callee : Expr} {arguments : List (List Token × Expr)}
      {opening closing : Token} (hcallee : Derives .call fs callee)
      (hopening : opening.kind = .symbol .leftParen)
      (hcommas : Separated (arguments.map Prod.fst) as)
      (harguments : ∀ a ∈ arguments, Derives .assignment a.1 a.2)
      (hlength : arguments.length ≤ 255) (hclosing : closing.kind = .symbol .rightParen) :
      Derives .call (fs ++ opening :: as ++ [closing])
        (.call callee closing (arguments.map Prod.snd))
  | get {os : List Token} {object : Expr} {dot name : Token} (hobject : Derives .call os object)
      (hdot : dot.kind = .symbol .dot) (hname : name.kind = .identifier) :
      Derives .call (os ++ [dot, name]) (.get object name)
  | false_ {t : Token} (ht : t.kind = .keyword .false_) :
      Derives .primary [t] (.literal (.bool false))
  | true_ {t : Token} (ht : t.kind = .keyword .true_) :
      Derives .primary [t] (.literal (.bool true))
  | nil {t : Token} (ht : t.kind = .keyword .nil) : Derives .primary [t] (.literal .nil)
  | literal {t : Token} (ht : t.kind = .number ∨ t.kind = .string) :
      Derives .primary [t] (.literal t.literal)
  | name {ref : Reference} (ht : ref.name.kind = .identifier) :
      Derives .primary [ref.name] (.variable ref)
  | this {ref : Reference} (ht : ref.name.kind = .keyword .this) :
      Derives .primary [ref.name] (.this ref)
  | super {ref : Reference} {dot method : Token} (ht : ref.name.kind = .keyword .super)
      (hdot : dot.kind = .symbol .dot) (hmethod : method.kind = .identifier) :
      Derives .primary [ref.name, dot, method] (.super ref method)
  | grouping {opening closing : Token} {ts : List Token} {inner : Expr}
      (hopening : opening.kind = .symbol .leftParen) (hinner : Derives .assignment ts inner)
      (hclosing : closing.kind = .symbol .rightParen) :
      Derives .primary (opening :: ts ++ [closing]) (.grouping inner)

/-! ### Statements -/

/-- Something that may be absent. -/
inductive Optional {α : Type} (P : List Token → α → Prop) : List Token → Option α → Prop
  | none : Optional P [] none
  | some {ts : List Token} {a : α} (ha : P ts a) : Optional P ts (some a)

/-- The value that a variable is declared with. -/
inductive Initializer : List Token → Expr → Prop
  | mk {equals : Token} {ts : List Token} {e : Expr} (hequals : equals.kind = .symbol .equal)
      (he : Derives .assignment ts e) : Initializer (equals :: ts) e

/-- A variable declaration. -/
inductive Variable : List Token → Stmt → Prop
  | mk {var name semicolon : Token} {ts : List Token} {initializer : Option Expr}
      (hvar : var.kind = .keyword .var) (hname : name.kind = .identifier)
      (hinitializer : Optional Initializer ts initializer)
      (hsemicolon : semicolon.kind = .symbol .semicolon) :
      Variable (var :: name :: ts ++ [semicolon]) (.var name initializer)

/-- An expression as a statement. -/
inductive ExpressionStatement : List Token → Stmt → Prop
  | mk {ts : List Token} {e : Expr} {semicolon : Token} (he : Derives .assignment ts e)
      (hsemicolon : semicolon.kind = .symbol .semicolon) :
      ExpressionStatement (ts ++ [semicolon]) (.expression e)

/-- The first part of a `for` loop. -/
inductive ForInitializer : List Token → Option Stmt → Prop
  | none {semicolon : Token} (hsemicolon : semicolon.kind = .symbol .semicolon) :
      ForInitializer [semicolon] none
  | var {ts : List Token} {s : Stmt} (hs : Variable ts s) : ForInitializer ts (some s)
  | expression {ts : List Token} {s : Stmt} (hs : ExpressionStatement ts s) :
      ForInitializer ts (some s)

/-- The class that a class inherits from. -/
inductive Superclass : List Token → Reference → Prop
  | mk {less : Token} {ref : Reference} (hless : less.kind = .symbol .less)
      (hname : ref.name.kind = .identifier) : Superclass [less, ref.name] ref

/-- A condition in parentheses. -/
inductive Condition : List Token → Expr → Prop
  | mk {opening closing : Token} {ts : List Token} {e : Expr}
      (hopening : opening.kind = .symbol .leftParen) (he : Derives .assignment ts e)
      (hclosing : closing.kind = .symbol .rightParen) : Condition (opening :: ts ++ [closing]) e

/-- What a stretch of tokens may be part of a program as. -/
inductive Part where
  /-- A name, parameters and a body, as the function of that name. -/
  | routine
  /-- A declaration, or a statement in its place. -/
  | declaration
  /-- A statement that is no declaration; `closed` says that no `if` at its end waits for an
  `else`. -/
  | statement (closed : Bool)
deriving DecidableEq

/-- The **parts of a program**: their tokens and their trees. -/
inductive Parses : Part → List Token → Stmt → Prop
  | routine {name opening closing brace brace' : Token} {params ps : List Token}
      {body : List (List Token × Stmt)} (hname : name.kind = .identifier)
      (hopening : opening.kind = .symbol .leftParen)
      (hcommas : Separated (params.map fun p => [p]) ps)
      (hparams : ∀ p ∈ params, p.kind = .identifier) (hlength : params.length ≤ 255)
      (hclosing : closing.kind = .symbol .rightParen) (hbrace : brace.kind = .symbol .leftBrace)
      (hbody : ∀ d ∈ body, Parses .declaration d.1 d.2)
      (hbrace' : brace'.kind = .symbol .rightBrace) :
      Parses .routine
        (name :: opening :: ps ++ closing :: brace :: (body.map Prod.fst).flatten ++ [brace'])
        (.function (.mk name params (body.map Prod.snd)))
  | classDecl {word name brace brace' : Token} {ss : List Token} {superclass : Option Reference}
      {methods : List (List Token × Routine)} (hword : word.kind = .keyword .class_)
      (hname : name.kind = .identifier) (hsuperclass : Optional Superclass ss superclass)
      (hbrace : brace.kind = .symbol .leftBrace)
      (hmethods : ∀ m ∈ methods, Parses .routine m.1 (.function m.2))
      (hbrace' : brace'.kind = .symbol .rightBrace) :
      Parses .declaration
        (word :: name :: ss ++ brace :: (methods.map Prod.fst).flatten ++ [brace'])
        (.classDecl name superclass (methods.map Prod.snd))
  | function {word : Token} {ts : List Token} {s : Stmt} (hword : word.kind = .keyword .fun_)
      (hs : Parses .routine ts s) : Parses .declaration (word :: ts) s
  | var {ts : List Token} {s : Stmt} (hs : Variable ts s) : Parses .declaration ts s
  | statement {closed : Bool} {ts : List Token} {s : Stmt}
      (hs : Parses (.statement closed) ts s) : Parses .declaration ts s
  | expression {ts : List Token} {s : Stmt} (hs : ExpressionStatement ts s) :
      Parses (.statement true) ts s
  | print {word semicolon : Token} {ts : List Token} {e : Expr}
      (hword : word.kind = .keyword .print) (he : Derives .assignment ts e)
      (hsemicolon : semicolon.kind = .symbol .semicolon) :
      Parses (.statement true) (word :: ts ++ [semicolon]) (.print e)
  | ret {word semicolon : Token} {ts : List Token} {value : Option Expr}
      (hword : word.kind = .keyword .return_) (hvalue : Optional (Derives .assignment) ts value)
      (hsemicolon : semicolon.kind = .symbol .semicolon) :
      Parses (.statement true) (word :: ts ++ [semicolon]) (.ret word value)
  | block {brace brace' : Token} {body : List (List Token × Stmt)}
      (hbrace : brace.kind = .symbol .leftBrace) (hbody : ∀ d ∈ body, Parses .declaration d.1 d.2)
      (hbrace' : brace'.kind = .symbol .rightBrace) :
      Parses (.statement true) (brace :: (body.map Prod.fst).flatten ++ [brace'])
        (.block (body.map Prod.snd))
  | ifThen {word : Token} {cs ts : List Token} {condition : Expr} {s : Stmt} {closed : Bool}
      (hword : word.kind = .keyword .if_) (hcondition : Condition cs condition)
      (hs : Parses (.statement closed) ts s) :
      Parses (.statement false) (word :: cs ++ ts) (.cond condition s none)
  | ifThenElse {word word' : Token} {cs ts us : List Token} {condition : Expr} {s s' : Stmt}
      {closed : Bool} (hword : word.kind = .keyword .if_) (hcondition : Condition cs condition)
      (hs : Parses (.statement true) ts s) (hword' : word'.kind = .keyword .else_)
      (hs' : Parses (.statement closed) us s') :
      Parses (.statement closed) (word :: cs ++ ts ++ word' :: us) (.cond condition s (some s'))
  | whileLoop {word : Token} {cs ts : List Token} {condition : Expr} {s : Stmt} {closed : Bool}
      (hword : word.kind = .keyword .while_) (hcondition : Condition cs condition)
      (hs : Parses (.statement closed) ts s) :
      Parses (.statement closed) (word :: cs ++ ts) (.loop condition s)
  | forLoop {word opening semicolon closing : Token} {is cs us ts : List Token}
      {initializer : Option Stmt} {condition increment : Option Expr} {s : Stmt} {closed : Bool}
      (hword : word.kind = .keyword .for_) (hopening : opening.kind = .symbol .leftParen)
      (hinitializer : ForInitializer is initializer)
      (hcondition : Optional (Derives .assignment) cs condition)
      (hsemicolon : semicolon.kind = .symbol .semicolon)
      (hincrement : Optional (Derives .assignment) us increment)
      (hclosing : closing.kind = .symbol .rightParen) (hs : Parses (.statement closed) ts s) :
      Parses (.statement closed) (word :: opening :: is ++ cs ++ semicolon :: us ++ closing :: ts)
        (.forLoop initializer condition increment s)

/-- A whole **program**: declarations one after the other. -/
def Program (tokens : List Token) (program : List Stmt) : Prop :=
  ∃ parts : List (List Token × Stmt), (∀ d ∈ parts, Parses .declaration d.1 d.2) ∧
    tokens = (parts.map Prod.fst).flatten ∧ program = parts.map Prod.snd

end Grammar

/-! ### Trees without numbers -/

/-- A reference without its number. -/
def Reference.unnumbered (ref : Reference) : Reference := ⟨0, ref.name⟩

mutual

/-- An expression without the numbers of its references. -/
def Expr.unnumbered : Expr → Expr
  | .literal value => .literal value
  | .grouping e => .grouping e.unnumbered
  | .unary operator e => .unary operator e.unnumbered
  | .binary l operator r => .binary l.unnumbered operator r.unnumbered
  | .logical l operator r => .logical l.unnumbered operator r.unnumbered
  | .variable ref => .variable ref.unnumbered
  | .assign ref e => .assign ref.unnumbered e.unnumbered
  | .call f paren arguments => .call f.unnumbered paren (unnumberedArguments arguments)
  | .get object name => .get object.unnumbered name
  | .set object name e => .set object.unnumbered name e.unnumbered
  | .this ref => .this ref.unnumbered
  | .super ref method => .super ref.unnumbered method
  | .hole h => .hole h

/-- Arguments without the numbers of their references. -/
def unnumberedArguments : List Expr → List Expr
  | [] => []
  | e :: es => e.unnumbered :: unnumberedArguments es

end

mutual

/-- A statement without the numbers of its references. -/
def Stmt.unnumbered : Stmt → Stmt
  | .expression e => .expression e.unnumbered
  | .print e => .print e.unnumbered
  | .var name initializer => .var name (initializer.map Expr.unnumbered)
  | .block body => .block (unnumberedBody body)
  | .cond c t none => .cond c.unnumbered t.unnumbered none
  | .cond c t (some e) => .cond c.unnumbered t.unnumbered (some e.unnumbered)
  | .loop c body => .loop c.unnumbered body.unnumbered
  | .function routine => .function routine.unnumbered
  | .ret keyword value => .ret keyword (value.map Expr.unnumbered)
  | .classDecl name superclass methods =>
    .classDecl name (superclass.map Reference.unnumbered) (unnumberedMethods methods)

/-- A declared body without the numbers of its references. -/
def Routine.unnumbered : Routine → Routine
  | .mk name params body => .mk name params (unnumberedBody body)

/-- Statements without the numbers of their references. -/
def unnumberedBody : List Stmt → List Stmt
  | [] => []
  | s :: ss => s.unnumbered :: unnumberedBody ss

/-- Methods without the numbers of their references. -/
def unnumberedMethods : List Routine → List Routine
  | [] => []
  | r :: rs => r.unnumbered :: unnumberedMethods rs

end

end Lox
