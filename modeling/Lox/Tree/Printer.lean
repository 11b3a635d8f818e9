/-
**The printed form of an expression.**

Every compound expression is written in parentheses, its operator first: `(+ 1 (* 2 3))`.
Literals and names stand for themselves.

Main definitions:

* `Lox.Literal.text` — the text of a literal;
* `Lox.parenthesize` — a head and its parts in parentheses;
* `Lox.Expr.render` — **the printed form**, which an expression with a hole does not have.
-/

import Lox.Failure

set_option relaxedAutoImplicit false
set_option autoImplicit false

namespace Lox

/-- The text of a literal in a printed tree; a string stands without quotes. -/
def Literal.text : Literal → String
  | nil => "nil"
  | bool b => if b then "true" else "false"
  | number x => x.brief
  | string s => s

/-- A head and its parts, with blanks between them, in parentheses.  Parts without any text leave
no blank behind the head. -/
def parenthesize (head : String) (parts : List String) : String :=
  let content := " ".intercalate parts
  if content.isEmpty then "(" ++ head ++ ")" else "(" ++ head ++ " " ++ content ++ ")"

mutual

/-- The **printed form** of an expression. -/
def Expr.render : Expr → Except Fault String
  | .literal v => .ok v.text
  | .grouping e => return parenthesize "group" [← e.render]
  | .unary op e => return parenthesize op.lexeme [← e.render]
  | .binary l op r => return parenthesize op.lexeme [← l.render, ← r.render]
  | .logical l op r => return parenthesize op.lexeme [← l.render, ← r.render]
  | .variable r => .ok r.name.lexeme
  | .assign r e => return parenthesize "=" [r.name.lexeme, ← e.render]
  | .call f _ as => return parenthesize "call" ((← f.render) :: (← renderArguments as))
  | .get o name => return parenthesize "." [← o.render, name.lexeme]
  | .set o name v =>
    return parenthesize "=" [parenthesize "." [← o.render, name.lexeme], ← v.render]
  | .this _ => .ok "this"
  | .super _ method => .ok (parenthesize "super" [method.lexeme])
  | .hole h => .error (.unhandled h.shape .printing)

/-- The printed forms of a list of arguments. -/
def renderArguments : List Expr → Except Fault (List String)
  | [] => .ok []
  | e :: es => return (← e.render) :: (← renderArguments es)

end

/-- Only expressions have a printed form. -/
def Stmt.render (s : Stmt) : Except Fault String := .error (.unhandled s.shape .printing)

end Lox
