/-
**Values and operators.**

The values that programs compute with.  Functions, classes and objects are values by their numbers
in the machine's tables, so that two of them are equal exactly when they are the same one.

Main definitions:

* `Lox.Value` — **values**;
* `Lox.Value.isTruthy`, `Lox.Value.equal` — the tests that programs make on them;
* `Lox.Interrupt` — why an evaluation stops without a value;
* `Lox.applyUnary`, `Lox.applyBinary` — the operators.
-/

import Lox.Failure

set_option relaxedAutoImplicit false
set_option autoImplicit false

namespace Lox

/-- The **values** that programs compute with. -/
inductive Value where
  | nil
  | bool (b : Bool)
  | number (x : Number)
  | string (s : String)
  | closure (id : Nat)
  | native (id : Nat)
  | cls (id : Nat)
  | object (id : Nat)
deriving DecidableEq, Inhabited

/-- The value that a literal denotes. -/
def Literal.toValue : Literal → Value
  | nil => .nil
  | bool b => .bool b
  | number x => .number x
  | string s => .string s

namespace Value

/-- Everything but `nil` and `false` counts as true. -/
def isTruthy : Value → Bool
  | nil => false
  | bool b => b
  | _ => true

/-- Equality of values: values of different kinds differ, and numbers are compared as numbers. -/
def equal : Value → Value → Bool
  | number x, number y => x.equal y
  | v, w => decide (v = w)

end Value

/-! ### Operators -/

/-- Why an evaluation stops without a value. -/
inductive Interrupt where
  /-- A mistake of the program. -/
  | error (e : RuntimeError)
  /-- A `return` on its way to the call it ends. -/
  | returned (v : Value)
  /-- A mistake in the use of the library. -/
  | fault (f : Fault)
  /-- The allowance of steps is used up. -/
  | outOfFuel
deriving DecidableEq

/-- The interrupt for a mistake at a token. -/
def Interrupt.at (t : Token) (cause : RuntimeCause) : Interrupt := .error ⟨some t, cause⟩

/-- The operators with one operand. -/
def applyUnary (operator : Token) (v : Value) : Except Interrupt Value :=
  match operator.kind with
  | .symbol .bang => .ok (.bool !v.isTruthy)
  | .symbol .minus =>
    match v with
    | .number x => .ok (.number x.neg)
    | _ => .error (.at operator .operandNotNumber)
  | _ => .error (.fault (.unknownUnary operator.lexeme))

/-- An operator on two numbers, which refuses other operands. -/
def onNumbers (operator : Token) (f : Number → Number → Except Interrupt Value) :
    Value → Value → Except Interrupt Value
  | .number x, .number y => f x y
  | _, _ => .error (.at operator .operandsNotNumbers)

/-- The operators with two operands. -/
def applyBinary (left : Value) (operator : Token) (right : Value) : Except Interrupt Value :=
  match operator.kind with
  | .symbol .equalEqual => .ok (.bool (left.equal right))
  | .symbol .bangEqual => .ok (.bool !left.equal right)
  | .symbol .greater => onNumbers operator (fun x y => .ok (.bool (y.less x))) left right
  | .symbol .greaterEqual => onNumbers operator (fun x y => .ok (.bool (y.atMost x))) left right
  | .symbol .less => onNumbers operator (fun x y => .ok (.bool (x.less y))) left right
  | .symbol .lessEqual => onNumbers operator (fun x y => .ok (.bool (x.atMost y))) left right
  | .symbol .minus => onNumbers operator (fun x y => .ok (.number (x.sub y))) left right
  | .symbol .star => onNumbers operator (fun x y => .ok (.number (x.mul y))) left right
  | .symbol .slash =>
    onNumbers operator (fun x y =>
      if y.isZero then .error (.at operator .divisionByZero) else .ok (.number (x.div y)))
      left right
  | .symbol .plus =>
    match left, right with
    | .number x, .number y => .ok (.number (x.add y))
    | .string s, .string t => .ok (.string (s ++ t))
    | _, _ => .error (.at operator .operandsNotAddable)
  | _ => .error (.fault (.unknownBinary operator.lexeme))

end Lox
