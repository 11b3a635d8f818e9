/-
**Parsing expressions.**

The binary operators are given by a ladder of levels, the loosest first; assignment is above the
ladder and binds to the right.  What may be assigned to is decided after the left side has been
parsed as an expression like any other.

The functions take an amount of fuel, which every call lowers.

Main definitions:

* `Lox.Level`, `Lox.Level.ladder` — the levels of the binary operators;
* `Lox.parseExpr` — **an expression**.
-/

import Lox.Tree.Parser.Cursor

set_option relaxedAutoImplicit false
set_option autoImplicit false

namespace Lox

open Parse

/-! ### Operators -/

/-- The levels of the binary operators. -/
inductive Level where
  | disjunction
  | conjunction
  | equality
  | comparison
  | term
  | factor
deriving DecidableEq

namespace Level

/-- The levels from the loosest to the tightest. -/
def ladder : List Level := [disjunction, conjunction, equality, comparison, term, factor]

/-- The operators of a level. -/
def operators : Level → List Token.Kind
  | disjunction => [.keyword .or]
  | conjunction => [.keyword .and]
  | equality => [.symbol .equalEqual, .symbol .bangEqual]
  | comparison =>
    [.symbol .greater, .symbol .greaterEqual, .symbol .less, .symbol .lessEqual]
  | term => [.symbol .plus, .symbol .minus]
  | factor => [.symbol .star, .symbol .slash]

/-- The expression that an operator of a level makes of its operands. -/
def combine : Level → Expr → Token → Expr → Expr
  | disjunction | conjunction => .logical
  | equality | comparison | term | factor => .binary

end Level

/-- The operators that stand before their operand. -/
def unaryOperators : List Token.Kind := [.symbol .bang, .symbol .minus]

/-- The literal that a number or a string token stands for. -/
def Token.literal (t : Token) : Literal :=
  match t.value with
  | .none => .nil
  | .number x => .number x
  | .string s => .string s

/-! ### Expressions -/

mutual

/-- An expression: an assignment, or what the ladder gives. -/
def parseExpr : Nat → Parse Expr
  | 0 => throw .outOfFuel
  | n + 1 => do
    let target ← parseLevels n Level.ladder
    match ← accept (.symbol .equal) with
    | none => return target
    | some equals =>
      let value ← parseExpr n
      match target with
      | .variable r => return .assign (← newReference r.name) value
      | .get object name => return .set object name value
      | _ =>
        -- The tokens are in order all the same, so that parsing goes on with the left side.
        report equals .invalidTarget
        return target

/-- What the given levels of the ladder give: operands of the tighter levels, joined by operators
of the first one. -/
def parseLevels : Nat → List Level → Parse Expr
  | 0, _ => throw .outOfFuel
  | n + 1, [] => parseUnary n
  | n + 1, level :: tighter => do
    let left ← parseLevels n tighter
    parseOperands n level tighter left

/-- The operators of a level and their right operands, joined to the left from the left. -/
def parseOperands : Nat → Level → List Level → Expr → Parse Expr
  | 0, _, _, _ => throw .outOfFuel
  | n + 1, level, tighter, left => do
    match ← acceptAny level.operators with
    | none => return left
    | some operator =>
      let right ← parseLevels n tighter
      parseOperands n level tighter (level.combine left operator right)

/-- Operators that stand before their operand. -/
def parseUnary : Nat → Parse Expr
  | 0 => throw .outOfFuel
  | n + 1 => do
    match ← acceptAny unaryOperators with
    | some operator => return .unary operator (← parseUnary n)
    | none =>
      let head ← parsePrimary n
      parseSelectors n head

/-- The calls and property accesses behind an expression. -/
def parseSelectors : Nat → Expr → Parse Expr
  | 0, _ => throw .outOfFuel
  | n + 1, head => do
    match ← acceptAny [.symbol .leftParen, .symbol .dot] with
    | none => return head
    | some t =>
      if t.kind == .symbol .leftParen then
        let arguments ← unlessNext (.symbol .rightParen) [] (parseArguments n 0)
        let paren ← expect .argumentsClose
        parseSelectors n (.call head paren arguments)
      else
        let name ← expect .propertyName
        parseSelectors n (.get head name)

/-- The arguments of a call, `count` of which stand before. -/
def parseArguments : Nat → Nat → Parse (List Expr)
  | 0, _ => throw .outOfFuel
  | n + 1, count => do
    reportIf (maxArguments ≤ count) .tooManyArguments
    let argument ← parseExpr n
    match ← accept (.symbol .comma) with
    | none => return [argument]
    | some _ => return argument :: (← parseArguments n (count + 1))

/-- Literals, names and parenthesized expressions. -/
def parsePrimary : Nat → Parse Expr
  | 0 => throw .outOfFuel
  | n + 1 => do
    match ← acceptAny [.keyword .false_, .keyword .true_, .keyword .nil, .number, .string,
      .keyword .super, .keyword .this, .identifier, .symbol .leftParen] with
    | none => fail .missingExpression
    | some t =>
      match t.kind with
      | .keyword .false_ => return .literal (.bool false)
      | .keyword .true_ => return .literal (.bool true)
      | .keyword .nil => return .literal .nil
      | .keyword .super =>
        let _ ← expect .superDot
        let method ← expect .superMethod
        return .super (← newReference t) method
      | .keyword .this => return .this (← newReference t)
      | .identifier => return .variable (← newReference t)
      | .symbol _ =>
        let inner ← parseExpr n
        let _ ← expect .groupClose
        return .grouping inner
      | _ => return .literal t.literal

end

end Lox
