/-
**Parsing programs.**

A recursive descent over declarations and statements.  A declaration that does not fit the grammar
is reported and dropped, and parsing goes on behind the next semicolon or before the next word that
begins a statement.  A `for` loop has no form of its own: it is built from a block and a `while`
loop.

The functions take an amount of fuel, which every call lowers; the wrappers `parseProgram` and
`parseExpression` give more of it than the number of tokens can use up.

Main definitions:

* `Lox.Stmt.forLoop` — the form of a `for` loop;
* `Lox.parseDeclaration`, `Lox.parseStatement` — declarations and statements;
* `Lox.parseProgram`, `Lox.parseExpression` — **a list of declarations, and a single expression**.
-/

import Lox.Tree.Parser.Expression

set_option relaxedAutoImplicit false
set_option autoImplicit false

namespace Lox

open Parse

/-! ### Statements -/

/-- A `for` loop: the initializer is run once in a scope of its own, and the increment after every
run of the body; without a condition the loop does not end by itself. -/
def Stmt.forLoop (initializer : Option Stmt) (condition increment : Option Expr) (body : Stmt) :
    Stmt :=
  let body := match increment with
    | none => body
    | some e => .block [body, .expression e]
  let loop := Stmt.loop (condition.getD (.literal (.bool true))) body
  match initializer with
  | none => loop
  | some s => .block [s, loop]

/-- The parameters of a declared body, `count` of which stand before. -/
def parseParameters : Nat → Nat → Parse (List Token)
  | 0, _ => throw .outOfFuel
  | n + 1, count => do
    reportIf (maxArguments ≤ count) .tooManyParameters
    let parameter ← expect .parameterName
    match ← accept (.symbol .comma) with
    | none => return [parameter]
    | some _ => return parameter :: (← parseParameters n (count + 1))

/-- A variable declaration after its first word. -/
def parseVar (n : Nat) : Parse Stmt := do
  let name ← expect .variableName
  let initializer ← after (.symbol .equal) (parseExpr n)
  let _ ← expect .variableEnd
  return .var name initializer

/-- An expression and the semicolon behind it. -/
def parseExpressionStatement (n : Nat) : Parse Stmt := do
  let e ← parseExpr n
  let _ ← expect .expressionEnd
  return .expression e

/-- What stands before the first semicolon of a `for` loop, and the semicolon. -/
def parseForInitializer (n : Nat) : Parse (Option Stmt) := do
  match ← acceptAny [.symbol .semicolon, .keyword .var] with
  | none => some <$> parseExpressionStatement n
  | some t => if t.kind == .keyword .var then some <$> parseVar n else return none

/-- A condition in parentheses. -/
def parseCondition (n : Nat) (opening closing : Expectation) : Parse Expr := do
  let _ ← expect opening
  let condition ← parseExpr n
  let _ ← expect closing
  return condition

mutual

/-- A declaration or a statement; nothing, if a problem was recovered from. -/
def parseDeclaration : Nat → Parse (Option Stmt)
  | 0 => throw .outOfFuel
  | n + 1 => recovering do
    match ← acceptAny [.keyword .class_, .keyword .fun_, .keyword .var] with
    | none => parseStatement n
    | some t =>
      match t.kind with
      | .keyword .class_ => parseClass n
      | .keyword .fun_ => return .function (← parseRoutine n .function)
      | _ => parseVar n

/-- A class declaration after its first word. -/
def parseClass : Nat → Parse Stmt
  | 0 => throw .outOfFuel
  | n + 1 => do
    let name ← expect .className
    let superclass ← after (.symbol .less) (newReference =<< expect .superclassName)
    let _ ← expect .classOpen
    let methods ← parseMethods n
    let _ ← expect .classClose
    return .classDecl name superclass methods

/-- Methods up to a closing brace or the end. -/
def parseMethods : Nat → Parse (List Routine)
  | 0 => throw .outOfFuel
  | n + 1 => do
    if ← atBlockEnd then
      return []
    else
      let method ← parseRoutine n .method
      return method :: (← parseMethods n)

/-- A name, parameters and a body. -/
def parseRoutine : Nat → RoutineKind → Parse Routine
  | 0, _ => throw .outOfFuel
  | n + 1, kind => do
    let name ← expect (.routineName kind)
    let _ ← expect (.routineOpen kind)
    let parameters ← unlessNext (.symbol .rightParen) [] (parseParameters n 0)
    let _ ← expect .parametersClose
    let _ ← expect (.routineBody kind)
    let body ← parseBlock n
    return .mk name parameters body

/-- Declarations up to a closing brace, and the brace. -/
def parseBlock : Nat → Parse (List Stmt)
  | 0 => throw .outOfFuel
  | n + 1 => do
    if ← atBlockEnd then
      let _ ← expect .blockClose
      return []
    else
      let first ← parseDeclaration n
      return first.toList ++ (← parseBlock n)

/-- A statement that is no declaration. -/
def parseStatement : Nat → Parse Stmt
  | 0 => throw .outOfFuel
  | n + 1 => do
    match ← acceptAny [.keyword .for_, .keyword .if_, .keyword .print, .keyword .return_,
      .keyword .while_, .symbol .leftBrace] with
    | none => parseExpressionStatement n
    | some t =>
      match t.kind with
      | .keyword .for_ => parseFor n
      | .keyword .if_ =>
        let condition ← parseCondition n .ifOpen .ifClose
        let thenBranch ← parseStatement n
        let elseBranch ← after (.keyword .else_) (parseStatement n)
        return .cond condition thenBranch elseBranch
      | .keyword .print =>
        let value ← parseExpr n
        let _ ← expect .printEnd
        return .print value
      | .keyword .return_ =>
        let value ← unlessNext (.symbol .semicolon) none (some <$> parseExpr n)
        let _ ← expect .returnEnd
        return .ret t value
      | .keyword .while_ =>
        let condition ← parseCondition n .whileOpen .whileClose
        return .loop condition (← parseStatement n)
      | _ => return .block (← parseBlock n)

/-- A `for` loop after its first word. -/
def parseFor : Nat → Parse Stmt
  | 0 => throw .outOfFuel
  | n + 1 => do
    let _ ← expect .forOpen
    let initializer ← parseForInitializer n
    let condition ← unlessNext (.symbol .semicolon) none (some <$> parseExpr n)
    let _ ← expect .loopConditionEnd
    let increment ← unlessNext (.symbol .rightParen) none (some <$> parseExpr n)
    let _ ← expect .forClose
    let body ← parseStatement n
    return Stmt.forLoop initializer condition increment body

end

/-- Declarations up to the end. -/
def parseDeclarations : Nat → Parse (List Stmt)
  | 0 => throw .outOfFuel
  | n + 1 => do
    if ← atEnd then
      return []
    else
      let first ← parseDeclaration n
      return first.toList ++ (← parseDeclarations n)

/-! ### Whole texts -/

/-- A tree, what was found on the way, and the next free number for a reference. -/
structure Parsed (α : Type) where
  tree : α
  findings : List Diagnostic
  nextId : NodeId

/-- Fuel for the given tokens: a token is passed within that many calls. -/
def parseFuel (tokens : List Token) : Nat := 32 * (tokens.length + 1)

/-- Runs a step from the first token on. -/
def runParse {α : Type} (p : Nat → Parse α) (tokens : List Token) (endMark : Token)
    (nextId : NodeId) : Parsed (Option α) :=
  match p (parseFuel tokens) ⟨tokens, endMark, [], nextId⟩ with
  | .ok a c => ⟨some a, c.findings.reverse, c.nextId⟩
  | .error _ c => ⟨none, c.findings.reverse, c.nextId⟩

/-- A **program**: the declarations that fit the grammar. -/
def parseProgram (tokens : List Token) (endMark : Token) (nextId : NodeId) : Parsed (List Stmt) :=
  let parsed := runParse parseDeclarations tokens endMark nextId
  { parsed with tree := parsed.tree.getD [] }

/-- A **single expression**, with nothing behind it. -/
def parseExpression (tokens : List Token) (endMark : Token) (nextId : NodeId) :
    Parsed (Option Expr) :=
  runParse (fun n => do
    let e ← parseExpr n
    if ← atEnd then return e else fail .missingEnd) tokens endMark nextId

end Lox
