/-
**The parser over positions.**

The same recursive descent, said with one list of tokens that ends in an end mark and a position in
it.  A position is a number that nothing keeps inside the list, and the token before a position is
asked for as often as the one at it: here every token is fetched by its number, and a step that asks
for one that is not there, at the position or before it, is *astray*.

Main definitions:

* `Lox.Pointer`, `Lox.Walk` — **a position in the tokens**, and steps that move it;
* `Lox.Indexed.peek`, `Lox.Indexed.previous` — the tokens at the position and before it;
* `Lox.Indexed.synchronize` — where parsing goes on after a problem;
* `Lox.Indexed.declaration`, `Lox.Indexed.statement`, `Lox.Indexed.expression` — the descent;
* `Lox.Indexed.program`, `Lox.Indexed.single` — **a list of declarations, and a single expression**.
-/

import Lox.Tree.Parser.Program

set_option relaxedAutoImplicit false
set_option autoImplicit false

namespace Lox

/-- A **position** in the tokens, the findings so far (the last one first), and the next free number
for a reference. -/
structure Pointer where
  current : Nat
  findings : List Diagnostic
  nextId : NodeId
deriving DecidableEq

/-- Why a step gave no result: a problem that was reported, a lack of fuel, or a token that was
asked for and is not there. -/
inductive WalkStop where
  | malformed
  | outOfFuel
  | astray
deriving DecidableEq

/-- A step that moves the position. -/
abbrev Walk := EStateM WalkStop Pointer

namespace Indexed

section

variable (tokens : List Token)

/-! ### Tokens by their numbers -/

/-- The token at the position. -/
def peek : Walk Token := do
  match tokens[(← get).current]? with
  | some t => return t
  | none => throw .astray

/-- The token before the position. -/
def previous : Walk Token := do
  match (← get).current with
  | 0 => throw .astray
  | i + 1 =>
    match tokens[i]? with
    | some t => return t
    | none => throw .astray

/-- Whether the position is the one of the end mark. -/
def atEnd : Walk Bool := return (← peek tokens).kind == .eof

/-- Whether the token at the position is of the given kind; the end mark is of none. -/
def check (k : Token.Kind) : Walk Bool := do
  if ← atEnd tokens then return false else return (← peek tokens).kind == k

/-- Passes a token, unless it is the end mark, and gives the one before the new position. -/
def advance : Walk Token := do
  if ← atEnd tokens then
    previous tokens
  else
    modify fun c => { c with current := c.current + 1 }
    previous tokens

/-- Passes a token if it is of one of the given kinds. -/
def matchAny : List Token.Kind → Walk Bool
  | [] => return false
  | k :: ks => do
    if ← check tokens k then
      let _ ← advance tokens
      return true
    else
      matchAny ks

/-- Passes a token if it is of the given kind. -/
def matchOne (k : Token.Kind) : Walk Bool := matchAny tokens [k]

/-- Whether a closing brace is at the position, or the end mark. -/
def atBlockEnd : Walk Bool := do
  if ← check tokens (.symbol .rightBrace) then return true else atEnd tokens

/-- Reports a problem and goes on. -/
def report (t : Token) (p : Problem) : Walk Unit :=
  modify fun c => { c with findings := ⟨.token t, p⟩ :: c.findings }

/-- Reports a problem with the token at the position, if there is one, and goes on. -/
def reportIf (c : Bool) (p : Problem) : Walk Unit :=
  if c then do report (← peek tokens) p else pure ()

/-- Reports a problem with the token at the position and gives up. -/
def fail {α : Type} (p : Problem) : Walk α := do
  report (← peek tokens) p
  throw .malformed

/-- Passes the token that the grammar demands. -/
def consume (e : Expectation) : Walk Token := do
  if ← check tokens e.kind then advance tokens else fail tokens (.missing e)

/-- What the given step gives, if a token of the given kind is at the position and passed. -/
def following {α : Type} (k : Token.Kind) (step : Walk α) : Walk (Option α) := do
  if ← matchOne tokens k then some <$> step else return none

/-- What the given step gives, unless a token of the given kind is at the position. -/
def unlessAt {α : Type} (k : Token.Kind) (absent : α) (step : Walk α) : Walk α := do
  if ← check tokens k then return absent else step

/-- A new reference by the given name. -/
def newReference (name : Token) : Walk Reference := do
  let c ← get
  set { c with nextId := c.nextId + 1 }
  return ⟨c.nextId, name⟩

/-! ### Recovery -/

/-- Tokens are passed up to one behind a semicolon, or one that begins a statement. -/
def skip : Nat → Walk Unit
  | 0 => throw .outOfFuel
  | n + 1 => do
    if ← atEnd tokens then
      return ()
    else if (← previous tokens).kind == .symbol .semicolon then
      return ()
    else if statementWords.contains (← peek tokens).kind then
      return ()
    else
      let _ ← advance tokens
      skip n

/-- Where parsing goes on after a problem. -/
def synchronize : Walk Unit := do
  let _ ← advance tokens
  skip tokens tokens.length

/-- A step whose problems are recovered from. -/
def recovering {α : Type} (p : Walk α) : Walk (Option α) := fun c =>
  match p c with
  | .ok a c => .ok (some a) c
  | .error .malformed c => (do synchronize tokens; return none : Walk (Option α)) c
  | .error stop c => .error stop c

/-! ### Expressions -/

mutual

/-- An expression: an assignment, or what the ladder gives. -/
def expression : Nat → Walk Expr
  | 0 => throw .outOfFuel
  | n + 1 => do
    let target ← levels n Level.ladder
    if ← matchOne tokens (.symbol .equal) then
      let equals ← previous tokens
      let value ← expression n
      match target with
      | .variable r => return .assign (← newReference r.name) value
      | .get object name => return .set object name value
      | _ =>
        report equals .invalidTarget
        return target
    else
      return target

/-- What the given levels of the ladder give. -/
def levels : Nat → List Level → Walk Expr
  | 0, _ => throw .outOfFuel
  | n + 1, [] => unary n
  | n + 1, level :: tighter => do
    let left ← levels n tighter
    operands n level tighter left

/-- The operators of a level and their right operands. -/
def operands : Nat → Level → List Level → Expr → Walk Expr
  | 0, _, _, _ => throw .outOfFuel
  | n + 1, level, tighter, left => do
    if ← matchAny tokens level.operators then
      let operator ← previous tokens
      let right ← levels n tighter
      operands n level tighter (level.combine left operator right)
    else
      return left

/-- Operators that stand before their operand. -/
def unary : Nat → Walk Expr
  | 0 => throw .outOfFuel
  | n + 1 => do
    if ← matchAny tokens unaryOperators then
      let operator ← previous tokens
      return .unary operator (← unary n)
    else
      let head ← primary n
      selectors n head

/-- The calls and property accesses behind an expression. -/
def selectors : Nat → Expr → Walk Expr
  | 0, _ => throw .outOfFuel
  | n + 1, head => do
    if ← matchOne tokens (.symbol .leftParen) then
      let arguments ← unlessAt tokens (.symbol .rightParen) [] (arguments n 0)
      let paren ← consume tokens .argumentsClose
      selectors n (.call head paren arguments)
    else if ← matchOne tokens (.symbol .dot) then
      let name ← consume tokens .propertyName
      selectors n (.get head name)
    else
      return head

/-- The arguments of a call, `count` of which stand before. -/
def arguments : Nat → Nat → Walk (List Expr)
  | 0, _ => throw .outOfFuel
  | n + 1, count => do
    reportIf tokens (maxArguments ≤ count) .tooManyArguments
    let argument ← expression n
    if ← matchOne tokens (.symbol .comma) then
      return argument :: (← arguments n (count + 1))
    else
      return [argument]

/-- Literals, names and parenthesized expressions. -/
def primary : Nat → Walk Expr
  | 0 => throw .outOfFuel
  | n + 1 => do
    if ← matchOne tokens (.keyword .false_) then
      return .literal (.bool false)
    else if ← matchOne tokens (.keyword .true_) then
      return .literal (.bool true)
    else if ← matchOne tokens (.keyword .nil) then
      return .literal .nil
    else if ← matchAny tokens [.number, .string] then
      return .literal (← previous tokens).literal
    else if ← matchOne tokens (.keyword .super) then
      let keyword ← previous tokens
      let _ ← consume tokens .superDot
      let method ← consume tokens .superMethod
      return .super (← newReference keyword) method
    else if ← matchOne tokens (.keyword .this) then
      return .this (← newReference (← previous tokens))
    else if ← matchOne tokens .identifier then
      return .variable (← newReference (← previous tokens))
    else if ← matchOne tokens (.symbol .leftParen) then
      let inner ← expression n
      let _ ← consume tokens .groupClose
      return .grouping inner
    else
      fail tokens .missingExpression

end

/-! ### Statements -/

/-- The parameters of a declared body, `count` of which stand before. -/
def parameters : Nat → Nat → Walk (List Token)
  | 0, _ => throw .outOfFuel
  | n + 1, count => do
    reportIf tokens (maxArguments ≤ count) .tooManyParameters
    let parameter ← consume tokens .parameterName
    if ← matchOne tokens (.symbol .comma) then
      return parameter :: (← parameters n (count + 1))
    else
      return [parameter]

/-- A variable declaration after its first word. -/
def varDeclaration (n : Nat) : Walk Stmt := do
  let name ← consume tokens .variableName
  let initializer ← following tokens (.symbol .equal) (expression tokens n)
  let _ ← consume tokens .variableEnd
  return .var name initializer

/-- An expression and the semicolon behind it. -/
def expressionStatement (n : Nat) : Walk Stmt := do
  let e ← expression tokens n
  let _ ← consume tokens .expressionEnd
  return .expression e

/-- What stands before the first semicolon of a `for` loop, and the semicolon. -/
def forInitializer (n : Nat) : Walk (Option Stmt) := do
  if ← matchOne tokens (.symbol .semicolon) then
    return none
  else if ← matchOne tokens (.keyword .var) then
    some <$> varDeclaration tokens n
  else
    some <$> expressionStatement tokens n

/-- A condition in parentheses. -/
def condition (n : Nat) (opening closing : Expectation) : Walk Expr := do
  let _ ← consume tokens opening
  let e ← expression tokens n
  let _ ← consume tokens closing
  return e

mutual

/-- A declaration or a statement; nothing, if a problem was recovered from. -/
def declaration : Nat → Walk (Option Stmt)
  | 0 => throw .outOfFuel
  | n + 1 => recovering tokens do
    if ← matchOne tokens (.keyword .class_) then
      classDeclaration n
    else if ← matchOne tokens (.keyword .fun_) then
      return .function (← routine n .function)
    else if ← matchOne tokens (.keyword .var) then
      varDeclaration tokens n
    else
      statement n

/-- A class declaration after its first word. -/
def classDeclaration : Nat → Walk Stmt
  | 0 => throw .outOfFuel
  | n + 1 => do
    let name ← consume tokens .className
    let superclass ← following tokens (.symbol .less) do
      let _ ← consume tokens .superclassName
      newReference (← previous tokens)
    let _ ← consume tokens .classOpen
    let methods ← methods n
    let _ ← consume tokens .classClose
    return .classDecl name superclass methods

/-- Methods up to a closing brace or the end. -/
def methods : Nat → Walk (List Routine)
  | 0 => throw .outOfFuel
  | n + 1 => do
    if ← atBlockEnd tokens then
      return []
    else
      let method ← routine n .method
      return method :: (← methods n)

/-- A name, parameters and a body. -/
def routine : Nat → RoutineKind → Walk Routine
  | 0, _ => throw .outOfFuel
  | n + 1, kind => do
    let name ← consume tokens (.routineName kind)
    let _ ← consume tokens (.routineOpen kind)
    let ps ← unlessAt tokens (.symbol .rightParen) [] (parameters tokens n 0)
    let _ ← consume tokens .parametersClose
    let _ ← consume tokens (.routineBody kind)
    let body ← block n
    return .mk name ps body

/-- Declarations up to a closing brace, and the brace. -/
def block : Nat → Walk (List Stmt)
  | 0 => throw .outOfFuel
  | n + 1 => do
    if ← atBlockEnd tokens then
      let _ ← consume tokens .blockClose
      return []
    else
      let first ← declaration n
      return first.toList ++ (← block n)

/-- A statement that is no declaration. -/
def statement : Nat → Walk Stmt
  | 0 => throw .outOfFuel
  | n + 1 => do
    if ← matchOne tokens (.keyword .for_) then
      forStatement n
    else if ← matchOne tokens (.keyword .if_) then
      let c ← condition tokens n .ifOpen .ifClose
      let thenBranch ← statement n
      let elseBranch ← following tokens (.keyword .else_) (statement n)
      return .cond c thenBranch elseBranch
    else if ← matchOne tokens (.keyword .print) then
      let value ← expression tokens n
      let _ ← consume tokens .printEnd
      return .print value
    else if ← matchOne tokens (.keyword .return_) then
      let keyword ← previous tokens
      let value ← unlessAt tokens (.symbol .semicolon) none (some <$> expression tokens n)
      let _ ← consume tokens .returnEnd
      return .ret keyword value
    else if ← matchOne tokens (.keyword .while_) then
      let c ← condition tokens n .whileOpen .whileClose
      return .loop c (← statement n)
    else if ← matchOne tokens (.symbol .leftBrace) then
      return .block (← block n)
    else
      expressionStatement tokens n

/-- A `for` loop after its first word. -/
def forStatement : Nat → Walk Stmt
  | 0 => throw .outOfFuel
  | n + 1 => do
    let _ ← consume tokens .forOpen
    let initializer ← forInitializer tokens n
    let c ← unlessAt tokens (.symbol .semicolon) none (some <$> expression tokens n)
    let _ ← consume tokens .loopConditionEnd
    let increment ← unlessAt tokens (.symbol .rightParen) none (some <$> expression tokens n)
    let _ ← consume tokens .forClose
    let body ← statement n
    return Stmt.forLoop initializer c increment body

end

/-! ### Whole texts -/

/-- A **list of declarations** up to the end mark. -/
def program : Nat → Walk (List Stmt)
  | 0 => throw .outOfFuel
  | n + 1 => do
    if ← atEnd tokens then
      return []
    else
      let first ← declaration tokens n
      return first.toList ++ (← program n)

/-- A **single expression** with the end mark behind it; nothing, if there is a problem. -/
def single (n : Nat) : Walk (Option Expr) := fun c =>
  match (do
    let e ← expression tokens n
    if ← atEnd tokens then return e else fail tokens .missingEnd : Walk Expr) c with
  | .ok e c => .ok (some e) c
  | .error .malformed c => .ok none c
  | .error stop c => .error stop c

end

end Indexed

end Lox
