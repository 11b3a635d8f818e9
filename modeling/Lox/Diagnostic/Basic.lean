/-
**Diagnostics.**

What can be wrong with a program before it runs.  Each finding names its place, a line or a token,
and its problem; the wording is given once, here.

Main definitions:

* `Lox.Expectation` — a token that the grammar demands at some point, with its kind;
* `Lox.Problem` — the problems of texts, token lists and trees, with their messages;
* `Lox.Place` — a line or a token;
* `Lox.Diagnostic` — **a finding**, and its text.
-/

import Lox.Token.Basic

set_option relaxedAutoImplicit false
set_option autoImplicit false

namespace Lox

/-! ### What the grammar demands -/

/-- The two ways a body with parameters is declared. -/
inductive RoutineKind where
  | function
  | method
deriving DecidableEq

/-- What a message calls a declared body. -/
def RoutineKind.noun : RoutineKind → String
  | function => "function"
  | method => "method"

/-- The points of the grammar at which one kind of token alone can follow. -/
inductive Expectation where
  | className | superclassName | classOpen | classClose
  | variableName | variableEnd
  | forOpen | loopConditionEnd | forClose
  | ifOpen | ifClose | whileOpen | whileClose
  | printEnd | returnEnd | expressionEnd | blockClose
  | routineName (r : RoutineKind) | routineOpen (r : RoutineKind) | routineBody (r : RoutineKind)
  | parameterName | parametersClose | argumentsClose | groupClose
  | propertyName | superDot | superMethod
deriving DecidableEq

namespace Expectation

/-- The kind of token that meets an expectation. -/
def kind : Expectation → Token.Kind
  | className | superclassName | variableName | routineName _ | parameterName
  | propertyName | superMethod => .identifier
  | classOpen | routineBody _ => .symbol .leftBrace
  | classClose | blockClose => .symbol .rightBrace
  | forOpen | ifOpen | whileOpen | routineOpen _ => .symbol .leftParen
  | forClose | ifClose | whileClose | parametersClose | argumentsClose | groupClose =>
    .symbol .rightParen
  | variableEnd | loopConditionEnd | printEnd | returnEnd | expressionEnd => .symbol .semicolon
  | superDot => .symbol .dot

/-- What is missing when an expectation is not met. -/
def wording : Expectation → String
  | className => "class name"
  | superclassName => "superclass name"
  | classOpen => "'\x7b' before class body"
  | classClose => "'\x7d' after class body"
  | variableName => "variable name"
  | variableEnd => "';' after variable declaration"
  | forOpen => "'(' after 'for'"
  | loopConditionEnd => "';' after loop condition"
  | forClose => "')' after for clauses"
  | ifOpen => "'(' after 'if'"
  | ifClose => "')' after if condition"
  | whileOpen => "'(' after 'while'"
  | whileClose => "')' after condition"
  | printEnd => "';' after value"
  | returnEnd => "';' after return value"
  | expressionEnd => "';' after expression"
  | blockClose => "'\x7d' after block"
  | routineName r => r.noun ++ " name"
  | routineOpen r => "'(' after " ++ r.noun ++ " name"
  | routineBody r => "'\x7b' before " ++ r.noun ++ " body"
  | parameterName => "parameter name"
  | parametersClose => "')' after parameters"
  | argumentsClose => "')' after arguments"
  | groupClose => "')' after expression"
  | propertyName => "property name after '.'"
  | superDot => "'.' after 'super'"
  | superMethod => "superclass method name"

end Expectation

/-! ### Problems -/

/-- A call has at most this many arguments, and a body this many parameters. -/
def maxArguments : Nat := 255

/-- What can be wrong with a program before it runs. -/
inductive Problem where
  | unexpectedCharacter (c : Char)
  | unterminatedString
  | missing (e : Expectation)
  | missingExpression
  | missingEnd
  | invalidTarget
  | tooManyArguments
  | tooManyParameters
  | redeclared
  | readInOwnInitializer
  | returnAtTop
  | returnFromInitializer
  | thisOutsideClass
  | superOutsideClass
  | superWithoutSuperclass
  | inheritsFromItself
deriving DecidableEq

/-- The wording of a problem. -/
def Problem.message : Problem → String
  | unexpectedCharacter c => "Unexpected character: " ++ c.toString
  | unterminatedString => "Unterminated string."
  | missing e => "Expected " ++ e.wording ++ "."
  | missingExpression => "Expected expression."
  | missingEnd => "Expected end of expression."
  | invalidTarget => "Invalid assignment target."
  | tooManyArguments => "Can't have more than " ++ maxArguments.repr ++ " arguments."
  | tooManyParameters => "Can't have more than " ++ maxArguments.repr ++ " parameters."
  | redeclared => "Already a variable with this name in this scope."
  | readInOwnInitializer => "Can't read local variable in its own initializer."
  | returnAtTop => "Can't return from top-level code."
  | returnFromInitializer => "Can't return a value from an initializer."
  | thisOutsideClass => "Can't use 'this' outside of a class."
  | superOutsideClass => "Can't use 'super' outside of a class."
  | superWithoutSuperclass => "Can't use 'super' in a class with no superclass."
  | inheritsFromItself => "A class can't inherit from itself."

/-! ### Findings -/

/-- Where a problem was found. -/
inductive Place where
  | line (n : Int)
  | token (t : Token)
deriving DecidableEq

namespace Place

/-- The line of a place. -/
def lineNumber : Place → Int
  | line n => n
  | token t => t.line

/-- How a place is pointed at within its line. -/
def pointer : Place → String
  | line _ => ""
  | token t => if t.kind = .eof then " at end" else " at '" ++ t.lexeme ++ "'"

end Place

/-- The text of a finding in the given line. -/
def findingText (line : Int) (pointer message : String) : String :=
  "[line " ++ line.repr ++ "] Error" ++ pointer ++ ": " ++ message

/-- A **finding**: a problem and its place. -/
structure Diagnostic where
  place : Place
  problem : Problem
deriving DecidableEq

/-- The text of a finding. -/
def Diagnostic.text (d : Diagnostic) : String :=
  findingText d.place.lineNumber d.place.pointer d.problem.message

end Lox
