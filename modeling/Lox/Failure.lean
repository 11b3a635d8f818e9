/-
**How a program or a pass can fail.**

A *runtime error* is a program's own mistake: it is reported with the line of the token at fault,
and the session goes on.  A *fault* is a mistake in how the library is used — a tree with a hole,
a distance that no scope has — and no text that is accepted leads to one.

Main definitions:

* `Lox.RuntimeCause`, `Lox.RuntimeError` — mistakes of a program, with their messages;
* `Lox.Pass`, `Lox.Fault` — mistakes in the use of the library, with their messages.
-/

import Lox.Tree.Basic

set_option relaxedAutoImplicit false
set_option autoImplicit false

namespace Lox

/-! ### Runtime errors -/

/-- What can go wrong while a program runs. -/
inductive RuntimeCause where
  | operandNotNumber
  | operandsNotNumbers
  | operandsNotAddable
  | divisionByZero
  | notCallable
  | argumentCount (expected : Int) (given : Nat)
  | stackOverflow
  | propertyOfNonInstance
  | fieldOfNonInstance
  | undefinedProperty (name : String)
  | undefinedVariable (name : String)
  | superclassNotClass
  | native (message : String)
deriving DecidableEq

/-- The wording of a runtime error. -/
def RuntimeCause.message : RuntimeCause → String
  | operandNotNumber => "Operand must be a number."
  | operandsNotNumbers => "Operands must be numbers."
  | operandsNotAddable => "Operands must be two numbers or two strings."
  | divisionByZero => "Division by zero."
  | notCallable => "Can only call functions and classes."
  | argumentCount expected given =>
    "Expected " ++ expected.repr ++ " arguments but got " ++ given.repr ++ "."
  | stackOverflow => "Stack overflow."
  | propertyOfNonInstance => "Only instances have properties."
  | fieldOfNonInstance => "Only instances have fields."
  | undefinedProperty name => "Undefined property '" ++ name ++ "'."
  | undefinedVariable name => "Undefined variable '" ++ name ++ "'."
  | superclassNotClass => "Superclass must be a class."
  | native message => message

/-- A **runtime error**: its cause, and the token at fault where there is one. -/
structure RuntimeError where
  token : Option Token
  cause : RuntimeCause
deriving DecidableEq

namespace RuntimeError

def message (e : RuntimeError) : String := e.cause.message

/-- The line that a runtime error is reported for. -/
def line? (e : RuntimeError) : Option Int := e.token.map (·.line)

end RuntimeError

/-! ### Faults -/

/-- The passes over a syntax tree. -/
inductive Pass where
  | printing
  | resolution
  | execution
deriving DecidableEq

/-- What messages call a pass. -/
def Pass.name : Pass → String
  | printing => "AstPrinter"
  | resolution => "Resolver"
  | execution => "Interpreter"

/-- A **fault**: the library is asked for something it has no answer to. -/
inductive Fault where
  /-- A pass met a form that it does not handle. -/
  | unhandled (shape : String) (pass : Pass)
  /-- Something that is no tree was to be resolved. -/
  | notATree (noun : String)
  | unknownUnary (lexeme : String)
  | unknownBinary (lexeme : String)
  /-- No scope is that far away. -/
  | badDistance (distance : Int)
  /-- The scope at that distance does not bind the name. -/
  | unbound (name : String) (distance : Int)
  /-- A `super` for which no distance is recorded. -/
  | unresolvedSuper (keyword method : Token)
  /-- What `super` stands for is not a class. -/
  | superNotClass
deriving DecidableEq

/-- The wording of a fault. -/
def Fault.message : Fault → String
  | unhandled shape pass =>
    "'" ++ shape ++ "' could not be dispatched by " ++ pass.name ++ ".visit()"
  | notATree noun => "'" ++ noun ++ "' could not be handled by resolve()"
  | unknownUnary lexeme => "Unknown unary operator " ++ Quoted.quoted lexeme
  | unknownBinary lexeme => "Unknown binary operator " ++ Quoted.quoted lexeme
  | badDistance distance => "Invalid scope distance " ++ distance.repr
  | unbound name distance =>
    "'" ++ name ++ "' is not bound " ++ distance.repr ++ " scopes up"
  | unresolvedSuper keyword method =>
    "Super(keyword=" ++ keyword.describe ++ ", method=" ++ method.describe ++ ")"
  | superNotClass => "super is not a class"

end Lox
