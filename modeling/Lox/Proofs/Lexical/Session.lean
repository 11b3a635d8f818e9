/-
**Sessions over names and cells.**

What the machine of names and cells does in the course of a session.  Which texts are accepted, and
as which trees, is decided by the session; the trees are run without any distances.  A session and a
state that have come through the same steps are *twins*.

Main definitions:

* `Lox.Lexical.execute`, `Lox.Lexical.evaluate` — a whole program, and a single expression;
* `Lox.Session.acceptedProgram?`, `Lox.Session.acceptedExpression?` — the tree that a text is run
  as;
* `Lox.Lexical.State.apply` — a step of a session, as it is for a state;
* `Lox.Twins` — **a session and a state that have come through the same steps**;
* `Lox.Session.Reachable` — the sessions that there are.

Main results:

* `Lox.Session.Reachable.twin` — every session has a twin.
-/

import Lox.Proofs.Lexical.Eval
import Lox.Session

set_option relaxedAutoImplicit false
set_option autoImplicit false

namespace Lox

/-! ### How a step ends -/

/-- The state that a step ends with. -/
def finalState {ε σ α : Type} : EStateM.Result ε σ α → σ
  | .ok _ s => s
  | .error _ s => s

/-- The interrupt that a step ends with. -/
def finalInterrupt {ε σ α : Type} : EStateM.Result ε σ α → Option ε
  | .ok _ _ => none
  | .error i _ => some i

/-! ### Accepted texts -/

namespace Session

/-- The program that a text is run as, if it is accepted. -/
def acceptedProgram? (s : Session) (source : String) : Option (List Stmt) :=
  match (s.parsedProgram source).2 with
  | .ok program? => program?
  | .error _ => none

/-- The session after the analysis of an expression. -/
def resolvedExpression (s : Session) (source : String) (e : Expr) : Session :=
  ((s.parsedExpression source).1.resolve (resolveExpression e)).1

/-- The expression that a text is evaluated as, if it is accepted. -/
def acceptedExpression? (s : Session) (source : String) : Option Expr :=
  (s.parsedExpression source).2.filter fun e => !(s.resolvedExpression source e).report.hadError

end Session

/-! ### Steps -/

namespace Lexical

/-- The execution of a program. -/
def execute (program : List Stmt) : Run Names := execAll maxSteps maxCallDepth .top program

/-- The evaluation of an expression, to the text of its value. -/
def evaluate (e : Expr) : Run String := do
  let v ← eval maxSteps maxExpressionCallDepth .top e
  return (← get).text v

namespace State

/-- Evaluates an expression and prints its value. -/
def printValue (μ : State) (e : Expr) : State :=
  match evaluate e μ with
  | .ok text μ => { μ with printed := μ.printed.push text }
  | .error _ μ => μ

/-- What a step of a session is for a state: an accepted text is run over names and cells, and the
listing of tokens or of a tree is only printed. -/
def apply (μ : State) (s : Session) : Step → State
  | .perform .run source =>
    (s.acceptedProgram? source).elim μ fun program => finalState (execute program μ)
  | .perform .evaluate source => (s.acceptedExpression? source).elim μ μ.printValue
  | .perform .tokenize source =>
    { μ with printed := (s.perform .tokenize source).1.machine.printed }
  | .perform .parse source => { μ with printed := (s.perform .parse source).1.machine.printed }
  | .reset => μ
  | .register name f => μ.register name f

end State

end Lexical

/-- A session and a state that have come through **the same steps**.  Between the steps the output
may be taken away, and time may pass. -/
inductive Twins : Session → Lexical.State → Prop
  | initial (time : Number) (traced : Bool) :
      Twins (.initial time traced) (.initial time)
  | step {s : Session} {μ : Lexical.State} (h : Twins s μ) (step : Step) :
      Twins (s.apply step).1 (μ.apply s step)
  | flush {s : Session} {μ : Lexical.State} (h : Twins s μ) :
      Twins s.flush { μ with printed := #[] }
  | tick {s : Session} {μ : Lexical.State} (h : Twins s μ) (time : Number) :
      Twins { s with machine := { s.machine with time := time } } { μ with time := time }

/-- The sessions that there are: a new one, and what any steps make of it.  Between the steps the
output may be taken away, and time may pass. -/
inductive Session.Reachable : Session → Prop
  | initial (time : Number) (traced : Bool) : Reachable (.initial time traced)
  | step {s : Session} (h : Reachable s) (step : Step) : Reachable (s.apply step).1
  | flush {s : Session} (h : Reachable s) : Reachable s.flush
  | tick {s : Session} (h : Reachable s) (time : Number) :
      Reachable { s with machine := { s.machine with time := time } }

/-- Every session has a twin. -/
theorem Session.Reachable.twin {s : Session} (h : s.Reachable) : ∃ μ, Twins s μ := by
  induction h with
  | initial time traced => exact ⟨_, .initial time traced⟩
  | step _ step ih =>
    obtain ⟨μ, hμ⟩ := ih
    exact ⟨_, hμ.step step⟩
  | flush _ ih =>
    obtain ⟨μ, hμ⟩ := ih
    exact ⟨_, hμ.flush⟩
  | tick _ time ih =>
    obtain ⟨μ, hμ⟩ := ih
    exact ⟨_, hμ.tick time⟩

end Lox
