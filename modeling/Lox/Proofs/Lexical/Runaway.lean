/-
**Calls without end.**

A function that prints a number and then calls itself comes to no end of its own.  It calls itself
as long as there is room for calls, and then there is the error of a call that there is no room for.
So what it has printed by then tells how much room there was.

Main definitions:

* `Lox.Lexical.runaway` — a function that prints a number and then calls itself;
* `Lox.Lexical.State.KnowsRunaway` — the state knows it by the name that it calls itself.

Main results:

* `Lox.Lexical.call_runaway` — **the function prints a line for every call that there is room for**;
* `Lox.Lexical.execAll_print_runaway` — the same where the value of its call is to be printed.
-/

import Lox.Proofs.Lexical.Session
import Lox.Proofs.Sequence

set_option relaxedAutoImplicit false
set_option autoImplicit false

namespace Lox

namespace Lexical

/-- A function that prints a number and then **calls itself**. -/
def runaway (name : Token) (x : Number) (ref : Reference) (paren : Token) : Routine :=
  .mk name [] [.print (.literal (.number x)), .expression (.call (.variable ref) paren [])]

/-- The state knows the function by the name that it calls itself. -/
structure State.KnowsRunaway (μ : State) (id : Nat) (name : Token) (x : Number) (ref : Reference)
    (paren : Token) : Prop where
  global : μ.globals.get? ref.name.lexeme = some (.closure id)
  closure : μ.closures[id]? = some ⟨runaway name x ref paren, .top, false⟩

section

variable {name : Token} {x : Number} {ref : Reference} {paren : Token} {id : Nat} {μ : State}
  {n room : Nat}

/-- A call of a function that is known by a global name, without arguments. -/
theorem eval_call_global {ρ : Names} (hlocal : ρ.cell? ref.name.lexeme = none)
    (hglobal : μ.globals.get? ref.name.lexeme = some (.closure id)) :
    eval (n + 2) room ρ (.call (.variable ref) paren []) μ =
      call (n + 1) room paren (.closure id) [] μ := by
  have hcallee : eval (n + 1) room ρ (.variable ref) μ = .ok (.closure id) μ := by
    rw [eval, lookUp, hlocal]
    dsimp only
    rw [get_bind, hglobal]
    rfl
  rw [eval, bind_ok hcallee]
  rfl

theorem State.KnowsRunaway.withPrinted (h : μ.KnowsRunaway id name x ref paren)
    (printed : Array String) :
    State.KnowsRunaway { μ with printed := printed } id name x ref paren :=
  ⟨h.global, h.closure⟩

theorem State.KnowsRunaway.callable? (h : μ.KnowsRunaway id name x ref paren) :
    μ.callable? (.closure id) = some (.closure ⟨runaway name x ref paren, .top, false⟩) := by
  rw [State.callable?, h.closure]
  rfl

/-- Without room there is no call. -/
theorem call_runaway_zero (h : μ.KnowsRunaway id name x ref paren) (t : Token) :
    call (n + 1) 0 t (.closure id) [] μ = .error (.at t .stackOverflow) μ := by
  rw [call, get_bind, h.callable?]
  rfl

/-- A call prints the number, and ends with the error of the call inside it. -/
theorem call_runaway_succ (h : μ.KnowsRunaway id name x ref paren) {e : RuntimeError} {μ' : State}
    (hinner : call (n + 1) room paren (.closure id) []
      { μ with printed := μ.printed.push x.text } = .error (.error e) μ') (t : Token) :
    call (n + 7) (room + 1) t (.closure id) [] μ = .error (.error e) μ' := by
  have hcall : eval (n + 2) room Names.top.inside (.call (.variable ref) paren [])
      { μ with printed := μ.printed.push x.text } = .error (.error e) μ' :=
    (eval_call_global rfl (h.withPrinted _).global).trans hinner
  have hlast : execAll (n + 4) room Names.top.inside
      [.expression (.call (.variable ref) paren [])]
      { μ with printed := μ.printed.push x.text } = .error (.error e) μ' := by
    rw [execAll, exec]
    exact bind_error (bind_error hcall)
  have hbody : execAll (n + 5) room Names.top.inside (runaway name x ref paren).body μ =
      .error (.error e) μ' := hlast
  rw [call, get_bind, h.callable?]
  change runClosure (n + 6) room _ [] μ = _
  rw [runClosure]
  change (Run.catchReturn (execAll (n + 5) room Names.top.inside _) >>= pure) μ = _
  refine bind_error ?_
  rw [Run.catchReturn, hbody]

/-- The function prints a line for **every call that there is room for**. -/
theorem call_runaway (h : μ.KnowsRunaway id name x ref paren) (hn : 6 * room < n) (t : Token) :
    ∃ t', call n room t (.closure id) [] μ = .error (.at t' .stackOverflow)
      { μ with printed := μ.printed ++ Array.replicate room x.text } := by
  induction room generalizing n t μ with
  | zero =>
    obtain ⟨n, rfl⟩ := Nat.exists_eq_add_of_lt hn
    refine ⟨t, ?_⟩
    rw [Nat.mul_zero, Nat.zero_add, call_runaway_zero h, Array.replicate_zero, Array.append_empty]
  | succ room ih =>
    obtain ⟨n, rfl⟩ : ∃ n', n = n' + 7 := ⟨n - 7, by omega⟩
    obtain ⟨t', hinner⟩ := ih (h.withPrinted _) (n := n + 1) (by omega) paren
    have hprinted : μ.printed.push x.text ++ Array.replicate room x.text =
        μ.printed ++ Array.replicate (room + 1) x.text := by
      apply Array.ext'
      simp [List.replicate_succ]
    refine ⟨t', ?_⟩
    rw [← hprinted]
    exact call_runaway_succ h hinner t

/-- A program that prints the value of its call prints just these lines. -/
theorem execAll_print_runaway (h : μ.KnowsRunaway id name x ref paren) {ref' : Reference}
    (hname : ref'.name.lexeme = ref.name.lexeme) (hn : 6 * room + 4 < n) (t : Token) :
    ∃ t', execAll n room .top [.print (.call (.variable ref') t [])] μ =
      .error (.at t' .stackOverflow)
        { μ with printed := μ.printed ++ Array.replicate room x.text } := by
  obtain ⟨n, rfl⟩ : ∃ n', n = n' + 4 := ⟨n - 4, by omega⟩
  have hsteps : 6 * room < n + 1 := by omega
  obtain ⟨t', hcall⟩ := call_runaway h hsteps t
  refine ⟨t', ?_⟩
  rw [execAll, exec]
  exact bind_error (bind_error ((eval_call_global rfl (hname ▸ h.global)).trans hcall))

end

/-! ### Programs that tell of such a function -/

/-- The program declares such a function. -/
def declaresRunaway (f : String) : List Stmt → Bool
  | [.function (.mk name [] [.print (.literal (.number _)),
      .expression (.call (.variable ref) _ [])])] => name.lexeme == f && ref.name.lexeme == f
  | _ => false

/-- The program prints the value of a call. -/
def printsCall (f : String) : List Stmt → Bool
  | [.print (.call (.variable ref) _ [])] => ref.name.lexeme == f
  | _ => false

theorem eq_of_printsCall {f : String} {program : List Stmt} (h : printsCall f program = true) :
    ∃ ref t, program = [.print (.call (.variable ref) t [])] ∧ ref.name.lexeme = f := by
  unfold printsCall at h
  split at h
  · exact ⟨_, _, rfl, eq_of_beq h⟩
  · cases h

/-- After the declaration the state **knows the function**, and nothing is printed yet. -/
theorem knowsRunaway_of_declared {f : String} {program : List Stmt}
    (h : declaresRunaway f program = true) (time : Number) :
    ∃ id name x ref paren, ref.name.lexeme = f ∧
      (finalState (execute program (.initial time))).KnowsRunaway id name x ref paren ∧
      (finalState (execute program (.initial time))).printed = #[] := by
  unfold declaresRunaway at h
  split at h
  · next name x ref paren =>
    obtain ⟨hname, href⟩ := Bool.and_eq_true_iff.1 h
    have hname : ref.name.lexeme = name.lexeme := (eq_of_beq href).trans (eq_of_beq hname).symm
    obtain ⟨n, hn⟩ : ∃ n, maxSteps = n + 3 := ⟨maxSteps - 3, rfl⟩
    rw [execute, hn]
    refine ⟨0, name, x, ref, paren, eq_of_beq href, ⟨?_, rfl⟩, rfl⟩
    change (Bindings.set _ name.lexeme _).get? ref.name.lexeme = _
    rw [Bindings.get?_set, if_pos hname]
    rfl
  · cases h

end Lexical

end Lox
