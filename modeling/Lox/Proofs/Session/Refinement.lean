/-
**Scopes with distances refine lexical scoping.**

A program that is accepted runs the same over scopes with distances as over names and cells: it
prints the same lines, ends with the same runtime error or with none, and leaves the same globals.
This holds in every session, whatever earlier texts have left behind, and for every allowance of
steps and of nested calls.

Main definitions:

* `Lox.EndsSame` — two runs that cannot be told apart;
* `Lox.Lexical.State.globalTexts`, `Lox.Report.ending` — what a run over names and cells shows.

Main results:

* `Lox.run_refines_lexical` — **a program runs as lexical scoping says**.
-/

import Lox.Proofs.Session.Agreement

set_option relaxedAutoImplicit false
set_option autoImplicit false

namespace Lox

/-- Two runs that **cannot be told apart**: they end with the same interrupt or with none, have
printed the same, and leave the same globals, which are printed alike. -/
structure EndsSame (r : EStateM.Result Interrupt Machine Unit)
    (r' : EStateM.Result Interrupt Lexical.State Lexical.Names) : Prop where
  interrupt : finalInterrupt r = finalInterrupt r'
  printed : (finalState r).printed = (finalState r').printed
  globals : (finalState r).globals = (finalState r').globals.entries
  text : ∀ v, (finalState r).text v = (finalState r').text v

/-- The global names, in their order, with the texts of their values. -/
def Lexical.State.globalTexts (μ : Lexical.State) : List (String × String) :=
  (μ.globals.entries.map fun e => (e.1, μ.text e.2)).mergeSort fun a b => decide (a.1 ≤ b.1)

/-- A report after a run that ended with the given interrupt. -/
def Report.ending (r : Report) : Option Interrupt → Report
  | some (.error e) => r.runtimeError e
  | _ => r

section

variable {M : Nat → String → Prop} {s : Session} {μ : Lexical.State}

theorem Corresponds.globals_eq {L : Ledger} {W : Placement} {m : Machine}
    (hc : Corresponds L W m μ) : m.globals = μ.globals.entries := by
  rw [Machine.globals, hc.stores.global]
  rfl

theorem Agrees.globals_eq (h : Agrees M s μ) : s.globals = μ.globalTexts := by
  obtain ⟨W, hc⟩ := h.corresponds
  rw [Session.globals, Lexical.State.globalTexts, hc.globals_eq]
  simp only [hc.text_eq]

theorem Agrees.printed_eq (h : Agrees M s μ) : s.machine.printed = μ.printed := by
  obtain ⟨W, hc⟩ := h.corresponds
  exact hc.printed.symm

/-- A program that may run cannot be told apart on the two sides. -/
theorem Agrees.endsSame (h : Agrees M s μ) {program : List Stmt}
    (hprogram : bodyScoped (s.ledger M) false [] program) (n room : Nat) :
    EndsSame (execAll n room program s.machine) (Lexical.execAll n room .top program μ) := by
  obtain ⟨W, hc⟩ := h.corresponds
  have hin : InForce W s.machine [] .top := ⟨⟨h.current, rfl, fun _ => rfl⟩, trivial⟩
  have hends := (simulates _ n).execAll room hc hin hprogram
  generalize execAll n room program s.machine = r at hends ⊢
  generalize Lexical.execAll n room .top program μ = r' at hends ⊢
  cases hends with
  | ok _ _ hc' _ => exact ⟨rfl, hc'.printed.symm, hc'.globals_eq, fun v => (hc'.text_eq v).symm⟩
  | error _ _ _ hc' => exact ⟨rfl, hc'.printed.symm, hc'.globals_eq, fun v => (hc'.text_eq v).symm⟩

end

/-- **A program runs as lexical scoping says.**  Take a session and the state that has come through
the same steps over names and cells, and a text that the session accepts.  Within any allowance of
steps and of nested calls, the program cannot be told apart from its run over names and cells.  So
the session prints the same lines, reports the same runtime error or none, and has the same globals
with the same texts; and it is cut short exactly when the other run is. -/
theorem run_refines_lexical {s : Session} {μ : Lexical.State} (h : Twins s μ) {source : String}
    {program : List Stmt} (hprogram : s.acceptedProgram? source = some program) :
    (∀ n room, EndsSame (execAll n room program (s.parsedProgram source).1.machine)
      (Lexical.execAll n room .top program μ)) ∧
    ((s.run source).1.machine.printed = (finalState (Lexical.execute program μ)).printed ∧
      (s.run source).1.globals = (finalState (Lexical.execute program μ)).globalTexts ∧
      (s.run source).1.report = (s.parsedProgram source).1.report.ending
        (finalInterrupt (Lexical.execute program μ)) ∧
      ((s.run source).2 = none ↔
        finalInterrupt (Lexical.execute program μ) ≠ some .outOfFuel)) := by
  have hagrees : Agrees (fun _ _ => True) s μ := h.agrees fun _ _ => trivial
  obtain ⟨ds, ha, hcases⟩ := Session.parsedProgram_cases s hagrees.fresh source
  unfold Session.run
  unfold Session.acceptedProgram? at hprogram
  generalize s.parsedProgram source = parsed at ha hcases hprogram ⊢
  obtain ⟨s₁, result⟩ := parsed
  dsimp only at ha hcases hprogram ⊢
  rcases hcases with rfl | ⟨program', rfl, -, haccepted⟩
  · cases hprogram
  obtain rfl : program' = program := Option.some.inj hprogram
  have hagrees₁ := hagrees.advances ha
  have hscoped := haccepted (fun _ _ => True) fun _ _ => trivial
  -- What the session shows is read off the run with the full allowance.
  refine ⟨hagrees₁.endsSame hscoped, ?_⟩
  have hends := hagrees₁.execute hscoped
  dsimp only
  generalize s₁.runStep (Machine.execute program') = r at hends ⊢
  generalize Lexical.execute program' μ = r' at hends ⊢
  cases hends with
  | value hagrees₂ =>
    exact ⟨hagrees₂.printed_eq, hagrees₂.globals_eq, rfl, by simp [finalInterrupt]⟩
  | error hagrees₂ =>
    exact ⟨hagrees₂.printed_eq, hagrees₂.globals_eq, rfl, by simp [finalInterrupt]⟩
  | outOfFuel hagrees₂ =>
    exact ⟨hagrees₂.printed_eq, hagrees₂.globals_eq, rfl, by simp [finalInterrupt]⟩

/-- A function that is called before and after its block declares the name that it prints. -/
theorem run_refines_lexical_captured :
    let s := Session.initial default false
    let source :=
      "var a = 1; \x7b fun f() \x7b print a; \x7d f(); var a = 2; f(); print a; \x7d"
    Twins s (.initial default) ∧ ∃ program, s.acceptedProgram? source = some program ∧
      (s.run source).1.machine.printed =
        (finalState (Lexical.execute program (.initial default))).printed := by
  intro s source
  have htwins : Twins s (.initial default) := .initial default false
  have hsome : (s.acceptedProgram? source).isSome = true := by decide +kernel
  obtain ⟨program, hprogram⟩ := Option.isSome_iff_exists.1 hsome
  exact ⟨htwins, program, hprogram, (run_refines_lexical htwins hprogram).2.1⟩

end Lox
