/-
**From a text to a scoped tree.**

What scanning, parsing and the analysis of scopes make of a session.  They add findings to the
report, use up numbers for references and note distances under these numbers; nothing that an
earlier text has left is changed.  A tree goes on to be printed, evaluated or run only if there was
no finding, and then it is scoped.

Main definitions:

* `Lox.Report.Gains` — a report with some more findings;
* `Lox.Session.Advances` — **what the phases before a run make of a session**;
* `Lox.Session.ledger` — the ledger that goes with a session.

Main results:

* `Lox.Session.parsedProgram_cases`, `Lox.Session.parsedExpression_cases` — **a text is refused with
  findings, or gives a proper tree**;
* `Lox.Session.resolve_expression` — an expression that is not refused is scoped.
-/

import Lox.Proofs.Scope.Resolution
import Lox.Session

set_option relaxedAutoImplicit false
set_option autoImplicit false

namespace Lox

/-! ### Reports -/

/-- A report gains the given findings, and no runtime error. -/
structure Report.Gains (r r' : Report) (ds : List Diagnostic) : Prop where
  messages : r'.messages.toList = r.messages.toList ++ ds.map Diagnostic.text
  hadError : r'.hadError = (r.hadError || !ds.isEmpty)
  hadRuntimeError : r'.hadRuntimeError = r.hadRuntimeError

namespace Report.Gains

theorem refl (r : Report) : r.Gains r [] := ⟨by simp, by simp, rfl⟩

theorem trans {r r' r'' : Report} {ds ds' : List Diagnostic} (h : r.Gains r' ds)
    (h' : r'.Gains r'' ds') : r.Gains r'' (ds ++ ds') where
  messages := by rw [h'.messages, h.messages, List.map_append, List.append_assoc]
  hadError := by
    rw [h'.hadError, h.hadError]
    cases ds <;> simp
  hadRuntimeError := h'.hadRuntimeError.trans h.hadRuntimeError

theorem addAll (r : Report) (ds : List Diagnostic) : r.Gains (r.addAll ds) ds := by
  refine ⟨r.addAll_messages ds, r.addAll_hadError ds, ?_⟩
  induction ds generalizing r with
  | nil => rfl
  | cons d ds ih => exact ih (r.add d)

end Report.Gains

namespace Session

/-! ### Phases -/

/-- What the **phases before a run** make of a session: only the distances of the machine change,
and of these only the ones of new references.  Without findings nothing is written but traces. -/
structure Advances (s s' : Session) (ds : List Diagnostic) : Prop where
  gains : s.report.Gains s'.report ds
  nextId_le : s.nextId ≤ s'.nextId
  machine : ∃ D, s'.machine = { s.machine with distances := D }
  kept : ∀ id, id < s.nextId → s'.machine.distances[id]? = s.machine.distances[id]?
  fresh : ∀ id, s'.nextId ≤ id → s'.machine.distances[id]? = s.machine.distances[id]?
  traced : s'.traced = s.traced
  quiet : s.traced = false → ds = [] → s'.report = s.report

namespace Advances

variable {s s' : Session} {ds : List Diagnostic}

theorem refl (s : Session) : Advances s s [] where
  gains := .refl s.report
  nextId_le := Nat.le_refl _
  machine := ⟨s.machine.distances, rfl⟩
  kept := fun _ _ => rfl
  fresh := fun _ _ => rfl
  traced := rfl
  quiet := fun _ _ => rfl

theorem trace (h : Advances s s' ds) (line : String) : Advances s (s'.trace line) ds := by
  unfold Session.trace
  split
  · rename_i htraced
    exact { h with
      gains := ⟨h.gains.messages, h.gains.hadError, h.gains.hadRuntimeError⟩
      quiet := fun hs => by rw [h.traced, hs] at htraced; cases htraced }
  · exact h

theorem addFindings (h : Advances s s' ds) (ds' : List Diagnostic) :
    Advances s (s'.addFindings ds') (ds ++ ds') :=
  { h with
    gains := h.gains.trans (.addAll s'.report ds')
    quiet := fun hs hnil => by
      obtain ⟨hds, hds'⟩ := List.append_eq_nil_iff.1 hnil
      subst hds'
      exact h.quiet hs hds }

end Advances

theorem scanned_advances (s : Session) (source : String) :
    Advances s (s.scanned source).1 (scan source.toList).findings :=
  ((Advances.refl s).addFindings _).trace _

/-- What a parser makes of a session. -/
theorem parsed_advances {α : Type} (s : Session)
    {parser : List Token → Token → NodeId → Parsed α} (source : String)
    (hparser : ∀ tokens endMark id, id ≤ (parser tokens endMark id).nextId) :
    let scan := scan source.toList
    let parsed := parser scan.tokens scan.endMark s.nextId
    (s.parsed parser source).2 = parsed.tree ∧
      (s.parsed parser source).1.nextId = parsed.nextId ∧
      (s.parsed parser source).1.machine = s.machine ∧
      Advances s (s.parsed parser source).1 (scan.findings ++ parsed.findings) := by
  have hscan := scanned_advances s source
  have hid : (s.scanned source).1.nextId = s.nextId := by
    unfold scanned Session.trace addFindings
    dsimp only
    split <;> rfl
  have hmachine : (s.scanned source).1.machine = s.machine := by
    unfold scanned Session.trace addFindings
    dsimp only
    split <;> rfl
  have hle := hparser (scan source.toList).tokens (scan source.toList).endMark s.nextId
  refine ⟨?_, ?_, hmachine, ?_⟩
  · rw [← hid]
    rfl
  · rw [← hid]
    rfl
  · rw [← hid] at hle ⊢
    have h := hscan.addFindings
      (parser (scan source.toList).tokens (scan source.toList).endMark
        (s.scanned source).1.nextId).findings
    exact { h with
      nextId_le := Nat.le_trans hscan.nextId_le hle
      fresh := fun id hlt => h.fresh id (Nat.le_trans hle hlt) }

/-! ### Trees -/

/-- The ledger that goes with a session. -/
def ledger (s : Session) (mayDeclare : Nat → String → Prop) : Ledger :=
  ⟨s.machine.distances, s.nextId, mayDeclare⟩

/-- No distance is noted under a number that is not given out yet. -/
def Fresh (s : Session) : Prop := ∀ id, s.nextId ≤ id → s.machine.distances[id]? = none

theorem Fresh.advances {s s' : Session} {ds : List Diagnostic} (hs : s.Fresh)
    (h : Advances s s' ds) : s'.Fresh := by
  intro id hid
  rw [h.fresh id hid]
  exact hs id (Nat.le_trans h.nextId_le hid)

/-- What is known of earlier trees stays as it is. -/
theorem Advances.ledger_extends {s s' : Session} {ds : List Diagnostic} (h : Advances s s' ds)
    (mayDeclare : Nat → String → Prop) : (s.ledger mayDeclare).Extends (s'.ledger mayDeclare) :=
  ⟨h.nextId_le, h.kept, fun _ _ hm => hm⟩

/-- The analysis of a new tree notes the distances of its own references. -/
theorem Advances.resolve {s s' : Session} {ds : List Diagnostic} (h : Advances s s' ds)
    {pass : Distances → Resolved} {L : Ledger} {refs : List Reference} {P : Prop}
    (hrefs : Numbered s.nextId s'.nextId refs)
    (hpass : (pass s'.machine.distances).Settles L refs s'.machine.distances P) :
    Advances s (s'.resolve pass).1 (ds ++ (pass s'.machine.distances).findings) := by
  have hf := h.addFindings (pass s'.machine.distances).findings
  refine ⟨hf.gains, h.nextId_le, ?_, fun id hid => ?_, fun id hid => ?_, hf.traced, hf.quiet⟩
  · obtain ⟨D, hD⟩ := h.machine
    exact ⟨(pass s'.machine.distances).distances, by rw [Session.resolve, hD]⟩
  · rw [← h.kept id hid]
    refine hpass.frame id fun ref href => ?_
    exact Nat.ne_of_gt (Nat.lt_of_lt_of_le hid (hrefs.bounds ref href).1)
  · rw [← h.fresh id hid]
    refine hpass.frame id fun ref href => ?_
    exact Nat.ne_of_lt (Nat.lt_of_lt_of_le (hrefs.bounds ref href).2 hid)

/-- A new tree is covered by the ledger of the session after its analysis. -/
theorem ledger_covers {s' : Session} {pass : Distances → Resolved} {refs : List Reference}
    {lo : Nat} (hrefs : Numbered lo s'.nextId refs) (mayDeclare : Nat → String → Prop) :
    ((s'.resolve pass).1.ledger mayDeclare).Covers refs (pass s'.machine.distances).distances :=
  fun ref href => ⟨(hrefs.bounds ref href).2, rfl⟩

/-- A program that may run: it is scoped, whatever may be declared, if it declares only that. -/
def Accepted (s : Session) (program : List Stmt) : Prop :=
  ∀ mayDeclare, (s.ledger mayDeclare).Allows (declarationsOfBody 0 program) →
    bodyScoped (s.ledger mayDeclare) false [] program

/-- No findings were gained if there are none in the end. -/
theorem Advances.findings_eq_nil {s s' : Session} {ds : List Diagnostic} (h : Advances s s' ds)
    (herror : s'.report.hadError = false) : ds = [] := by
  have hgain := h.gains.hadError
  rw [herror] at hgain
  cases ds with
  | nil => rfl
  | cons d ds => simp at hgain

theorem trace_machine (s : Session) (line : String) : (s.trace line).machine = s.machine := by
  unfold Session.trace
  split <;> rfl

theorem trace_nextId (s : Session) (line : String) : (s.trace line).nextId = s.nextId := by
  unfold Session.trace
  split <;> rfl

theorem trace_hadError (s : Session) (line : String) :
    (s.trace line).report.hadError = s.report.hadError := by
  unfold Session.trace
  split <;> rfl

/-- **A text is refused with findings, or gives a program that may run.** -/
theorem parsedProgram_cases (s : Session) (hs : s.Fresh) (source : String) :
    ∃ ds, Advances s (s.parsedProgram source).1 ds ∧
      ((s.parsedProgram source).2 = .ok none ∨
        ∃ program, (s.parsedProgram source).2 = .ok (some program) ∧ ds = [] ∧
          (s.parsedProgram source).1.Accepted program) := by
  obtain ⟨htree, hid, hmachine, hadv⟩ := parsed_advances s source
    (fun tokens endMark id => (parseProgram_sound tokens endMark id).1)
  unfold parsedProgram
  generalize s.parsed parseProgram source = parsed at htree hid hmachine hadv ⊢
  obtain ⟨s₁, program⟩ := parsed
  dsimp only at htree hid hmachine hadv ⊢
  -- The trace of the phase is of no consequence.
  have hadv := hadv.trace ("parsed " ++ program.length.repr ++ " statements")
  rw [← trace_machine s₁ ("parsed " ++ program.length.repr ++ " statements")] at hmachine
  rw [← trace_nextId s₁ ("parsed " ++ program.length.repr ++ " statements")] at hid
  generalize s₁.trace ("parsed " ++ program.length.repr ++ " statements") = s₂
    at hid hmachine hadv ⊢
  by_cases herror : s₂.report.hadError = true
  · rw [if_pos herror]
    exact ⟨_, hadv, .inl rfl⟩
  rw [if_neg herror]
  have hnil := hadv.findings_eq_nil (by simpa using herror)
  have hmade := (parseProgram_sound _ _ s.nextId).2 (List.append_eq_nil_iff.1 hnil).2
  rw [← htree, ← hid] at hmade
  obtain ⟨hderived, hnumbers⟩ := hmade
  have hsettles : ∀ {L : Ledger}, L.Allows (declarationsOfBody 0 program) → _ :=
    resolveProgram_scoped (D := s₂.machine.distances) (hderived.proper (scan_spelled _))
      hnumbers.nodup
      (fun ref href => by rw [hmachine]; exact hs ref.id (hnumbers.bounds ref href).1)
  have hany := hsettles (L := s.ledger fun _ _ => True) fun _ _ => trivial
  have hadv₃ := hadv.resolve hnumbers hany
  have hres : s₂.resolve (resolveProgram program) =
      ((s₂.resolve (resolveProgram program)).1, none) := Prod.ext rfl hany.fault
  rw [hres]
  dsimp only
  split
  · exact ⟨_, hadv₃.trace _, .inl rfl⟩
  · rename_i herror₃
    have hnil₃ := hadv₃.findings_eq_nil (by simpa using herror₃)
    refine ⟨_, hadv₃, .inr ⟨program, rfl, hnil₃, fun mayDeclare hmay => ?_⟩⟩
    exact (hsettles hmay).result (List.append_eq_nil_iff.1 hnil₃).2 (ledger_covers hnumbers _)

/-- A text is refused with findings, or gives a proper expression. -/
theorem parsedExpression_cases (s : Session) (source : String) :
    ∃ ds, Advances s (s.parsedExpression source).1 ds ∧
      (s.parsedExpression source).1.machine = s.machine ∧
      ((s.parsedExpression source).2 = none ∨
        ∃ e, (s.parsedExpression source).2 = some e ∧ ds = [] ∧ e.Proper ∧
          Numbered s.nextId (s.parsedExpression source).1.nextId e.references) := by
  obtain ⟨htree, hid, hmachine, hadv⟩ := parsed_advances s source
    (fun tokens endMark id => (parseExpression_sound tokens endMark id).1)
  unfold parsedExpression
  generalize s.parsed parseExpression source = parsed at htree hid hmachine hadv ⊢
  obtain ⟨s₁, e?⟩ := parsed
  dsimp only at htree hid hmachine hadv ⊢
  refine ⟨_, hadv, hmachine, ?_⟩
  by_cases herror : s₁.report.hadError = true
  · exact .inl (if_pos herror)
  · rw [if_neg herror]
    have hnil := hadv.findings_eq_nil (by simpa using herror)
    obtain ⟨e, he, hderived, hnumbers⟩ :=
      (parseExpression_sound _ _ s.nextId).2 (List.append_eq_nil_iff.1 hnil).2
    rw [← hid] at hnumbers
    exact .inr ⟨e, htree.trans he, hnil, hderived.proper (scan_spelled _), hnumbers⟩

/-- **An expression is refused with findings, or may be evaluated.** -/
theorem resolve_expression {s s' : Session} {ds : List Diagnostic} {e : Expr} (hs : s.Fresh)
    (hadv : Advances s s' ds) (hmachine : s'.machine = s.machine) (he : e.Proper)
    (hnumbers : Numbered s.nextId s'.nextId e.references) :
    (s'.resolve (resolveExpression e)).2 = none ∧
      Advances s (s'.resolve (resolveExpression e)).1
        (ds ++ (resolveExpression e s'.machine.distances).findings) ∧
      ((s'.resolve (resolveExpression e)).1.report.hadError = false → ∀ mayDeclare,
        e.Scoped ((s'.resolve (resolveExpression e)).1.ledger mayDeclare) []) := by
  have hsettles : ∀ {L : Ledger}, _ := fun {L} =>
    resolveExpression_scoped (L := L) (D := s'.machine.distances) he hnumbers.nodup
      (fun ref href => by rw [hmachine]; exact hs ref.id (hnumbers.bounds ref href).1)
  have hany := hsettles (L := s.ledger fun _ _ => True)
  have hadv' := hadv.resolve hnumbers hany
  refine ⟨hany.fault, hadv', fun herror mayDeclare => ?_⟩
  have hnil := hadv'.findings_eq_nil herror
  exact hsettles.result (List.append_eq_nil_iff.1 hnil).2 (ledger_covers hnumbers _)

end Session

end Lox
