/-
**What of a report bears on later steps.**

A session asks its report for one thing alone, whether there is a finding in it.  Its messages, the
mark of a runtime error, the text written and the traces have no bearing on what it does next: two
sessions with the same machine and the same numbers left, of which both have a finding or neither,
come through any steps alike.

Main definitions:

* `Lox.Session.Matches` — **sessions that only their reports tell apart**, and these not by a
  finding.

Main results:

* `Lox.Session.Matches.apply`, `Lox.Session.Matches.applyAll` — what matches, matches after any
  steps.
-/

import Lox.Proofs.Session.Front
import Lox.Proofs.Session.Restoration

set_option relaxedAutoImplicit false
set_option autoImplicit false

namespace Lox.Session

/-- Sessions that **only their reports tell apart**, and these not by a finding. -/
structure Matches (s t : Session) : Prop where
  machine : t.machine = s.machine
  nextId : t.nextId = s.nextId
  hadError : t.report.hadError = s.report.hadError

/-- Sessions that match, with the same result beside them. -/
def MatchesWith {α : Type} (r r' : Session × α) : Prop := Matches r.1 r'.1 ∧ r'.2 = r.2

namespace Matches

variable {s t : Session}

theorem trace (h : Matches s t) (line line' : String) :
    Matches (s.trace line) (t.trace line') where
  machine := by rw [trace_machine, trace_machine, h.machine]
  nextId := by rw [trace_nextId, trace_nextId, h.nextId]
  hadError := by rw [trace_hadError, trace_hadError, h.hadError]

theorem addFindings (h : Matches s t) (ds : List Diagnostic) :
    Matches (s.addFindings ds) (t.addFindings ds) where
  machine := h.machine
  nextId := h.nextId
  hadError := by
    unfold Session.addFindings
    rw [Report.addAll_hadError, Report.addAll_hadError, h.hadError]

theorem print (h : Matches s t) (line : String) : Matches (s.print line) (t.print line) where
  machine := by rw [Session.print, Session.print, h.machine]
  nextId := h.nextId
  hadError := h.hadError

theorem parsed (h : Matches s t) {α : Type} (parser : List Token → Token → NodeId → Parsed α)
    (source : String) : MatchesWith (s.parsed parser source) (t.parsed parser source) := by
  have hscanned := (h.addFindings (scan source.toList).findings).trace
    ("scanned " ++ (scan source.toList).allTokens.length.repr ++ " tokens")
    ("scanned " ++ (scan source.toList).allTokens.length.repr ++ " tokens")
  unfold Session.parsed Session.scanned
  dsimp only
  rw [hscanned.nextId]
  refine ⟨⟨hscanned.machine, rfl, ?_⟩, rfl⟩
  exact (hscanned.addFindings _).hadError

theorem resolve (h : Matches s t) (pass : Distances → Resolved) :
    MatchesWith (s.resolve pass) (t.resolve pass) := by
  unfold Session.resolve
  dsimp only
  rw [h.machine]
  exact ⟨⟨rfl, h.nextId, (h.addFindings _).hadError⟩, rfl⟩

theorem runStep (h : Matches s t) {α : Type} (step : Run α) :
    MatchesWith (s.runStep step) (t.runStep step) := by
  unfold Session.runStep
  rw [h.machine]
  generalize step s.machine = r
  cases r with
  | ok a m => exact ⟨⟨rfl, h.nextId, h.hadError⟩, rfl⟩
  | error i m => cases i <;> exact ⟨⟨rfl, h.nextId, h.hadError⟩, rfl⟩

theorem parsedProgram (h : Matches s t) (source : String) :
    MatchesWith (s.parsedProgram source) (t.parsedProgram source) := by
  have hparsed := h.parsed parseProgram source
  unfold Session.parsedProgram
  generalize s.parsed parseProgram source = parsed at hparsed ⊢
  generalize t.parsed parseProgram source = parsed' at hparsed ⊢
  obtain ⟨s₀, program⟩ := parsed
  obtain ⟨t₀, program'⟩ := parsed'
  obtain ⟨h₀, hprogram⟩ := hparsed
  dsimp only at h₀ hprogram ⊢
  subst hprogram
  replace h₀ := h₀.trace ("parsed " ++ program'.length.repr ++ " statements")
    ("parsed " ++ program'.length.repr ++ " statements")
  generalize s₀.trace _ = s₁ at h₀ ⊢
  generalize t₀.trace _ = t₁ at h₀ ⊢
  rw [h₀.hadError]
  split
  · exact ⟨h₀, rfl⟩
  have hresolved := h₀.resolve (resolveProgram program')
  generalize s₁.resolve (resolveProgram program') = resolved at hresolved ⊢
  generalize t₁.resolve (resolveProgram program') = resolved' at hresolved ⊢
  obtain ⟨s₂, f?⟩ := resolved
  obtain ⟨t₂, f'?⟩ := resolved'
  obtain ⟨h₂, hfault⟩ := hresolved
  dsimp only at h₂ hfault ⊢
  subst hfault
  cases f'? with
  | some f => exact ⟨h₂, rfl⟩
  | none =>
    dsimp only
    rw [h₂.hadError]
    split
    · exact ⟨h₂.trace _ _, rfl⟩
    · exact ⟨h₂, rfl⟩

theorem parsedExpression (h : Matches s t) (source : String) :
    MatchesWith (s.parsedExpression source) (t.parsedExpression source) := by
  obtain ⟨h₁, htree⟩ := h.parsed parseExpression source
  refine ⟨h₁, ?_⟩
  unfold Session.parsedExpression
  dsimp only
  rw [h₁.hadError, htree]

theorem tokenize (h : Matches s t) (source : String) :
    Matches (s.tokenize source) (t.tokenize source) := by
  have hlisted : ∀ (ts : List Token) {s t : Session}, Matches s t →
      Matches (ts.foldl (fun s t => s.print t.listing) s)
        (ts.foldl (fun s t => s.print t.listing) t) := by
    intro ts
    induction ts with
    | nil => exact fun h => h
    | cons token ts ih => exact fun h => ih (h.print token.listing)
  exact hlisted _ ((h.addFindings _).trace _ _)

theorem parse (h : Matches s t) (source : String) :
    MatchesWith (s.parse source) (t.parse source) := by
  have hparsed := h.parsedExpression source
  unfold Session.parse
  generalize s.parsedExpression source = parsed at hparsed ⊢
  generalize t.parsedExpression source = parsed' at hparsed ⊢
  obtain ⟨s₁, e?⟩ := parsed
  obtain ⟨t₁, e'?⟩ := parsed'
  obtain ⟨h₁, htree⟩ := hparsed
  dsimp only at h₁ htree ⊢
  subst htree
  cases e'? with
  | none => exact ⟨h₁, rfl⟩
  | some e =>
    dsimp only
    cases e.render with
    | ok text => exact ⟨h₁.print text, rfl⟩
    | error f => exact ⟨h₁, rfl⟩

theorem evaluate (h : Matches s t) (source : String) :
    MatchesWith (s.evaluate source) (t.evaluate source) := by
  have hparsed := h.parsedExpression source
  unfold Session.evaluate
  generalize s.parsedExpression source = parsed at hparsed ⊢
  generalize t.parsedExpression source = parsed' at hparsed ⊢
  obtain ⟨s₁, e?⟩ := parsed
  obtain ⟨t₁, e'?⟩ := parsed'
  obtain ⟨h₁, htree⟩ := hparsed
  dsimp only at h₁ htree ⊢
  subst htree
  cases e'? with
  | none => exact ⟨h₁, rfl⟩
  | some e =>
    have hresolved := h₁.resolve (resolveExpression e)
    dsimp only
    generalize s₁.resolve (resolveExpression e) = resolved at hresolved ⊢
    generalize t₁.resolve (resolveExpression e) = resolved' at hresolved ⊢
    obtain ⟨s₂, f?⟩ := resolved
    obtain ⟨t₂, f'?⟩ := resolved'
    obtain ⟨h₂, hfault⟩ := hresolved
    dsimp only at h₂ hfault ⊢
    subst hfault
    cases f'? with
    | some f => exact ⟨h₂, rfl⟩
    | none =>
      dsimp only
      rw [h₂.hadError]
      split
      · exact ⟨h₂, rfl⟩
      have hran := h₂.runStep (Machine.evaluate e)
      generalize s₂.runStep (Machine.evaluate e) = ran at hran ⊢
      generalize t₂.runStep (Machine.evaluate e) = ran' at hran ⊢
      obtain ⟨s₃, result⟩ := ran
      obtain ⟨t₃, result'⟩ := ran'
      obtain ⟨h₃, hresult⟩ := hran
      dsimp only at h₃ hresult ⊢
      subst hresult
      obtain i | text? := result'
      · exact ⟨h₃, rfl⟩
      · cases text? with
        | none => exact ⟨h₃, rfl⟩
        | some text => exact ⟨h₃.print text, rfl⟩

theorem run (h : Matches s t) (source : String) :
    MatchesWith (s.run source) (t.run source) := by
  have hparsed := h.parsedProgram source
  unfold Session.run
  generalize s.parsedProgram source = parsed at hparsed ⊢
  generalize t.parsedProgram source = parsed' at hparsed ⊢
  obtain ⟨s₁, result⟩ := parsed
  obtain ⟨t₁, result'⟩ := parsed'
  obtain ⟨h₁, htree⟩ := hparsed
  dsimp only at h₁ htree ⊢
  subst htree
  obtain i | program? := result'
  · exact ⟨h₁, rfl⟩
  cases program? with
  | none => exact ⟨h₁, rfl⟩
  | some program =>
    have hran := h₁.runStep (Machine.execute program)
    dsimp only
    generalize s₁.runStep (Machine.execute program) = ran at hran ⊢
    generalize t₁.runStep (Machine.execute program) = ran' at hran ⊢
    obtain ⟨s₂, result⟩ := ran
    obtain ⟨t₂, result'⟩ := ran'
    obtain ⟨h₂, hresult⟩ := hran
    dsimp only at h₂ hresult ⊢
    subst hresult
    cases result' <;> exact ⟨h₂, rfl⟩

/-- But for findings, nothing reported has a bearing on a step. -/
theorem apply (h : Matches s t) (step : Step) : MatchesWith (s.apply step) (t.apply step) := by
  cases step with
  | perform mode source =>
    cases mode with
    | tokenize => exact ⟨h.tokenize source, rfl⟩
    | parse => exact h.parse source
    | evaluate => exact h.evaluate source
    | run => exact h.run source
  | reset => exact ⟨⟨h.machine, h.nextId, rfl⟩, rfl⟩
  | register name f =>
    refine ⟨⟨?_, h.nextId, h.hadError⟩, rfl⟩
    change (t.register name f).machine = (s.register name f).machine
    rw [register, register, h.machine]

/-- But for findings, nothing reported has a bearing on **later steps**. -/
theorem applyAll (h : Matches s t) (steps : List Step) :
    Matches (s.applyAll steps) (t.applyAll steps) := by
  induction steps generalizing s t with
  | nil => exact h
  | cons step steps ih => exact ih (h.apply step).1

end Matches

end Lox.Session
