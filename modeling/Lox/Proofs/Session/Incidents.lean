/-
**What a session reports, and what it then does.**

A session reports findings, which scanning, parsing and the analysis of scopes make, and runtime
errors.  The *log* of a session lists them since the last reset.  It is kept here beside the session
and apart from its report: each phase is asked what it finds, and the machine what its run ends
with.  The marks, the messages and the exit code of the session are then read off the log, whatever
texts were given in whatever modes.  While there is a finding in the log, no text is printed,
evaluated or run; a runtime error keeps nothing from being done.

Main definitions:

* `Lox.Incident` — a finding or a runtime error;
* `Lox.Session.incidents` — **what a step reports**, phase by phase;
* `Lox.Session.Logged` — a session and its log;
* `Lox.Session.Outcome` — a text that is held back, and one that is done with.

Main results:

* `Lox.Session.perform_outcome` — **a text is held back with findings, or done with**;
* `Lox.Session.Logged.says` — the report of a session says what the log lists;
* `Lox.Session.state_of_log` — **the log decides the state of a session**.
-/

import Lox.Proofs.Session.Front
import Lox.Proofs.Session.Matching

set_option relaxedAutoImplicit false
set_option autoImplicit false

namespace Lox

/-! ### Incidents -/

/-- What a session reports: **a finding or a runtime error**. -/
inductive Incident where
  | finding (d : Diagnostic)
  | runtimeError (e : RuntimeError)
deriving DecidableEq

namespace Incident

/-- The message about an incident. -/
def text : Incident → String
  | finding d => d.text
  | runtimeError e => Report.runtimeText e.line? e.message

def isFinding : Incident → Bool
  | finding _ => true
  | runtimeError _ => false

def isRuntimeError : Incident → Bool
  | finding _ => false
  | runtimeError _ => true

theorem any_isFinding {log : List Incident} :
    log.any isFinding = true ↔ ∃ d, .finding d ∈ log := by
  rw [List.any_eq_true]
  constructor
  · rintro ⟨i, hi, h⟩
    cases i with
    | finding d => exact ⟨d, hi⟩
    | runtimeError e => cases h
  · rintro ⟨d, hd⟩
    exact ⟨_, hd, rfl⟩

theorem any_isRuntimeError {log : List Incident} :
    log.any isRuntimeError = true ↔ ∃ e, .runtimeError e ∈ log := by
  rw [List.any_eq_true]
  constructor
  · rintro ⟨i, hi, h⟩
    cases i with
    | finding d => cases h
    | runtimeError e => exact ⟨e, hi⟩
  · rintro ⟨e, he⟩
    exact ⟨_, he, rfl⟩

@[simp] theorem any_isFinding_map (ds : List Diagnostic) :
    (ds.map finding).any isFinding = !ds.isEmpty := by
  cases ds <;> simp [isFinding]

@[simp] theorem any_isRuntimeError_map (ds : List Diagnostic) :
    (ds.map finding).any isRuntimeError = false := by
  simp [isRuntimeError]

theorem countP_map (ds : List Diagnostic) : (ds.map finding).countP isRuntimeError = 0 := by
  rw [List.countP_eq_zero]
  intro i hi
  obtain ⟨d, -, rfl⟩ := List.mem_map.1 hi
  exact Bool.false_ne_true

/-- What a run ends with, as far as it is reported. -/
def raised {α : Type} : EStateM.Result Interrupt Machine α → List Incident
  | .error (.error e) _ => [.runtimeError e]
  | _ => []

end Incident

/-- The exit code that a log calls for: **65** after a finding, else **70** after a runtime error,
else **0**. -/
def exitCodeOf (log : List Incident) : Nat :=
  if log.any Incident.isFinding then 65 else if log.any Incident.isRuntimeError then 70 else 0

namespace Session

/-! ### What a step reports -/

/-- What scanning a text and parsing its tokens find. -/
def readFindings {α : Type} (s : Session) (parser : List Token → Token → NodeId → Parsed α)
    (source : String) : List Diagnostic :=
  let scan := scan source.toList
  scan.findings ++ (parser scan.tokens scan.endMark s.nextId).findings

/-- The tree that a parser gives for a text. -/
def readTree {α : Type} (s : Session) (parser : List Token → Token → NodeId → Parsed α)
    (source : String) : α :=
  let scan := scan source.toList
  (parser scan.tokens scan.endMark s.nextId).tree

/-- What is reported of a tree that was read without findings: what the analysis of its scopes
finds or, if that is nothing, the error that its run ends with. -/
def treeIncidents {α : Type} (s : Session) (pass : Distances → Resolved) (step : Run α) :
    List Incident :=
  let resolved := pass s.machine.distances
  resolved.findings.map .finding ++
    if resolved.findings.isEmpty && resolved.fault.isNone then
      Incident.raised (step { s.machine with distances := resolved.distances })
    else []

/-- **What a step reports**; `blocked` says whether a finding is left from before. -/
def incidents (s : Session) (blocked : Bool) : Step → List Incident
  | .perform .tokenize source => (scan source.toList).findings.map .finding
  | .perform .parse source => (s.readFindings parseExpression source).map .finding
  | .perform .evaluate source =>
    let found := s.readFindings parseExpression source
    found.map .finding ++
      if blocked || !found.isEmpty then []
      else (s.readTree parseExpression source).elim [] fun e =>
        s.treeIncidents (resolveExpression e) (Machine.evaluate e)
  | .perform .run source =>
    let found := s.readFindings parseProgram source
    let program := s.readTree parseProgram source
    found.map .finding ++
      if blocked || !found.isEmpty then []
      else s.treeIncidents (resolveProgram program) (Machine.execute program)
  | .reset => []
  | .register _ _ => []

/-- The log after a step: a reset clears it, and any other step adds what it reports. -/
def logAfter (s : Session) (log : List Incident) : Step → List Incident
  | .reset => []
  | step => log ++ s.incidents (log.any Incident.isFinding) step

/-- A session and **its log**, that is all it has reported since the last reset. -/
inductive Logged : List Incident → Session → Prop
  | initial (time : Number) (traced : Bool) : Logged [] (.initial time traced)
  | step {log : List Incident} {s : Session} (h : Logged log s) (step : Step) :
      Logged (s.logAfter log step) (s.apply step).1
  | flush {log : List Incident} {s : Session} (h : Logged log s) : Logged log s.flush
  | tick {log : List Incident} {s : Session} (h : Logged log s) (time : Number) :
      Logged log { s with machine := { s.machine with time := time } }

end Session

/-! ### Reports that gain incidents -/

/-- A report gains the given incidents. -/
structure Report.Notes (r r' : Report) (log : List Incident) : Prop where
  messages : r'.messages.toList = r.messages.toList ++ log.map Incident.text
  hadError : r'.hadError = (r.hadError || log.any Incident.isFinding)
  hadRuntimeError : r'.hadRuntimeError = (r.hadRuntimeError || log.any Incident.isRuntimeError)

namespace Report.Notes

variable {r r' r'' : Report} {log log' : List Incident}

theorem refl (r : Report) : r.Notes r [] := ⟨by simp, by simp, by simp⟩

theorem trans (h : r.Notes r' log) (h' : r'.Notes r'' log') : r.Notes r'' (log ++ log') where
  messages := by rw [h'.messages, h.messages, List.map_append, List.append_assoc]
  hadError := by rw [h'.hadError, h.hadError, List.any_append, Bool.or_assoc]
  hadRuntimeError := by
    rw [h'.hadRuntimeError, h.hadRuntimeError, List.any_append, Bool.or_assoc]

theorem of_gains {ds : List Diagnostic} (h : r.Gains r' ds) : r.Notes r' (ds.map .finding) where
  messages := by rw [h.messages, List.map_map]; rfl
  hadError := by rw [h.hadError, Incident.any_isFinding_map]
  hadRuntimeError := by rw [h.hadRuntimeError, Incident.any_isRuntimeError_map, Bool.or_false]

/-- A trace is no message. -/
theorem trace {s : Session} (h : r.Notes s.report log) (line : String) :
    r.Notes (s.trace line).report log := by
  unfold Session.trace
  split
  · exact ⟨h.messages, h.hadError, h.hadRuntimeError⟩
  · exact h

/-- No findings were gained if there are none in the end. -/
theorem findings_eq_nil {ds : List Diagnostic} (h : r.Notes r' (ds.map .finding))
    (hclear : r'.hadError = false) : ds = [] := by
  have hnone := h.hadError
  rw [hclear, Incident.any_isFinding_map] at hnone
  cases ds with
  | nil => rfl
  | cons d ds => simp at hnone

theorem runtimeError (r : Report) (e : RuntimeError) :
    r.Notes (r.runtimeError e) [.runtimeError e] where
  messages := Array.toList_push
  hadError := (Bool.or_false r.hadError).symm
  hadRuntimeError := (Bool.or_true r.hadRuntimeError).symm

end Report.Notes

namespace Session

/-! ### Texts that are held back, and texts that are done with -/

/-- **How a text ends** in a session: it is *held back*, and then it has left nothing but findings
and distances; or it is *done with*, and then there is no finding in the report, and at most one
runtime error was added to it. -/
inductive Outcome (s s' : Session) (log : List Incident) : Prop
  | heldBack (ds : List Diagnostic) (hlog : log = ds.map .finding)
      (notes : s.report.Notes s'.report log)
      (machine : ∃ D, s'.machine = { s.machine with distances := D })
  | done (hlog : log = [] ∨ ∃ e, log = [.runtimeError e])
      (notes : s.report.Notes s'.report log) (clear : s'.report.hadError = false)

namespace Outcome

variable {s s₁ s' : Session} {log : List Incident}

theorem notes (h : Outcome s s' log) : s.report.Notes s'.report log := by
  cases h with
  | heldBack _ _ notes _ => exact notes
  | done _ notes _ => exact notes

/-- Printing a line is no concern of the report. -/
theorem print (h : Outcome s s' log) (hclear : s'.report.hadError = false) (line : String) :
    Outcome s (s'.print line) log := by
  cases h with
  | heldBack ds hlog notes _ =>
    -- There is no finding after all, so the text counts as done with.
    have hnil := (hlog ▸ notes).findings_eq_nil hclear
    exact .done (.inl (by rw [hlog, hnil]; rfl)) notes hclear
  | done hlog notes _ => exact .done hlog notes hclear

theorem trace (h : Outcome s s' log) (line : String) : Outcome s (s'.trace line) log := by
  cases h with
  | heldBack ds hlog notes machine =>
    exact .heldBack ds hlog (notes.trace line) (by rw [trace_machine]; exact machine)
  | done hlog notes clear =>
    refine .done hlog (notes.trace line) ?_
    unfold Session.trace
    split <;> exact clear

/-- Phases that find nothing may come before. -/
theorem after (hnotes : s.report.Notes s₁.report [])
    (hmachine : ∃ D, s₁.machine = { s.machine with distances := D }) (h : Outcome s₁ s' log) :
    Outcome s s' log := by
  cases h with
  | heldBack ds hlog notes machine =>
    obtain ⟨D, hD⟩ := hmachine
    obtain ⟨D', hD'⟩ := machine
    exact .heldBack ds hlog (hnotes.trans notes) ⟨D', by rw [hD', hD]⟩
  | done hlog notes clear => exact .done hlog (hnotes.trans notes) clear

/-- While there is a finding, nothing but findings is reported, and nothing is done. -/
theorem of_hadError (h : Outcome s s' log) (herror : s'.report.hadError = true) :
    (∃ D, s'.machine = { s.machine with distances := D }) ∧
      log.any Incident.isRuntimeError = false := by
  cases h with
  | heldBack ds hlog _ machine => exact ⟨machine, by rw [hlog, Incident.any_isRuntimeError_map]⟩
  | done _ _ clear => rw [clear] at herror; cases herror

/-- At most one runtime error is reported. -/
theorem countP_le_one (h : Outcome s s' log) : log.countP Incident.isRuntimeError ≤ 1 := by
  cases h with
  | heldBack ds hlog _ _ =>
    rw [hlog, Incident.countP_map]
    exact Nat.zero_le 1
  | done hlog _ _ =>
    rcases hlog with hlog | ⟨e, hlog⟩ <;> rw [hlog] <;> simp [Incident.isRuntimeError]

end Outcome

section

variable (s : Session)

/-- A run reports the error that it ends with. -/
theorem runStep_outcome {α : Type} (hclear : s.report.hadError = false) (step : Run α) :
    Outcome s (s.runStep step).1 (Incident.raised (step s.machine)) ∧
      (s.runStep step).1.report.hadError = false := by
  unfold runStep
  generalize step s.machine = r
  cases r with
  | ok a m => exact ⟨.done (.inl rfl) (.refl s.report) hclear, hclear⟩
  | error i m =>
    cases i with
    | error e => exact ⟨.done (.inr ⟨e, rfl⟩) (.runtimeError s.report e) hclear, hclear⟩
    | returned v => exact ⟨.done (.inl rfl) (.refl s.report) hclear, hclear⟩
    | fault f => exact ⟨.done (.inl rfl) (.refl s.report) hclear, hclear⟩
    | outOfFuel => exact ⟨.done (.inl rfl) (.refl s.report) hclear, hclear⟩

/-- The analysis of a tree adds its findings and notes distances. -/
theorem resolve_notes (pass : Distances → Resolved) :
    s.report.Notes (s.resolve pass).1.report
        ((pass s.machine.distances).findings.map .finding) ∧
      (s.resolve pass).1.machine =
        { s.machine with distances := (pass s.machine.distances).distances } ∧
      (s.resolve pass).2 = (pass s.machine.distances).fault :=
  ⟨.of_gains (.addAll s.report _), rfl, rfl⟩

/-- A tree is held back by a finding about its scopes or by a fault. -/
theorem resolve_outcome {α : Type} (hclear : s.report.hadError = false)
    (pass : Distances → Resolved) (step : Run α)
    (hheld : (s.resolve pass).2 ≠ none ∨ (s.resolve pass).1.report.hadError = true) :
    Outcome s (s.resolve pass).1 (s.treeIncidents pass step) := by
  obtain ⟨hnotes, hmachine, hfault⟩ := s.resolve_notes pass
  have herror := hnotes.hadError
  rw [hclear, Bool.false_or, Incident.any_isFinding_map] at herror
  rw [hfault, herror] at hheld
  have hlog : s.treeIncidents pass step = (pass s.machine.distances).findings.map .finding := by
    unfold treeIncidents
    dsimp only
    rw [if_neg, List.append_nil]
    intro hclean
    rw [Bool.and_eq_true, Option.isNone_iff_eq_none] at hclean
    rcases hheld with h | h
    · exact h hclean.2
    · rw [hclean.1] at h
      cases h
  rw [hlog]
  exact .heldBack _ rfl hnotes ⟨_, hmachine⟩

/-- Any other tree is done with. -/
theorem resolve_runStep_outcome {α : Type} (pass : Distances → Resolved) (step : Run α)
    (hfault : (s.resolve pass).2 = none)
    (herror : (s.resolve pass).1.report.hadError = false) :
    Outcome s ((s.resolve pass).1.runStep step).1 (s.treeIncidents pass step) ∧
      ((s.resolve pass).1.runStep step).1.report.hadError = false := by
  obtain ⟨hnotes, hmachine, hfault'⟩ := s.resolve_notes pass
  have hfindings := hnotes.findings_eq_nil herror
  have hlog : s.treeIncidents pass step =
      Incident.raised (step (s.resolve pass).1.machine) := by
    unfold treeIncidents
    dsimp only
    rw [hfindings, ← hfault', hfault, hmachine]
    rfl
  obtain ⟨hrun, hclear'⟩ := (s.resolve pass).1.runStep_outcome herror step
  rw [hfindings] at hnotes
  rw [hlog]
  exact ⟨hrun.after hnotes ⟨_, hmachine⟩, hclear'⟩

/-- What reading a text makes of a session. -/
theorem parsed_outcome {α : Type} {parser : List Token → Token → NodeId → Parsed α}
    (source : String) (hparser : ∀ tokens endMark id, id ≤ (parser tokens endMark id).nextId) :
    (s.parsed parser source).2 = s.readTree parser source ∧
      (s.parsed parser source).1.machine = s.machine ∧
      s.report.Notes (s.parsed parser source).1.report
        ((s.readFindings parser source).map .finding) := by
  obtain ⟨htree, -, hmachine, hadv⟩ := parsed_advances s source hparser
  exact ⟨htree, hmachine, .of_gains hadv.gains⟩

/-- What reading a text leaves is held back by a finding, be it the text's own or an earlier one. -/
theorem read_outcome {ds : List Diagnostic} {s₁ : Session} {log : List Incident}
    (hnotes : s.report.Notes s₁.report (ds.map .finding)) (hmachine : s₁.machine = s.machine)
    (herror : s₁.report.hadError = true) :
    Outcome s s₁ (ds.map .finding ++ if s.report.hadError || !ds.isEmpty then [] else log) := by
  have hblocked := hnotes.hadError
  rw [herror, Incident.any_isFinding_map] at hblocked
  rw [if_pos hblocked.symm, List.append_nil]
  exact .heldBack ds rfl hnotes ⟨s.machine.distances, hmachine⟩

/-- A tree that was read without findings is held back by its analysis, or done with. -/
theorem tree_outcome {ds : List Diagnostic} {s₁ : Session}
    (hnotes : s.report.Notes s₁.report (ds.map .finding)) (hmachine : s₁.machine = s.machine)
    (hclear : s₁.report.hadError = false) {α : Type} (pass : Distances → Resolved)
    (step : Run α) {log : List Incident}
    (hlog : log = ds.map .finding ++
      if s.report.hadError || !ds.isEmpty then [] else s.treeIncidents pass step) :
    ((s₁.resolve pass).2 ≠ none ∨ (s₁.resolve pass).1.report.hadError = true →
        Outcome s (s₁.resolve pass).1 log) ∧
      ((s₁.resolve pass).2 = none → (s₁.resolve pass).1.report.hadError = false →
        Outcome s ((s₁.resolve pass).1.runStep step).1 log ∧
          ((s₁.resolve pass).1.runStep step).1.report.hadError = false) := by
  have hbefore := hnotes.hadError
  obtain rfl := hnotes.findings_eq_nil hclear
  have hsame : s₁.treeIncidents pass step = s.treeIncidents pass step := by
    rw [treeIncidents, treeIncidents, hmachine]
  rw [hclear, Incident.any_isFinding_map, List.isEmpty_nil, Bool.not_true, Bool.or_false]
    at hbefore
  rw [← hbefore, List.isEmpty_nil, Bool.not_true, Bool.or_false, if_neg Bool.false_ne_true,
    List.map_nil, List.nil_append, ← hsame] at hlog
  rw [hlog]
  have hfirst : ∃ D, s₁.machine = { s.machine with distances := D } :=
    ⟨s.machine.distances, hmachine⟩
  refine ⟨fun hheld => ?_, fun hfault herror => ?_⟩
  · exact (s₁.resolve_outcome hclear pass step hheld).after hnotes hfirst
  · obtain ⟨hdone, hclear'⟩ := s₁.resolve_runStep_outcome pass step hfault herror
    exact ⟨hdone.after hnotes hfirst, hclear'⟩

theorem parse_outcome (source : String) :
    Outcome s (s.parse source).1
      (s.incidents s.report.hadError (.perform .parse source)) := by
  obtain ⟨-, hmachine, hnotes⟩ := s.parsed_outcome source
    (fun tokens endMark id => (parseExpression_sound tokens endMark id).1)
  have hheld : Outcome s (s.parsed parseExpression source).1
      ((s.readFindings parseExpression source).map .finding) :=
    .heldBack _ rfl hnotes ⟨s.machine.distances, hmachine⟩
  unfold parse parsedExpression incidents
  generalize s.parsed parseExpression source = parsed at hheld ⊢
  obtain ⟨s₁, e?⟩ := parsed
  dsimp only at hheld ⊢
  cases herror : s₁.report.hadError with
  | true => exact hheld
  | false =>
    cases e? with
    | none => exact hheld
    | some e =>
      rw [if_neg Bool.false_ne_true]
      dsimp only
      cases e.render with
      | ok text => exact hheld.print herror text
      | error f => exact hheld

theorem evaluate_outcome (source : String) :
    Outcome s (s.evaluate source).1
      (s.incidents s.report.hadError (.perform .evaluate source)) := by
  obtain ⟨htree, hmachine, hnotes⟩ := s.parsed_outcome source
    (fun tokens endMark id => (parseExpression_sound tokens endMark id).1)
  unfold evaluate parsedExpression incidents
  dsimp only
  rw [← htree]
  generalize s.readFindings parseExpression source = ds at hnotes ⊢
  generalize s.parsed parseExpression source = parsed at hmachine hnotes ⊢
  obtain ⟨s₁, e?⟩ := parsed
  dsimp only at hmachine hnotes ⊢
  cases herror : s₁.report.hadError with
  | true => exact s.read_outcome hnotes hmachine herror
  | false =>
    rw [if_neg Bool.false_ne_true]
    cases e? with
    | none =>
      obtain rfl := hnotes.findings_eq_nil herror
      simp only [Option.elim, ite_self, List.append_nil]
      exact .heldBack [] rfl hnotes ⟨s.machine.distances, hmachine⟩
    | some e =>
      obtain ⟨hheld, hdone⟩ := s.tree_outcome hnotes hmachine herror (resolveExpression e)
        (Machine.evaluate e) rfl
      dsimp only [Option.elim]
      generalize ds.map Incident.finding ++ _ = log at hheld hdone ⊢
      generalize s₁.resolve (resolveExpression e) = resolved at hheld hdone ⊢
      obtain ⟨s₂, f?⟩ := resolved
      cases f? with
      | some f => exact hheld (.inl (Option.some_ne_none f))
      | none =>
        dsimp only at hheld hdone ⊢
        cases herror₂ : s₂.report.hadError with
        | true => exact hheld (.inr herror₂)
        | false =>
          obtain ⟨hrun, hclear₃⟩ := hdone rfl herror₂
          rw [if_neg Bool.false_ne_true]
          generalize s₂.runStep (Machine.evaluate e) = ran at hrun hclear₃ ⊢
          obtain ⟨s₃, i | text?⟩ := ran
          · exact hrun
          · cases text? with
            | none => exact hrun
            | some text => exact hrun.print hclear₃ text

theorem run_outcome (source : String) :
    Outcome s (s.run source).1 (s.incidents s.report.hadError (.perform .run source)) := by
  obtain ⟨htree, hmachine, hnotes⟩ := s.parsed_outcome source
    (fun tokens endMark id => (parseProgram_sound tokens endMark id).1)
  unfold run parsedProgram incidents
  dsimp only
  rw [← htree]
  generalize s.readFindings parseProgram source = ds at hnotes ⊢
  generalize s.parsed parseProgram source = parsed at hmachine hnotes ⊢
  obtain ⟨s₀, program⟩ := parsed
  dsimp only at hmachine hnotes ⊢
  -- The trace of the phase is of no consequence.
  replace hnotes := hnotes.trace ("parsed " ++ program.length.repr ++ " statements")
  rw [← trace_machine s₀ ("parsed " ++ program.length.repr ++ " statements")] at hmachine
  generalize s₀.trace ("parsed " ++ program.length.repr ++ " statements") = s₁
    at hmachine hnotes ⊢
  cases herror : s₁.report.hadError with
  | true => exact s.read_outcome hnotes hmachine herror
  | false =>
    rw [if_neg Bool.false_ne_true]
    obtain ⟨hheld, hdone⟩ := s.tree_outcome hnotes hmachine herror (resolveProgram program)
      (Machine.execute program) rfl
    generalize ds.map Incident.finding ++ _ = log at hheld hdone ⊢
    generalize s₁.resolve (resolveProgram program) = resolved at hheld hdone ⊢
    obtain ⟨s₂, f?⟩ := resolved
    cases f? with
    | some f => exact hheld (.inl (Option.some_ne_none f))
    | none =>
      dsimp only at hheld hdone ⊢
      cases herror₂ : s₂.report.hadError with
      | true => exact (hheld (.inr herror₂)).trace _
      | false =>
        obtain ⟨hrun, -⟩ := hdone rfl herror₂
        rw [if_neg Bool.false_ne_true]
        dsimp only
        generalize s₂.runStep (Machine.execute program) = ran at hrun ⊢
        obtain ⟨s₃, i | _⟩ := ran <;> exact hrun

/-- **A text is held back with findings, or done with.** -/
theorem perform_outcome {mode : Mode} (hmode : mode ≠ .tokenize) (source : String) :
    Outcome s (s.perform mode source).1
      (s.incidents s.report.hadError (.perform mode source)) := by
  cases mode with
  | tokenize => exact absurd rfl hmode
  | parse => exact s.parse_outcome source
  | evaluate => exact s.evaluate_outcome source
  | run => exact s.run_outcome source

/-- Listing tokens prints lines, and nothing is reported but what scanning finds. -/
theorem tokenize_notes (source : String) :
    s.report.Notes (s.tokenize source).report ((scan source.toList).findings.map .finding) := by
  have hscan := Report.Notes.of_gains (scanned_advances s source).gains
  have hlisted : ∀ (ts : List Token) (s : Session),
      (ts.foldl (fun s t => s.print t.listing) s).report = s.report := by
    intro ts
    induction ts with
    | nil => exact fun _ => rfl
    | cons t ts ih => exact fun s => ih (s.print t.listing)
  unfold tokenize
  dsimp only
  rw [hlisted]
  exact hscan

/-- The report gains what a step reports. -/
theorem apply_notes {step : Step} (hstep : step ≠ .reset) :
    s.report.Notes (s.apply step).1.report (s.incidents s.report.hadError step) := by
  cases step with
  | perform mode source =>
    cases mode with
    | tokenize => exact s.tokenize_notes source
    | parse => exact (s.parse_outcome source).notes
    | evaluate => exact (s.evaluate_outcome source).notes
    | run => exact (s.run_outcome source).notes
  | reset => exact absurd rfl hstep
  | register name f => exact .refl s.report

/-- At most one runtime error is reported of a step. -/
theorem countP_incidents_le_one (step : Step) :
    (s.incidents s.report.hadError step).countP Incident.isRuntimeError ≤ 1 := by
  cases step with
  | perform mode source =>
    cases mode with
    | tokenize => rw [incidents, Incident.countP_map]; exact Nat.zero_le 1
    | parse => exact (s.parse_outcome source).countP_le_one
    | evaluate => exact (s.evaluate_outcome source).countP_le_one
    | run => exact (s.run_outcome source).countP_le_one
  | reset => exact Nat.zero_le 1
  | register name f => exact Nat.zero_le 1

end

/-! ### The report says what the log lists -/

/-- The report of a session **says what its log lists**. -/
structure Says (s : Session) (log : List Incident) : Prop where
  messages : s.report.messages.toList = log.map Incident.text
  hadError : s.report.hadError = log.any Incident.isFinding
  hadRuntimeError : s.report.hadRuntimeError = log.any Incident.isRuntimeError

theorem Says.apply {s : Session} {log : List Incident} (h : s.Says log) (step : Step) :
    (s.apply step).1.Says (s.logAfter log step) := by
  by_cases hstep : step = .reset
  · subst hstep
    exact ⟨rfl, rfl, rfl⟩
  · have hnotes := s.apply_notes hstep
    have hafter : s.logAfter log step = log ++ s.incidents s.report.hadError step := by
      rw [h.hadError]
      cases step with
      | perform mode source => rfl
      | reset => exact absurd rfl hstep
      | register name f => rfl
    rw [hafter]
    exact
      { messages := by rw [hnotes.messages, h.messages, List.map_append]
        hadError := by rw [hnotes.hadError, h.hadError, List.any_append]
        hadRuntimeError := by rw [hnotes.hadRuntimeError, h.hadRuntimeError, List.any_append] }

theorem Logged.says {log : List Incident} {s : Session} (h : Logged log s) : s.Says log := by
  induction h with
  | initial time traced => exact ⟨rfl, rfl, rfl⟩
  | step _ step ih => exact ih.apply step
  | flush _ ih => exact ⟨ih.messages, ih.hadError, ih.hadRuntimeError⟩
  | tick _ time ih => exact ⟨ih.messages, ih.hadError, ih.hadRuntimeError⟩

/-- Sessions that match report the same of every step. -/
theorem Matches.incidents_eq {s t : Session} (h : Matches s t) (blocked : Bool) (step : Step) :
    t.incidents blocked step = s.incidents blocked step := by
  unfold incidents readFindings readTree treeIncidents
  rw [h.machine, h.nextId]

/-! ### The state of a session -/

/-- **The log decides the state of a session.**  After any steps, the marks of the report say
whether a finding and whether a runtime error is in the log, the messages are those about the log in
its order, and the exit code is 65, 70 or 0 accordingly.  A text that is printed, evaluated or run
and ends with a finding in the report, its own or an earlier one, has printed nothing, reported no
runtime error and changed nothing but distances; any text leads to at most one runtime error; and
the same steps do the same, whatever the report says of runtime errors. -/
theorem state_of_log {log : List Incident} {s : Session} (h : Logged log s) :
    ((s.report.hadError = true ↔ ∃ d, .finding d ∈ log) ∧
      (s.report.hadRuntimeError = true ↔ ∃ e, .runtimeError e ∈ log) ∧
      s.report.messages.toList = log.map Incident.text ∧
      s.exitCode = exitCodeOf log) ∧
    (∀ mode source, mode ≠ .tokenize → (s.perform mode source).1.report.hadError = true →
      (s.perform mode source).1.stdout = s.stdout ∧
      (∃ D, (s.perform mode source).1.machine = { s.machine with distances := D }) ∧
      ∀ e, .runtimeError e ∉
        s.incidents (log.any Incident.isFinding) (.perform mode source)) ∧
    (∀ step, (s.incidents (log.any Incident.isFinding) step).countP
      Incident.isRuntimeError ≤ 1) ∧
    ∀ (r : Report) steps, r.hadError = s.report.hadError →
      let s₁ := s.applyAll steps
      let t₁ := { s with report := r }.applyAll steps
      t₁.machine = s₁.machine ∧
        ∀ step, (t₁.apply step).2 = (s₁.apply step).2 ∧
          ∀ blocked, t₁.incidents blocked step = s₁.incidents blocked step := by
  have hreport := h.says
  refine ⟨⟨?_, ?_, hreport.messages, ?_⟩, ?_, ?_, ?_⟩
  · rw [hreport.hadError]
    exact Incident.any_isFinding
  · rw [hreport.hadRuntimeError]
    exact Incident.any_isRuntimeError
  · rw [exitCode, Report.exitCode, exitCodeOf, hreport.hadError, hreport.hadRuntimeError]
  · intro mode source hmode herror
    have houtcome := s.perform_outcome hmode source
    rw [hreport.hadError] at houtcome
    obtain ⟨⟨D, hD⟩, hnone⟩ := houtcome.of_hadError herror
    refine ⟨by rw [stdout, stdout, hD], ⟨D, hD⟩, fun e he => ?_⟩
    rw [Incident.any_isRuntimeError.2 ⟨e, he⟩] at hnone
    cases hnone
  · intro step
    rw [← hreport.hadError]
    exact s.countP_incidents_le_one step
  · intro r steps hr
    have hmatches := Matches.applyAll (s := s) (t := { s with report := r }) ⟨rfl, rfl, hr⟩ steps
    exact ⟨hmatches.machine, fun step =>
      ⟨(hmatches.apply step).2, fun blocked => hmatches.incidents_eq blocked step⟩⟩

/-- A runtime error, and then a finding of the analysis of scopes that is not reset: a text that has
no mistake of its own is held back. -/
theorem state_of_log_unreset :
    let first : Step := .perform .run "print \"one\"; nil();"
    let second : Step := .perform .run "return;"
    let s₀ := Session.initial default false
    let s₁ := (s₀.apply first).1
    let s₂ := (s₁.apply second).1
    let log := s₁.logAfter (s₀.logAfter [] first) second
    Logged log s₂ ∧ s₂.exitCode = exitCodeOf log ∧ exitCodeOf log = 65 ∧
      log.map Incident.isRuntimeError = [true, false] ∧
      (s₂.perform .run "print 2;").1.report.hadError = true ∧
      (s₂.perform .run "print 2;").1.stdout = s₂.stdout ∧ s₂.stdout = "one\n" := by
  intro first second s₀ s₁ s₂ log
  have hlog : Logged log s₂ := ((Logged.initial default false).step first).step second
  have hstate := state_of_log hlog
  have herror : (s₂.perform .run "print 2;").1.report.hadError = true := by decide +kernel
  exact ⟨hlog, hstate.1.2.2.2, by decide +kernel, by decide +kernel, herror,
    (hstate.2.1 .run "print 2;" nofun herror).1, by decide +kernel⟩

end Session

end Lox
