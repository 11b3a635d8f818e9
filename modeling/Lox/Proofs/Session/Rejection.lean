/-
**Rejected lines leave no trace.**

A line that is given at the prompt is rejected if scanning, parsing or the analysis of its scopes
finds something in it.  Before that was found, the line may have used up numbers for references and
noted distances.  None of this is ever seen again: when rejected lines are taken out of a
conversation, the other lines get the same answers and leave the same globals.  And whether a line
is rejected can be told from the line alone.

Two sessions are compared that have taken the same course but for rejected lines.  They correspond
to states over names and cells that differ in the numbers of references only, and these make no
difference to a run.

Main definitions:

* `Lox.Rejected` — **a line that is rejected** by itself;
* `Lox.Session.Level` — sessions that have reported the same;
* `Lox.Session.Aligned` — **sessions that differ in the numbers of references only**.

Main results:

* `Lox.parseProgram_same`, `Lox.findingsAt_unnumbered` — numbers have no bearing on findings;
* `Lox.Session.Aligned.run` — aligned sessions answer a line alike, and are aligned behind it;
* `Lox.Session.rejected_iff` — a line is rejected by any session or by none;
* `Lox.Session.rejected_without_trace` — **rejected lines leave no trace**.
-/

import Lox.CommandLine.Basic
import Lox.Proofs.Grammar.Echo
import Lox.Proofs.Grammar.Totality
import Lox.Proofs.Session.Incidents
import Lox.Proofs.Session.Pieces
import Lox.Proofs.Session.Safety
import Mathlib.Data.List.Basic

set_option relaxedAutoImplicit false
set_option autoImplicit false

namespace Lox

/-! ### Numbers have no bearing on findings -/

/-- Whatever numbers a parser starts from, it finds the same and gives the same tree but for the
numbers. -/
theorem parseProgram_same (tokens : List Token) (endMark : Token) (hmark : endMark.kind = .eof)
    (id id' : NodeId) :
    (parseProgram tokens endMark id').findings = (parseProgram tokens endMark id).findings ∧
      unnumberedBody (parseProgram tokens endMark id').tree =
        unnumberedBody (parseProgram tokens endMark id).tree := by
  obtain ⟨c, hok, -, hfindings⟩ := parseProgram_run tokens endMark id
  obtain ⟨c', hok', -, hfindings'⟩ := parseProgram_run tokens endMark id'
  obtain ⟨ss, d, new, hsame, htree, hc, hd⟩ := declarations_same (Nat.le_refl _)
    (c := ⟨tokens, endMark, [], id⟩) (d := ⟨tokens, endMark, [], id'⟩) hmark rfl rfl hok
  rw [hok'] at hsame
  obtain ⟨rfl, rfl⟩ : _ = ss ∧ c' = d := by
    simpa only [EStateM.Result.ok.injEq] using hsame
  refine ⟨?_, htree⟩
  rw [← hfindings, ← hfindings', hc, hd]

theorem Site.finding?_unnumbered (s : Site) : (s.relabel .unnumbering).finding? = s.finding? := by
  have htoken : (s.relabel .unnumbering).mention.token = s.mention.token := by
    obtain ⟨path, initializing, mention⟩ := s
    cases mention <;> rfl
  rw [finding?, finding?, violation?_relabel, htoken]

/-- Trees that differ in the numbers only have the same findings. -/
theorem findingsAt_unnumbered {program program' : List Stmt}
    (h : unnumberedBody program' = unnumberedBody program) :
    findingsAt (bodySites [] program') = findingsAt (bodySites [] program) := by
  have hplain : ∀ program : List Stmt,
      findingsAt (bodySites [] (unnumberedBody program)) = findingsAt (bodySites [] program) := by
    intro program
    rw [unnumberedBody_eq_relabelBody, bodySites_relabel, findingsAt, List.filterMap_map]
    exact List.filterMap_congr fun s _ => s.finding?_unnumbered
  rw [← hplain program', h, hplain program]

theorem length_unnumberedBody (program : List Stmt) :
    (unnumberedBody program).length = program.length := by
  rw [unnumberedBody_eq_relabelBody, relabelBody_eq_map, List.length_map]

namespace Session

/-! ### Sessions that have reported the same -/

/-- Sessions that **have reported the same**, and leave traces alike. -/
structure Level (s t : Session) : Prop where
  report : t.report = s.report
  traced : t.traced = s.traced

namespace Level

variable {s t : Session}

theorem trace (h : Level s t) (line : String) : Level (s.trace line) (t.trace line) := by
  unfold Session.trace
  rw [h.traced]
  split
  · exact ⟨by rw [h.report], rfl⟩
  · exact h

theorem addFindings (h : Level s t) (ds : List Diagnostic) :
    Level (s.addFindings ds) (t.addFindings ds) :=
  ⟨by rw [Session.addFindings, Session.addFindings, h.report], h.traced⟩

/-- A program is read alike. -/
theorem parsed (h : Level s t) (source : String) :
    Level (s.parsed parseProgram source).1 (t.parsed parseProgram source).1 ∧
      unnumberedBody (t.parsed parseProgram source).2 =
        unnumberedBody (s.parsed parseProgram source).2 ∧
      bodyWhole (s.parsed parseProgram source).2 ∧
      bodyWhole (t.parsed parseProgram source).2 := by
  have hscanned : Level (s.scanned source).1 (t.scanned source).1 := (h.addFindings _).trace _
  have hsame := parseProgram_same (scan source.toList).tokens (scan source.toList).endMark rfl
    (s.scanned source).1.nextId (t.scanned source).1.nextId
  refine ⟨⟨?_, hscanned.traced⟩, hsame.2, parseProgram_whole .., parseProgram_whole ..⟩
  have hfound := (hscanned.addFindings (parseProgram (scan source.toList).tokens
    (scan source.toList).endMark (s.scanned source).1.nextId).findings).report
  have hfindings := hsame.1
  unfold Session.parsed
  dsimp only [Session.scanned] at hfound hfindings ⊢
  rw [hfindings]
  exact hfound

/-- A program is analysed alike, and no fault comes of it. -/
theorem resolve (h : Level s t) {program program' : List Stmt}
    (hsame : unnumberedBody program' = unnumberedBody program) (hwhole : bodyWhole program)
    (hwhole' : bodyWhole program') :
    Level (s.resolve (resolveProgram program)).1 (t.resolve (resolveProgram program')).1 ∧
      (s.resolve (resolveProgram program)).2 = none ∧
      (t.resolve (resolveProgram program')).2 = none := by
  obtain ⟨hfault, hfindings⟩ := resolveProgram_findings hwhole s.machine.distances
  obtain ⟨hfault', hfindings'⟩ := resolveProgram_findings hwhole' t.machine.distances
  refine ⟨⟨?_, h.traced⟩, hfault, hfault'⟩
  rw [findingsAt_unnumbered hsame, ← hfindings] at hfindings'
  unfold Session.resolve
  dsimp only
  rw [hfindings']
  exact (h.addFindings _).report

/-- A text is refused on both sides, or gives the same program but for its numbers. -/
theorem parsedProgram (h : Level s t) (source : String) :
    Level (s.parsedProgram source).1 (t.parsedProgram source).1 ∧
      ((s.parsedProgram source).2 = .ok none ∧ (t.parsedProgram source).2 = .ok none ∨
        ∃ program program', (s.parsedProgram source).2 = .ok (some program) ∧
          (t.parsedProgram source).2 = .ok (some program') ∧
          unnumberedBody program' = unnumberedBody program) := by
  obtain ⟨hlevel, hsame, hwhole, hwhole'⟩ := h.parsed source
  unfold Session.parsedProgram
  generalize s.parsed parseProgram source = parsed at hlevel hsame hwhole ⊢
  generalize t.parsed parseProgram source = parsed' at hlevel hsame hwhole' ⊢
  obtain ⟨s₀, program⟩ := parsed
  obtain ⟨t₀, program'⟩ := parsed'
  dsimp only at hlevel hsame hwhole hwhole' ⊢
  have hlength : program'.length = program.length := by
    rw [← length_unnumberedBody, hsame, length_unnumberedBody]
  rw [hlength]
  replace hlevel := hlevel.trace ("parsed " ++ program.length.repr ++ " statements")
  generalize s₀.trace _ = s₁ at hlevel ⊢
  generalize t₀.trace _ = t₁ at hlevel ⊢
  rw [hlevel.report]
  split
  · exact ⟨hlevel, .inl ⟨rfl, rfl⟩⟩
  obtain ⟨hlevel₂, hfault, hfault'⟩ := hlevel.resolve hsame hwhole hwhole'
  generalize s₁.resolve (resolveProgram program) = resolved at hlevel₂ hfault ⊢
  generalize t₁.resolve (resolveProgram program') = resolved' at hlevel₂ hfault' ⊢
  obtain ⟨s₂, f?⟩ := resolved
  obtain ⟨t₂, f'?⟩ := resolved'
  dsimp only at hlevel₂ hfault hfault' ⊢
  subst hfault hfault'
  dsimp only
  rw [hlevel₂.report]
  split
  · exact ⟨hlevel₂.trace _, .inl ⟨rfl, rfl⟩⟩
  · exact ⟨hlevel₂, .inr ⟨program, program', rfl, rfl, hsame⟩⟩

end Level

/-- A refused text is not run. -/
theorem run_of_refused {s : Session} {source : String}
    (h : (s.parsedProgram source).2 = .ok none) :
    s.run source = ((s.parsedProgram source).1, none) := by
  unfold run
  generalize s.parsedProgram source = parsed at h ⊢
  obtain ⟨s₁, result⟩ := parsed
  dsimp only at h
  rw [h]

/-! ### Sessions that differ in numbers only -/

/-- Sessions that **differ in the numbers of references only**: they have reported the same, and the
states beside them are the same without the numbers. -/
structure Aligned (s t : Session) : Prop where
  level : Level s t
  states : ∃ μ ν, Agrees Anything s μ ∧ Agrees Anything t ν ∧
    ν.relabel .unnumbering = μ.relabel .unnumbering

namespace Aligned

variable {s t : Session}

/-- A session is aligned with itself. -/
theorem refl (hs : s.Reachable) : Aligned s s := by
  obtain ⟨μ, hμ⟩ := hs.agrees
  exact ⟨⟨rfl, rfl⟩, μ, μ, hμ, hμ, rfl⟩

theorem printed (h : Aligned s t) : t.machine.printed = s.machine.printed := by
  obtain ⟨μ, ν, hμ, hν, hsame⟩ := h.states
  have hprinted := congrArg Lexical.State.printed hsame
  rw [hμ.printed_eq, hν.printed_eq]
  exact hprinted

theorem globals (h : Aligned s t) : t.globals = s.globals := by
  obtain ⟨μ, ν, hμ, hν, hsame⟩ := h.states
  have hentries := congrArg Lexical.State.globals hsame
  simp only [Lexical.State.globals_relabel] at hentries
  have htext : ∀ v, ν.text v = μ.text v := fun v => by
    have htext := congrArg (Lexical.State.text · v) hsame
    simpa only [Lexical.State.text_relabel] using htext
  rw [hμ.globals_eq, hν.globals_eq, Lexical.State.globalTexts, Lexical.State.globalTexts,
    hentries, funext htext]

theorem flush (h : Aligned s t) : Aligned s.flush t.flush := by
  obtain ⟨μ, ν, hμ, hν, hsame⟩ := h.states
  refine ⟨⟨by rw [Session.flush, Session.flush, h.level.report], h.level.traced⟩, _, _,
    hμ.withPrinted #[] _, hν.withPrinted #[] _, ?_⟩
  exact congrArg (fun μ : Lexical.State => { μ with printed := #[] }) hsame

theorem reset (h : Aligned s t) : Aligned s.reset t.reset := by
  obtain ⟨μ, ν, hμ, hν, hsame⟩ := h.states
  exact ⟨⟨by rw [Session.reset, Session.reset, h.level.report], h.level.traced⟩, μ, ν,
    ⟨hμ.corresponds, hμ.current, hμ.fresh⟩, ⟨hν.corresponds, hν.current, hν.fresh⟩, hsame⟩

/-- **A line is answered alike**, and the sessions are aligned behind it. -/
theorem run (h : Aligned s t) (source : String) :
    Aligned (s.run source).1 (t.run source).1 ∧ (t.run source).2 = (s.run source).2 := by
  obtain ⟨μ, ν, hμ, hν, hsame⟩ := h.states
  obtain ⟨hlevel, hcases⟩ := h.level.parsedProgram source
  rcases hcases with ⟨hnone, hnone'⟩ | ⟨program, program', hsome, hsome', htrees⟩
  · obtain ⟨ds, ha, -⟩ := parsedProgram_cases s hμ.fresh source
    obtain ⟨ds', ha', -⟩ := parsedProgram_cases t hν.fresh source
    have hrun : s.run source = ((s.parsedProgram source).1, none) := run_of_refused hnone
    have hrun' : t.run source = ((t.parsedProgram source).1, none) := run_of_refused hnone'
    rw [hrun, hrun']
    exact ⟨⟨hlevel, μ, ν, hμ.advances ha, hν.advances ha', hsame⟩, rfl⟩
  · obtain ⟨hends, hshows⟩ := hμ.runFor hsome maxSteps
    obtain ⟨hends', hshows'⟩ := hν.runFor hsome' maxSteps
    rw [← run_eq_runFor] at hends hshows hends' hshows'
    -- Without the numbers the two programs and the two states are the same.
    have hresults := Lexical.execAll_unnumbered htrees.symm hsame.symm maxSteps maxCallDepth
    have hinterrupt := hresults.interrupt
    have hstates := congrArg finalState hresults
    rw [funext fun i => Interrupt.relabel_of_line (σ := .plain) rfl i, Option.map_id'] at hinterrupt
    rw [Lexical.relabelResult_plain, Lexical.finalState_relabelResult,
      Lexical.finalState_relabelResult] at hstates
    have hlevel' : Level (s.run source).1 (t.run source).1 :=
      ⟨by rw [hshows'.report, hshows.report, hlevel.report, hinterrupt],
        by rw [hshows'.traced, hshows.traced, hlevel.traced]⟩
    refine ⟨⟨hlevel', _, _, hshows.agrees, hshows'.agrees, hstates⟩, ?_⟩
    have hnone : (t.run source).2 = none ↔ (s.run source).2 = none := by
      rw [hends, hends', hresults.usedUp_iff]
    have hescaped := (hμ.performs .run source fun _ _ => trivial).escaped
    have hescaped' := (hν.performs .run source fun _ _ => trivial).escaped
    change (s.run source).2 = none ∨ (s.run source).2 = some .outOfFuel at hescaped
    change (t.run source).2 = none ∨ (t.run source).2 = some .outOfFuel at hescaped'
    rcases hescaped with hs | hs <;> rcases hescaped' with ht | ht
    · rw [hs, ht]
    · rw [hnone.2 hs] at ht
      cases ht
    · rw [hnone.1 ht] at hs
      cases hs
    · rw [hs, ht]

end Aligned

end Session

/-! ### Rejected lines -/

/-- A line that is **rejected**: in a session of its own, something is found in it. -/
def Rejected (line : String) : Prop :=
  ((Session.initial default false).run line).1.report.hadError = true

instance (line : String) : Decidable (Rejected line) :=
  inferInstanceAs (Decidable (_ = true))

namespace Session

variable {s : Session}

theorem runStep_hadError {α : Type} (s : Session) (step : Run α) :
    (s.runStep step).1.report.hadError = s.report.hadError := by
  unfold runStep
  generalize step s.machine = r
  cases r with
  | ok a m => rfl
  | error i m => cases i <;> rfl

/-- Findings are made before a run. -/
theorem run_hadError (s : Session) (source : String) :
    (s.run source).1.report.hadError = (s.parsedProgram source).1.report.hadError := by
  unfold run
  generalize s.parsedProgram source = parsed
  obtain ⟨s₁, i | program?⟩ := parsed
  · rfl
  cases program? with
  | none => rfl
  | some program =>
    have hran := s₁.runStep_hadError (Machine.execute program)
    dsimp only
    generalize s₁.runStep (Machine.execute program) = ran at hran ⊢
    obtain ⟨s₂, i | _⟩ := ran <;> exact hran

/-- A line is rejected if and only if it is no valid text, and then it is refused. -/
theorem hadError_run_iff (hs : s.Reachable) (hclear : s.report.hadError = false) (line : String) :
    ((s.run line).1.report.hadError = true ↔ ∀ program, ¬ Valid line program) ∧
      ((∀ program, ¬ Valid line program) → (s.parsedProgram line).2 = .ok none) := by
  obtain ⟨μ, hμ⟩ := hs.agrees
  rw [run_hadError]
  rcases s.parsedProgram_valid line with ⟨herror, hrefused, hinvalid⟩ | ⟨program, hok, hvalid⟩
  · exact ⟨iff_of_true herror (hinvalid hclear), fun _ => hrefused⟩
  · refine ⟨iff_of_false ?_ fun hinvalid => hinvalid program hvalid,
      fun hinvalid => absurd hvalid (hinvalid program)⟩
    obtain ⟨ds, hadv, hrefused | ⟨-, -, hnil, -⟩⟩ := parsedProgram_cases s hμ.fresh line
    · rw [hok] at hrefused
      cases hrefused
    · rw [hadv.gains.hadError, hclear, hnil]
      exact Bool.false_ne_true

/-- A line is rejected **by any session or by none**. -/
theorem rejected_iff (hs : s.Reachable) (hclear : s.report.hadError = false) (line : String) :
    (s.run line).1.report.hadError = true ↔ Rejected line := by
  rw [Rejected, (hadError_run_iff hs hclear line).1,
    (hadError_run_iff (.initial default false) rfl line).1]

/-! ### Conversations -/

theorem Reachable.runLine (hs : s.Reachable) (line : String) :
    (s.flush.runLine line).1.Reachable :=
  (hs.flush.step (.perform .run line)).step .reset

/-- What every line keeps up, a **conversation** keeps up. -/
theorem converse_invariant {P : Session → Prop}
    (hline : ∀ s line, P s → P (s.flush.runLine line).1) (hs : P s) (lines : List String) :
    P (s.converse lines).2.1 := by
  induction lines generalizing s with
  | nil => exact hs
  | cons line lines ih =>
    have hnext := hline s line hs
    rw [Session.converse]
    generalize s.flush.runLine line = ran at hnext ⊢
    obtain ⟨s₁, escaped⟩ := ran
    cases escaped with
    | some i => exact hnext
    | none => exact ih hnext

theorem Reachable.converse (hs : s.Reachable) (lines : List String) :
    (s.converse lines).2.1.Reachable :=
  converse_invariant (fun _ line hs => hs.runLine line) hs lines

/-- A session that has nothing to report. -/
def Clear (s : Session) : Prop := s.flush.report = .empty

theorem clear_runLine (s : Session) (line : String) : (s.flush.runLine line).1.Clear := rfl

theorem Clear.hadError (h : s.Clear) : s.report.hadError = false := congrArg Report.hadError h

theorem Clear.exitCode (h : s.Clear) : s.exitCode = 0 := by
  have herror : s.report.hadRuntimeError = false := congrArg Report.hadRuntimeError h
  rw [Session.exitCode, Report.exitCode, h.hadError, herror]
  rfl

theorem Clear.converse (h : s.Clear) (lines : List String) : (s.converse lines).2.1.Clear :=
  converse_invariant (fun s line _ => s.clear_runLine line) h lines

/-- Every session has a log. -/
theorem Reachable.logged (hs : s.Reachable) : ∃ log, Logged log s := by
  induction hs with
  | initial time traced => exact ⟨[], .initial time traced⟩
  | step _ step ih =>
    obtain ⟨log, hlog⟩ := ih
    exact ⟨_, hlog.step step⟩
  | flush _ ih =>
    obtain ⟨log, hlog⟩ := ih
    exact ⟨log, hlog.flush⟩
  | tick _ time ih =>
    obtain ⟨log, hlog⟩ := ih
    exact ⟨log, hlog.tick time⟩

/-- A session with the exit code 0 has nothing to report. -/
theorem Reachable.clear (hs : s.Reachable) (h : s.exitCode = 0) : s.Clear := by
  obtain ⟨log, hlog⟩ := hs.logged
  have hreport := hlog.says
  unfold Session.exitCode Report.exitCode at h
  split at h
  · cases h
  split at h
  · cases h
  rename_i herror hruntime
  -- Neither mark is set, so the log is empty, and there is no message.
  have hnil : log = [] := by
    cases log with
    | nil => rfl
    | cons incident log =>
      rw [hreport.hadError] at herror
      rw [hreport.hadRuntimeError] at hruntime
      cases incident with
      | finding d => exact absurd rfl herror
      | runtimeError e => exact absurd rfl hruntime
  have hmessages : s.report.messages = #[] := by
    rw [← Array.toList_inj, hreport.messages, hnil]
    rfl
  change Report.mk s.report.messages s.report.hadError s.report.hadRuntimeError "" = .empty
  rw [hmessages, eq_false_of_ne_true herror, eq_false_of_ne_true hruntime]
  rfl

/-- A rejected line comes to its end, prints nothing, and is seen nowhere behind it. -/
theorem Aligned.reject {t : Session} (h : Aligned s.flush t.flush) (hs : s.Reachable)
    (hclear : s.Clear) {line : String} (hline : Rejected line) :
    (s.flush.runLine line).2 = none ∧ (s.flush.runLine line).1.stdout = "" ∧
      Aligned (s.flush.runLine line).1.flush t.flush := by
  have hrejected := (rejected_iff hs.flush hclear.hadError line).2 hline
  obtain ⟨hiff, hrefused⟩ := hadError_run_iff hs.flush hclear.hadError line
  have hrun := run_of_refused (hrefused (hiff.1 hrejected))
  obtain ⟨μ, ν, hμ, hν, hsame⟩ := h.states
  obtain ⟨ds, hadv, -⟩ := parsedProgram_cases s.flush hμ.fresh line
  have hafter := hμ.advances hadv
  have hempty : μ.printed = #[] := hμ.printed_eq.symm
  unfold Session.runLine
  rw [hrun]
  generalize (s.flush.parsedProgram line).1 = s₁ at hadv hafter
  refine ⟨rfl, ?_, ⟨?_, ?_⟩, μ, ν, ?_, hν, hsame⟩
  · change joinLines s₁.machine.printed.toList = ""
    rw [hafter.printed_eq, hempty]
    rfl
  · rw [h.level.report, hclear]
    rfl
  · exact h.level.traced.trans hadv.traced.symm
  · have hflushed := hafter.withPrinted #[] s₁.reset.flush.report
    have hstate : { μ with printed := #[] } = μ := by rw [← hempty]
    rw [hstate] at hflushed
    exact hflushed

/-- A line that comes to its end goes before the others. -/
theorem converse_cons {s : Session} {line : String} (hend : (s.flush.runLine line).2 = none)
    (lines : List String) :
    s.converse (line :: lines) =
      (⟨(s.flush.runLine line).1.stdout, (s.flush.runLine line).1.stderr⟩ ::
          ((s.flush.runLine line).1.converse lines).1,
        ((s.flush.runLine line).1.converse lines).2) := by
  rw [Session.converse]
  generalize s.flush.runLine line = ran at hend ⊢
  obtain ⟨s₁, escaped⟩ := ran
  dsimp only at hend
  rw [hend]

/-- A line that does not come to its end is the last one. -/
theorem converse_broken {s : Session} {line : String} {i : Interrupt}
    (hend : (s.flush.runLine line).2 = some i) (lines : List String) :
    s.converse (line :: lines) =
      ([⟨(s.flush.runLine line).1.stdout, (s.flush.runLine line).1.stderr⟩],
        (s.flush.runLine line).1, some i) := by
  rw [Session.converse]
  generalize s.flush.runLine line = ran at hend ⊢
  obtain ⟨s₁, escaped⟩ := ran
  dsimp only at hend
  rw [hend]

/-- The answers to the lines that are not marked. -/
def kept (replies : List Reply) (marked : List (String × Bool)) : List Reply :=
  ((replies.zip marked).filter fun r => !r.2.2).map Prod.fst

/-- The lines that are not marked. -/
def unmarked (marked : List (String × Bool)) : List String :=
  (marked.filter fun l => !l.2).map Prod.fst

/-- Rejected lines are taken out of a conversation, **one after the other**. -/
theorem Aligned.converse {t : Session} (h : Aligned s.flush t.flush) (hs : s.Reachable)
    (hclear : s.Clear) (marked : List (String × Bool))
    (hmarked : ∀ l ∈ marked, l.2 = true → Rejected l.1) :
    kept (s.converse (marked.map Prod.fst)).1 marked = (t.converse (unmarked marked)).1 ∧
      String.join ((s.converse (marked.map Prod.fst)).1.map (·.stdout)) =
        String.join ((t.converse (unmarked marked)).1.map (·.stdout)) ∧
      Aligned (s.converse (marked.map Prod.fst)).2.1.flush
        (t.converse (unmarked marked)).2.1.flush ∧
      (t.converse (unmarked marked)).2.2 = (s.converse (marked.map Prod.fst)).2.2 := by
  induction marked generalizing s t with
  | nil => exact ⟨rfl, rfl, h, rfl⟩
  | cons l marked ih =>
    obtain ⟨line, mark⟩ := l
    have hrest : ∀ l ∈ marked, l.2 = true → Rejected l.1 :=
      fun l hl => hmarked l (List.mem_cons_of_mem _ hl)
    have hnext := s.clear_runLine line
    have hreachable := hs.runLine line
    cases mark with
    | true =>
      -- Only the first conversation has this line.
      obtain ⟨hend, hstdout, haligned⟩ :=
        h.reject hs hclear (hmarked (line, true) List.mem_cons_self rfl)
      obtain ⟨hkept, hjoined, hlast, hescaped⟩ := ih haligned hreachable hnext hrest
      rw [List.map_cons, converse_cons hend]
      refine ⟨hkept, ?_, hlast, hescaped⟩
      rw [List.map_cons, hstdout, String.join_cons, String.empty_append]
      exact hjoined
    | false =>
      obtain ⟨hrun, hescaped⟩ := h.run line
      have haligned := hrun.reset
      change Aligned (s.flush.runLine line).1 (t.flush.runLine line).1 at haligned
      change (t.flush.runLine line).2 = (s.flush.runLine line).2 at hescaped
      have hstdout : (t.flush.runLine line).1.stdout = (s.flush.runLine line).1.stdout := by
        rw [stdout, stdout, haligned.printed]
      have hstderr : (t.flush.runLine line).1.stderr = (s.flush.runLine line).1.stderr := by
        rw [stderr, stderr, haligned.level.report]
      change kept _ _ = (t.converse (line :: unmarked marked)).1 ∧ _ = String.join
        ((t.converse (line :: unmarked marked)).1.map (·.stdout)) ∧ Aligned _
        (t.converse (line :: unmarked marked)).2.1.flush ∧
        (t.converse (line :: unmarked marked)).2.2 = _
      cases hend : (s.flush.runLine line).2 with
      | none =>
        rw [hend] at hescaped
        obtain ⟨hkept, hjoined, hlast, hescaped'⟩ := ih haligned.flush hreachable hnext hrest
        rw [List.map_cons, converse_cons hend, converse_cons hescaped, hstdout, hstderr]
        refine ⟨congrArg (List.cons _) hkept, ?_, hlast, hescaped'⟩
        rw [List.map_cons, List.map_cons, String.join_cons, String.join_cons, hjoined]
      | some i =>
        rw [hend] at hescaped
        rw [List.map_cons, converse_broken hend, converse_broken hescaped, hstdout, hstderr]
        exact ⟨rfl, rfl, haligned.flush, rfl⟩

/-- **Rejected lines leave no trace.**  Whether a line is rejected can be told from the line alone,
whatever lines came before it.  When rejected lines are taken out of a conversation, the other lines
are answered as before, the whole output is the same, prompts aside, and so are the globals at the
end.  The exit code is 0 in the end, with these lines and without them. -/
theorem rejected_without_trace (hs : s.Reachable) (hclear : s.exitCode = 0)
    (marked : List (String × Bool)) (hmarked : ∀ l ∈ marked, l.2 = true → Rejected l.1) :
    let whole := s.converse (marked.map Prod.fst)
    let rest := s.converse (unmarked marked)
    (∀ lines line, ((s.converse lines).2.1.flush.run line).1.report.hadError = true ↔
      Rejected line) ∧
    kept whole.1 marked = rest.1 ∧
    String.join (whole.1.map (·.stdout)) = String.join (rest.1.map (·.stdout)) ∧
    whole.2.1.globals = rest.2.1.globals ∧
    whole.2.2 = rest.2.2 ∧ whole.2.1.exitCode = 0 ∧ rest.2.1.exitCode = 0 ∧
    ∀ stdin, (s.converse (inputLines stdin)).2.2 = none → (runPrompt s stdin).exitCode = 0 := by
  have hempty := hs.clear hclear
  have haligned : Aligned s.flush s.flush := (Aligned.refl hs).flush
  obtain ⟨hkept, hstdout, hlast, hescaped⟩ := haligned.converse hs hempty marked hmarked
  refine ⟨fun lines line => ?_, hkept, hstdout, hlast.globals.symm, hescaped.symm,
    (hempty.converse _).exitCode, (hempty.converse _).exitCode, fun stdin hend => ?_⟩
  · exact rejected_iff (hs.converse lines).flush (hempty.converse lines).hadError line
  · have hexit := (hempty.converse (inputLines stdin)).exitCode
    unfold runPrompt
    generalize s.converse (inputLines stdin) = conversation at hend hexit ⊢
    obtain ⟨replies, last, escaped⟩ := conversation
    dsimp only at hend hexit ⊢
    rw [hend]
    exact hexit

/-- Two lines are taken out from between the declaration of a function and its call: one that the
parser refuses, and one in which the second declaration of a name is found only after a distance was
noted. -/
theorem rejected_without_trace_between :
    let s := Session.initial default false
    let marked := [("fun f() \x7b var a = \"x\"; return a; \x7d", false), ("print ;", true),
      ("\x7b var b = nil; print b; var b; \x7d", true), ("print f();", false)]
    s.Reachable ∧ s.exitCode = 0 ∧ (∀ l ∈ marked, l.2 = true → Rejected l.1) ∧
      kept (s.converse (marked.map Prod.fst)).1 marked = (s.converse (unmarked marked)).1 ∧
      (s.converse (unmarked marked)).1.map (·.stdout) = ["", "x\n"] := by
  intro s marked
  have hs : s.Reachable := .initial default false
  have hmarked : ∀ l ∈ marked, l.2 = true → Rejected l.1 := by decide +kernel
  exact ⟨hs, rfl, hmarked, (rejected_without_trace hs rfl marked hmarked).2.1, by decide +kernel⟩

end Session

end Lox
