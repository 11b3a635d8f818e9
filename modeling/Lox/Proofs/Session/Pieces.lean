/-
**A text in pieces.**

A text may be given to a session in pieces, one after the other.  If the first piece runs to its end
without a finding or an error, and the second one is a text without findings by itself, then the two
do what the whole text does in a new session: the same is printed, the same globals are left, and
the run ends with the same error or with none.  Only the lines of the second piece are counted from
its own beginning.  And if the second piece does not come to an end, the whole text does not either.

Main definitions:

* `Lox.Session.Ends` — **a run comes to its end**, within some allowance of steps;
* `Lox.Session.Tells` — what a session has reported;
* `Lox.SameError`, `Lox.SameRun` — **the same end of two pieces and of the whole**.

Main results:

* `Lox.Agrees.ends`, `Lox.Agrees.ends_of_lexical` — a session ends as the state beside it does;
* `Lox.ends_pieces` — two programs, one after the other, and the program of the whole text;
* `Lox.run_pieces` — **a text runs in pieces as it does whole**.
-/

import Lox.Proofs.Lexical.Concatenation
import Lox.Proofs.Session.Acceptance
import Lox.Proofs.Session.Refinement

set_option relaxedAutoImplicit false
set_option autoImplicit false

namespace Lox

/-! ### Runs that end -/

namespace Session

/-- Runs a program within the given allowance of steps. -/
def runFor (n : Nat) (s : Session) (source : String) : Session × Option Interrupt :=
  match s.parsedProgram source with
  | (s, .ok none) => (s, none)
  | (s, .error i) => (s, some i)
  | (s, .ok (some program)) =>
    match s.runStep (execAll n maxCallDepth program) with
    | (s, .ok _) => (s, none)
    | (s, .error i) => (s, some i)

theorem run_eq_runFor (s : Session) (source : String) : s.run source = s.runFor maxSteps source :=
  rfl

/-- The run of a text **comes to its end**, within some allowance of steps. -/
def Ends (s : Session) (source : String) (s' : Session) : Prop :=
  ∃ n, s.runFor n source = (s', none)

/-- A run that is not cut short has come to its end. -/
theorem ends_runFor {s : Session} {source : String} {n : Nat} (h : (s.runFor n source).2 = none) :
    s.Ends source (s.runFor n source).1 :=
  ⟨n, Prod.ext rfl h⟩

end Session

/-- Everything may be declared anywhere. -/
def Anything (_ : Nat) (_ : String) : Prop := True

/-- What a run makes of a session, beside its run over names and cells. -/
structure Shows (s : Session) (r : EStateM.Result Interrupt Lexical.State Lexical.Names)
    (s' : Session) : Prop where
  agrees : Agrees Anything s' (finalState r)
  report : s'.report = s.report.ending (finalInterrupt r)
  traced : s'.traced = s.traced
  harmless : ∀ i, finalInterrupt r = some i → i.IsHarmless false

section

variable {s s' : Session} {μ : Lexical.State} {source : String} {program : List Stmt}

/-- A session does within an allowance what the state beside it does. -/
theorem Agrees.runFor (h : Agrees Anything s μ)
    (hprogram : (s.parsedProgram source).2 = .ok (some program)) (n : Nat) :
    ((s.runFor n source).2 = none ↔
      ¬ Lexical.UsedUp (Lexical.execAll n maxCallDepth .top program μ)) ∧
    Shows (s.parsedProgram source).1 (Lexical.execAll n maxCallDepth .top program μ)
      (s.runFor n source).1 := by
  obtain ⟨ds, ha, hcases⟩ := Session.parsedProgram_cases s h.fresh source
  unfold Session.runFor
  generalize s.parsedProgram source = parsed at ha hcases hprogram ⊢
  obtain ⟨s₁, result⟩ := parsed
  dsimp only at ha hcases hprogram ⊢
  subst hprogram
  rcases hcases with hrefused | ⟨program', haccepted, -, hscoped⟩
  · cases hrefused
  obtain rfl := Option.some.inj (Except.ok.inj haccepted)
  have hends := (h.advances ha).executeFor (hscoped Anything fun _ _ => trivial) n
  dsimp only
  generalize s₁.runStep (execAll n maxCallDepth program) = r at hends ⊢
  generalize Lexical.execAll n maxCallDepth .top program μ = r' at hends ⊢
  cases hends with
  | value hagrees _ =>
    refine ⟨by simp [Lexical.UsedUp], hagrees, rfl, rfl, ?_⟩
    simp [finalInterrupt]
  | error hagrees =>
    refine ⟨by simp [Lexical.UsedUp], hagrees, rfl, rfl, ?_⟩
    simp [finalInterrupt, Interrupt.IsHarmless]
  | outOfFuel hagrees =>
    refine ⟨by simp [Lexical.UsedUp], hagrees, rfl, rfl, ?_⟩
    simp [finalInterrupt, Interrupt.IsHarmless]

/-- A session ends as the state beside it does. -/
theorem Agrees.ends (h : Agrees Anything s μ)
    (hprogram : (s.parsedProgram source).2 = .ok (some program)) (hends : s.Ends source s') :
    ∃ r, Lexical.Ends maxCallDepth program μ r ∧ Shows (s.parsedProgram source).1 r s' := by
  obtain ⟨n, hn⟩ := hends
  obtain ⟨hiff, hshows⟩ := h.runFor hprogram n
  rw [hn] at hiff hshows
  exact ⟨_, ⟨hiff.1 rfl, n, rfl⟩, hshows⟩

theorem Agrees.ends_of_lexical (h : Agrees Anything s μ)
    (hprogram : (s.parsedProgram source).2 = .ok (some program))
    {r : EStateM.Result Interrupt Lexical.State Lexical.Names}
    (hends : Lexical.Ends maxCallDepth program μ r) : ∃ s', s.Ends source s' := by
  obtain ⟨hr, n, rfl⟩ := hends
  exact ⟨_, Session.ends_runFor ((h.runFor hprogram n).1.2 hr)⟩

end

/-! ### Reports -/

/-- The text that a runtime error is reported with. -/
def RuntimeError.text (e : RuntimeError) : String := Report.runtimeText e.line? e.message

/-- The session has reported **the given runtime error and nothing else**.  Unless the phases leave
a trace, all that is written is its text. -/
structure Session.Tells (s : Session) (traced : Bool) (e? : Option RuntimeError) : Prop where
  messages : s.report.messages.toList = e?.toList.map RuntimeError.text
  exitCode : s.exitCode = if e?.isSome then 70 else 0
  traced_eq : s.traced = traced
  stderr : traced = false → s.stderr = Session.joinLines (e?.toList.map RuntimeError.text)

/-- The runtime error that an interrupt is. -/
def Interrupt.error? : Interrupt → Option RuntimeError
  | .error e => some e
  | _ => none

/-- The runtime error that a run ends with. -/
def finalError? {σ α : Type} (r : EStateM.Result Interrupt σ α) : Option RuntimeError :=
  (finalInterrupt r).bind Interrupt.error?

namespace Session.Tells

variable {s s' : Session} {traced : Bool}

theorem initial (time : Number) (traced : Bool) :
    (Session.initial time traced).Tells traced none :=
  ⟨rfl, rfl, rfl, fun _ => rfl⟩

theorem marks (h : s.Tells traced none) :
    s.report.hadError = false ∧ s.report.hadRuntimeError = false := by
  have hexit := h.exitCode
  simp only [Session.exitCode, Report.exitCode] at hexit
  cases herror : s.report.hadError <;> cases hruntime : s.report.hadRuntimeError <;> simp_all

/-- The phases before a run tell nothing, if there is nothing to find. -/
theorem advances (h : s.Tells traced none) (ha : Session.Advances s s' []) :
    s'.Tells traced none := by
  refine ⟨?_, ?_, ha.traced.trans h.traced_eq, fun htraced => ?_⟩
  · rw [ha.gains.messages, h.messages]
    rfl
  · have hexit := h.exitCode
    rw [Session.exitCode, Report.exitCode, ha.gains.hadError, ha.gains.hadRuntimeError]
    simpa [Session.exitCode, Report.exitCode] using hexit
  · rw [Session.stderr, ha.quiet (h.traced_eq.trans htraced) rfl]
    exact h.stderr htraced

theorem runtimeError (h : s.Tells traced none) {e : RuntimeError}
    (hreport : s'.report = s.report.runtimeError e) (htraced : s'.traced = s.traced) :
    s'.Tells traced (some e) := by
  refine ⟨?_, ?_, htraced.trans h.traced_eq, fun hs => ?_⟩
  · rw [hreport]
    simp [Report.runtimeError, Report.runtimeErrorAt, Report.emit, h.messages, RuntimeError.text]
  · rw [Session.exitCode, hreport]
    simp [Report.runtimeError, Report.runtimeErrorAt, Report.exitCode, Report.emit, Report.trace,
      h.marks.1]
  · have hwritten : s.report.written = "" := h.stderr hs
    rw [Session.stderr, hreport]
    simp [Report.runtimeError, Report.runtimeErrorAt, Report.emit, Report.trace, hwritten,
      RuntimeError.text, Session.joinLines, String.join]

/-- A run tells the error that it ends with. -/
theorem shows (h : s.Tells traced none) {r : EStateM.Result Interrupt Lexical.State Lexical.Names}
    (hshows : Shows s r s') : s'.Tells traced (finalError? r) := by
  have hreport := hshows.report
  have htraced := hshows.traced
  -- Nothing is reported unless the run ends with an error.
  have hsilent : s'.report = s.report → s'.Tells traced none := by
    intro hsame
    refine ⟨?_, ?_, htraced.trans h.traced_eq, fun hs => ?_⟩
    · rw [hsame, h.messages]
    · rw [Session.exitCode, hsame]
      exact h.exitCode
    · rw [Session.stderr, hsame]
      exact h.stderr hs
  cases r with
  | ok ρ μ => exact hsilent hreport
  | error i μ =>
    cases i with
    | error e => exact h.runtimeError hreport htraced
    | _ => exact hsilent hreport

end Session.Tells

/-! ### Lines -/

/-- The lines behind the first `k` are counted from one. -/
def ownLines (k : Nat) : Relabeling where
  line := fun t => if t.line ≤ k then t.line else t.line - k
  number := fun id => id

/-- The tokens of the first piece stay on their lines. -/
theorem ownLines_first {source : String} {t : Token} (ht : t ∈ (scan source.toList).tokens) :
    (ownLines (seamLines source)).token t = t := by
  have hlast : t.line ≤ (seamLines source : Nat) := (scan_lines _ t ht).2
  simp [ownLines, Relabeling.token, hlast]

/-- The tokens of the second piece are on the lines that they have by themselves. -/
theorem ownLines_second {source : String} {t : Token} (ht : t ∈ (scan source.toList).tokens)
    (k : Nat) : (ownLines k).token (t.below k) = t := by
  have hfirst := (scan_lines _ t ht).1
  have hline : ¬ t.line + (k : Int) ≤ k := by omega
  simp only [ownLines, Relabeling.token, Token.below, if_neg hline, Int.add_sub_cancel]

section

variable {source₁ source₂ : String} {program₁ program₂ program : List Stmt}

/-- The program of the whole is that of the pieces, on its own lines. -/
theorem Valid.pieces (h₁ : Valid source₁ program₁) (h₂ : Valid source₂ program₂)
    (h : Valid (source₁ ++ "\n" ++ source₂) program) :
    unnumberedBody (relabelBody (ownLines (seamLines source₁)) program) =
      unnumberedBody (program₁ ++ program₂) := by
  have htokens : (scan (source₁ ++ "\n" ++ source₂).toList).tokens.map
      (ownLines (seamLines source₁)).token =
      (scan source₁.toList).tokens ++ (scan source₂.toList).tokens := by
    have hsecond : ∀ t ∈ (scan source₂.toList).tokens,
        ((ownLines (seamLines source₁)).token ∘ Token.below (seamLines source₁)) t = t :=
      fun t ht => ownLines_second ht _
    rw [scan_append h₁.scanned, List.map_append, List.map_map,
      List.map_congr_left fun _ ht => ownLines_first ht, List.map_congr_left hsecond,
      List.map_id', List.map_id']
  have hwhole := h.derived.relabel (ownLines (seamLines source₁))
  rw [htokens] at hwhole
  exact hwhole.unique (h₁.derived.append h₂.derived)

/-- **Two programs, one after the other**, end as the program of the whole does. -/
theorem ends_pieces {room : Nat} {time : Number} {μ : Lexical.State} (h₁ : Valid source₁ program₁)
    (h₂ : Valid source₂ program₂) (h : Valid (source₁ ++ "\n" ++ source₂) program)
    (hends : Lexical.Ends room program₁ (.initial time) (.ok .top μ)) :
    (∀ r, Lexical.Ends room program (.initial time) r → ∃ r', Lexical.Ends room program₂ μ r' ∧
      Lexical.Resembles (ownLines (seamLines source₁)) r r') ∧
    (∀ r', Lexical.Ends room program₂ μ r' → ∃ r, Lexical.Ends room program (.initial time) r ∧
      Lexical.Resembles (ownLines (seamLines source₁)) r r') := by
  obtain ⟨hpieces, hwhole⟩ := Lexical.ends_resembles (h₁.pieces h₂ h) room time
  constructor
  · intro r hr
    obtain ⟨r', hr', hresembles⟩ := hpieces r hr
    exact ⟨r', (Lexical.ends_append_iff hends).1 hr', hresembles⟩
  · intro r' hr'
    exact hwhole r' ((Lexical.ends_append_iff hends).2 hr')

end

/-! ### Texts -/

/-- **The same error**, or none, of two pieces and of the whole.  A token of the first piece is
where it was, and one of the second piece is `k` lines further down. -/
inductive SameError (first second : List Token) (k : Nat) :
    Option RuntimeError → Option RuntimeError → Prop
  | none : SameError first second k none none
  | nowhere (cause : RuntimeCause) :
      SameError first second k (some ⟨none, cause⟩) (some ⟨none, cause⟩)
  | first {t : Token} (ht : t ∈ first) (cause : RuntimeCause) :
      SameError first second k (some ⟨some t, cause⟩) (some ⟨some t, cause⟩)
  | second {t : Token} (ht : t ∈ second) (cause : RuntimeCause) :
      SameError first second k (some ⟨some t, cause⟩) (some ⟨some (t.below k), cause⟩)

theorem SameError.isSome_eq {first second : List Token} {k : Nat} {e? e'? : Option RuntimeError}
    (h : SameError first second k e? e'?) : e?.isSome = e'?.isSome := by
  cases h <;> rfl

/-- The session `w` of a whole text shows what the session `s` of its two pieces shows. -/
structure SameRun (traced : Bool) (source₁ source₂ : String) (s w : Session) : Prop where
  stdout : s.stdout = w.stdout
  exitCode : s.exitCode = w.exitCode
  globals : s.globals = w.globals
  told : ∃ e? e'?, SameError (scan source₁.toList).tokens (scan source₂.toList).tokens
      (seamLines source₁) e? e'? ∧ s.Tells traced e? ∧ w.Tells traced e'?

/-- A result on other lines ends with the same error. -/
theorem Lexical.Resembles.sameError {source₁ source₂ : String} {program : List Stmt}
    {room : Nat} {time : Number} {r r' : EStateM.Result Interrupt Lexical.State Lexical.Names}
    (h₁ : (scan source₁.toList).findings = [])
    (h : Valid (source₁ ++ "\n" ++ source₂) program)
    (hends : Lexical.Ends room program (.initial time) r)
    (hr : Lexical.Resembles (ownLines (seamLines source₁)) r r') :
    SameError (scan source₁.toList).tokens (scan source₂.toList).tokens (seamLines source₁)
      (finalError? r') (finalError? r) := by
  rw [finalError?, hr.interrupt]
  cases r with
  | ok ρ μ => exact .none
  | error i μ =>
    cases i with
    | error e =>
      obtain ⟨token, cause⟩ := e
      cases token with
      | none => exact .nowhere cause
      | some t =>
        have ht := hends.token_mem h.derived rfl
        rw [scan_append h₁, List.mem_append] at ht
        change SameError _ _ _ (some ⟨some ((ownLines (seamLines source₁)).token t), cause⟩)
          (some ⟨some t, cause⟩)
        rcases ht with ht | ht
        · rw [ownLines_first ht]
          exact .first ht cause
        · obtain ⟨u, hu, rfl⟩ := List.mem_map.1 ht
          rw [ownLines_second hu]
          exact .second hu cause
    | _ => exact .none

section

variable {s s' : Session} {traced : Bool} {μ : Lexical.State} {source : String}
  {program : List Stmt}

/-- An accepted text leaves nothing in the report. -/
theorem Session.Tells.parsedProgram (hs : s.Tells traced none) (h : Agrees Anything s μ)
    (hprogram : (s.parsedProgram source).2 = .ok (some program)) :
    (s.parsedProgram source).1.Tells traced none := by
  obtain ⟨ds, ha, hrefused | ⟨program', -, rfl, -⟩⟩ :=
    Session.parsedProgram_cases s h.fresh source
  · rw [hprogram] at hrefused
    cases hrefused
  · exact hs.advances ha

/-- A valid text is accepted by a session in which nothing has gone wrong. -/
theorem Session.Tells.accepts (hs : s.Tells traced none) (hvalid : Valid source program) :
    ∃ program', (s.parsedProgram source).2 = .ok (some program') ∧ Valid source program' := by
  rcases s.parsedProgram_valid source with ⟨-, -, hinvalid⟩ | haccepted
  · exact absurd hvalid (hinvalid hs.marks.1 program)
  · exact haccepted

/-- A run that ends with exit code 0 ends without an error. -/
theorem Agrees.firstPiece (h : Agrees Anything s μ) (hs : s.Tells traced none)
    (hends : s.Ends source s') (hexit : s'.exitCode = 0) :
    ∃ program μ', Valid source program ∧ Lexical.Ends maxCallDepth program μ (.ok .top μ') ∧
      Agrees Anything s' μ' ∧ s'.Tells traced none := by
  rcases s.parsedProgram_valid source with ⟨herror, hrefused, -⟩ | ⟨program, hprogram, hvalid⟩
  · -- A text that is refused ends with another exit code.
    obtain ⟨n, hn⟩ := hends
    unfold Session.runFor at hn
    generalize s.parsedProgram source = parsed at herror hrefused hn
    obtain ⟨s₁, result⟩ := parsed
    dsimp only at herror hrefused hn
    subst hrefused
    obtain rfl := congrArg Prod.fst hn
    simp [Session.exitCode, Report.exitCode, herror] at hexit
  · obtain ⟨r, hr, hshows⟩ := h.ends hprogram hends
    have htells := (hs.parsedProgram h hprogram).shows hshows
    have hnone : finalError? r = none := by
      have hcode := htells.exitCode
      rw [hexit] at hcode
      cases herror : finalError? r with
      | none => rfl
      | some e => simp [herror] at hcode
    rw [hnone] at htells
    cases r with
    | ok ρ μ' =>
      obtain rfl := hr.names
      exact ⟨program, μ', hvalid, hr, hshows.agrees, htells⟩
    | error i μ' =>
      have hi := hshows.harmless i rfl
      cases i with
      | error e => cases hnone
      | returned v => exact absurd hi (by simp [Interrupt.IsHarmless])
      | fault f => exact hi.elim
      | outOfFuel => exact absurd ⟨μ', rfl⟩ hr.1

end

/-- Sessions beside results that resemble each other show the same. -/
theorem Lexical.Resembles.sameRun {traced : Bool} {source₁ source₂ : String} {s t w v : Session}
    {σ : Relabeling} {r r' : EStateM.Result Interrupt Lexical.State Lexical.Names}
    (hr : Lexical.Resembles σ r r')
    (herror : SameError (scan source₁.toList).tokens (scan source₂.toList).tokens
      (seamLines source₁) (finalError? r') (finalError? r))
    (ht : t.Tells traced none) (hs : Shows t r' s) (hv : v.Tells traced none) (hw : Shows v r w) :
    SameRun traced source₁ source₂ s w := by
  obtain ⟨hprinted, hglobals, htext⟩ := hr.state
  have htells := ht.shows hs
  have htells' := hv.shows hw
  refine ⟨?_, ?_, ?_, _, _, herror, htells, htells'⟩
  · rw [Session.stdout, Session.stdout, hs.agrees.printed_eq, hw.agrees.printed_eq, hprinted]
  · rw [htells.exitCode, htells'.exitCode, herror.isSome_eq]
  · rw [hs.agrees.globals_eq, hw.agrees.globals_eq, Lexical.State.globalTexts,
      Lexical.State.globalTexts, hglobals]
    simp only [htext]

/-- **A text runs in pieces as it does whole.**  Let the first piece run to its end in a new session
with exit code 0, and let the second one have no findings by itself.  Then the second piece comes to
an end, behind the first one, if and only if the whole text does in a new session, and the two
sessions show the same: output, exit code, globals, and the error that is reported, whose line in
the second piece is counted from its beginning.  This holds for every allowance of steps, and so for
the runs of a session that are not cut short. -/
theorem run_pieces {time : Number} {traced : Bool} {source₁ source₂ : String} {s₁ : Session}
    (h₁ : (Session.initial time traced).Ends source₁ s₁) (hexit : s₁.exitCode = 0)
    (h₂ : ((Session.initial time traced).parsedProgram source₂).1.report.hadError = false) :
    let s₀ := Session.initial time traced
    let whole := source₁ ++ "\n" ++ source₂
    ((∃ s₂, s₁.Ends source₂ s₂) ↔ ∃ w, s₀.Ends whole w) ∧
    (∀ s₂ w, s₁.Ends source₂ s₂ → s₀.Ends whole w → SameRun traced source₁ source₂ s₂ w) ∧
    ((s₁.run source₂).2 = none → (s₀.run whole).2 = none →
      SameRun traced source₁ source₂ (s₁.run source₂).1 (s₀.run whole).1) := by
  intro s₀ whole
  have hs₀ : s₀.Tells traced none := .initial time traced
  have hagrees₀ : Agrees Anything s₀ (.initial time) := .initial Anything time traced
  -- The two pieces are valid, and so is the whole.
  obtain ⟨program₁, μ₁, hvalid₁, hends₁, hagrees₁, hs₁⟩ := hagrees₀.firstPiece hs₀ h₁ hexit
  obtain ⟨_, hvalid₂⟩ : ∃ program, Valid source₂ program := by
    rcases s₀.parsedProgram_valid source₂ with ⟨herror, -⟩ | ⟨program, -, hvalid⟩
    · rw [h₂] at herror
      cases herror
    · exact ⟨program, hvalid⟩
  obtain ⟨program₂, hprogram₂, hvalid₂⟩ := hs₁.accepts hvalid₂
  obtain ⟨program, hvalid⟩ := hvalid₁.seam hvalid₂
  obtain ⟨program, hprogram, hvalid⟩ := hs₀.accepts hvalid
  obtain ⟨hpieces, hwhole⟩ := ends_pieces hvalid₁ hvalid₂ hvalid hends₁
  have hsame : ∀ s₂ w, s₁.Ends source₂ s₂ → s₀.Ends whole w →
      SameRun traced source₁ source₂ s₂ w := by
    intro s₂ w hs₂ hw
    obtain ⟨r', hr', hshows'⟩ := hagrees₁.ends hprogram₂ hs₂
    obtain ⟨r, hr, hshows⟩ := hagrees₀.ends hprogram hw
    obtain ⟨r'', hr'', hresembles⟩ := hpieces r hr
    obtain rfl := hr''.unique hr'
    exact hresembles.sameRun (hresembles.sameError hvalid₁.scanned hvalid hr)
      (hs₁.parsedProgram hagrees₁ hprogram₂) hshows' (hs₀.parsedProgram hagrees₀ hprogram) hshows
  refine ⟨⟨?_, ?_⟩, hsame, fun hs₂ hw => ?_⟩
  · rintro ⟨s₂, hs₂⟩
    obtain ⟨r', hr', -⟩ := hagrees₁.ends hprogram₂ hs₂
    obtain ⟨r, hr, -⟩ := hwhole r' hr'
    exact hagrees₀.ends_of_lexical hprogram hr
  · rintro ⟨w, hw⟩
    obtain ⟨r, hr, -⟩ := hagrees₀.ends hprogram hw
    obtain ⟨r', hr', -⟩ := hpieces r hr
    exact hagrees₁.ends_of_lexical hprogram₂ hr'
  · rw [Session.run_eq_runFor] at hs₂ hw ⊢
    rw [Session.run_eq_runFor]
    exact hsame _ _ (Session.ends_runFor hs₂) (Session.ends_runFor hw)

/-- A function of the first piece is called in the second one, which ends with an error in its
second line; this is line 4 of the whole. -/
theorem run_pieces_error :
    let s₀ := Session.initial default false
    let source₁ := "fun f(x)\n\x7b return x; \x7d"
    let source₂ := "f(1);\nmissing;"
    let s₁ := (s₀.runFor 20 source₁).1
    let s₂ := (s₁.runFor 20 source₂).1
    let w := (s₀.runFor 20 (source₁ ++ "\n" ++ source₂)).1
    s₀.Ends source₁ s₁ ∧ s₁.exitCode = 0 ∧
      (s₀.parsedProgram source₂).1.report.hadError = false ∧
      SameRun false source₁ source₂ s₂ w ∧
      s₂.stderr = "Undefined variable 'missing'.\n[line 2]\n" ∧
      w.stderr = "Undefined variable 'missing'.\n[line 4]\n" := by
  intro s₀ source₁ source₂ s₁ s₂ w
  have hends₁ : s₀.Ends source₁ s₁ := Session.ends_runFor (by decide +kernel)
  have hends₂ : s₁.Ends source₂ s₂ := Session.ends_runFor (by decide +kernel)
  have hends : s₀.Ends (source₁ ++ "\n" ++ source₂) w := Session.ends_runFor (by decide +kernel)
  have hexit : s₁.exitCode = 0 := by decide +kernel
  have hclear : (s₀.parsedProgram source₂).1.report.hadError = false := by decide +kernel
  have hsame : SameRun false source₁ source₂ s₂ w :=
    (run_pieces hends₁ hexit hclear).2.1 s₂ w hends₂ hends
  refine ⟨hends₁, hexit, hclear, hsame, ?_, ?_⟩
  · decide +kernel
  · decide +kernel

end Lox
