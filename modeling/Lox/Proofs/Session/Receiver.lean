/-
**The objects of methods, in a session.**

A session leaves a *trail*: the programs and expressions that it has run, with the machines they
were run on.  Between its steps the machine is sane, as far as all that has happened on the trail
goes; so in every run of an accepted program `this` is the object that the running method was bound
to, and `super` the class that the execution of the class declaration has come upon.

Main definitions:

* `Lox.Session.Trail` — a session, with what it has run;
* `Lox.Session.Sane` — a session whose machine is as it should be.

Main results:

* `Lox.Session.Trail.sane` — every session is sane;
* `Lox.this_super_right` — **`this` and `super` always mean the right objects**.
-/

import Lox.Proofs.Machine.Locality
import Lox.Proofs.Receiver.Run
import Lox.Proofs.Session.Agreement

set_option relaxedAutoImplicit false
set_option autoImplicit false

namespace Lox

namespace Session

/-! ### Trails -/

/-- What a step of a session runs: the program or the expression of an accepted text. -/
def roots (s : Session) : Step → List (Activity × Machine)
  | .perform .run source => (s.acceptedProgram? source).elim [] fun program =>
      [(.statements maxSteps maxCallDepth program, (s.parsedProgram source).1.machine)]
  | .perform .evaluate source => (s.acceptedExpression? source).elim [] fun e =>
      [(.expression none maxSteps maxExpressionCallDepth e,
        (s.resolvedExpression source e).machine)]
  | _ => []

/-- A session that has come through any steps, with **what was run** on the way. -/
inductive Trail : List (Activity × Machine) → Session → Prop
  | initial (time : Number) (traced : Bool) : Trail [] (.initial time traced)
  | step {roots : List (Activity × Machine)} {s : Session} (h : Trail roots s) (step : Step) :
      Trail (roots ++ s.roots step) (s.apply step).1
  | flush {roots : List (Activity × Machine)} {s : Session} (h : Trail roots s) :
      Trail roots s.flush
  | tick {roots : List (Activity × Machine)} {s : Session} (h : Trail roots s) (time : Number) :
      Trail roots { s with machine := { s.machine with time := time } }

/-! ### Sane sessions -/

/-- The ledger of a session in which everything may be declared. -/
def openLedger (s : Session) : Ledger := s.ledger fun _ _ => True

/-- A session whose machine is **as it should be**, with the global scope in force. -/
structure Sane (E : Events) (s : Session) : Prop where
  machine : s.machine.Sane E s.openLedger
  current : s.machine.current = Machine.globalScope
  fresh : s.Fresh

end Session

section

variable {E : Events} {L L' : Ledger} {m : Machine}

theorem Machine.Sane.extend (h : m.Sane E L) (he : L.Extends L') :
    Machine.Sane E L' { m with distances := L'.distances } := by
  have hg : m.Grows { m with distances := L'.distances } := .of_eq rfl rfl rfl
  refine ⟨rfl, h.nonempty, fun id c hc => ?_, fun k hk => ?_⟩
  · cases h.closures id c hc with
    | function hdeclared hlies hscoped howners =>
      exact .function hdeclared (hlies.mono hg) (Routine.Scoped.mono he _ hscoped) howners
    | method hbound hlies hscoped =>
      exact .method (hbound.mono hg) (hlies.mono hg) (Routine.Scoped.mono he _ hscoped)
  · obtain ⟨x, hx, hsecure⟩ := h.classes k hk
    obtain ⟨Γ, hlies, hmethods⟩ := hsecure.place
    exact ⟨x, hx, hsecure.recorded.mono hg, Γ, hlies.mono hg, methodsScoped.mono he _ hmethods⟩

/-- A machine that changes in nothing that counts. -/
theorem Preserved.of_eq {m' : Machine} (h : m.Sane E L) (hg : m.Grows m')
    (hd : m'.distances = m.distances) (hclosures : m'.closures = m.closures)
    (hclasses : m'.classes = m.classes) (hcurrent : m'.current = m.current) :
    Preserved E L m m' :=
  ⟨h.grow hg hd hclosures hclasses, hg, hcurrent⟩

end

namespace Session.Sane

variable {E : Events} {s s' : Session}

theorem initial (E : Events) (time : Number) (traced : Bool) :
    (Session.initial time traced).Sane E where
  machine := by
    refine ⟨rfl, ?_, nofun, nofun⟩
    simp [Session.initial, Machine.initial, Machine.register, Heap.size_push]
  current := rfl
  fresh := fun _ _ => by simp [Session.initial, Machine.initial, Machine.register]

/-- A session whose machine has come out of a sane one. -/
theorem preserved (h : s.Sane E) (hid : s'.nextId = s.nextId)
    (hm : Preserved E s.openLedger s.machine s'.machine) : s'.Sane E := by
  have hd : s'.machine.distances = s.machine.distances := hm.sane.distances
  have hL : s'.openLedger = s.openLedger := by
    simp only [Session.openLedger, Session.ledger, hd, hid]
  refine ⟨hL ▸ hm.sane, hm.current.trans h.current, fun id hle => ?_⟩
  rw [hd]
  exact h.fresh id (hid ▸ hle)

/-- The phases before a run keep a session sane. -/
theorem advances {ds : List Diagnostic} (h : s.Sane E) (ha : Session.Advances s s' ds) :
    s'.Sane E := by
  obtain ⟨D, hD⟩ := ha.machine
  have hext := h.machine.extend (ha.ledger_extends fun _ _ => True)
  have hm : { s.machine with distances := s'.openLedger.distances } = s'.machine := by
    rw [Session.openLedger, Session.ledger, hD]
  refine ⟨hm ▸ hext, ?_, h.fresh.advances ha⟩
  rw [hD]
  exact h.current

/-- What is printed, reported or shown by the clock is of no consequence. -/
theorem withOutput (h : s.Sane E) (printed : Array String) (time : Number) (report : Report) :
    Session.Sane E { s with
      machine := { s.machine with printed := printed, time := time }, report := report } :=
  h.preserved rfl (.of_eq h.machine (.of_eq rfl rfl rfl) rfl rfl rfl rfl)

theorem register (h : s.Sane E) (name : String) (f : Native) : (s.register name f).Sane E := by
  have hg : s.machine.Grows (s.machine.register name f) :=
    (Machine.Grows.define s.machine (.native s.machine.natives.size) (.inl rfl)).trans
      (.of_eq rfl rfl rfl)
  exact h.preserved rfl (.of_eq h.machine hg rfl rfl rfl rfl)

/-- A step of the machine that keeps it sane. -/
theorem runStep {α : Type} {step : Run α} (h : s.Sane E)
    (hstep : Preserves E s.openLedger step s.machine) : (s.runStep step).1.Sane E := by
  unfold Preserves Run.after at hstep
  unfold Session.runStep
  cases hr : step s.machine with
  | ok a m =>
    rw [hr] at hstep
    exact h.preserved rfl hstep
  | error i m =>
    rw [hr] at hstep
    cases i <;> exact h.preserved rfl hstep

/-! ### Steps of a session -/

/-- A program that may run is secure at the beginning. -/
theorem secure (h : s.Sane E) {program : List Stmt} (haccepted : s.Accepted program) {n room : Nat}
    (hroot : E.Covers (.statements n room program, s.machine)) :
    (Activity.statements n room program).Secure E s.openLedger s.machine := by
  have hscoped := haccepted (fun _ _ => True) fun _ _ => trivial
  exact ⟨hroot.happens, h.machine, hroot.stated, [], h.current ▸ .top _, false, hscoped⟩

/-- An accepted program may run, in a sane session. -/
theorem accepted (h : s.Sane E) {source : String} {program : List Stmt}
    (hprogram : s.acceptedProgram? source = some program) :
    (s.parsedProgram source).1.Sane E ∧ (s.parsedProgram source).1.Accepted program := by
  obtain ⟨⟨_, ha⟩, haccepted⟩ := accepted_program h.fresh hprogram
  exact ⟨h.advances ha, haccepted⟩

theorem run (h : s.Sane E) (source : String)
    (hroots : ∀ root ∈ s.roots (.perform .run source), E.Covers root) :
    (s.run source).1.Sane E := by
  obtain ⟨ds, ha, hcases⟩ := Session.parsedProgram_cases s h.fresh source
  rw [Session.roots, Session.acceptedProgram?] at hroots
  rw [Session.run]
  generalize s.parsedProgram source = parsed at ha hcases hroots ⊢
  obtain ⟨s₁, result⟩ := parsed
  dsimp only at ha hcases hroots ⊢
  rcases hcases with rfl | ⟨program, rfl, rfl, haccepted⟩
  · exact h.advances ha
  · have h₁ := h.advances ha
    have hsecure := h₁.secure haccepted (hroots _ (List.mem_singleton.2 rfl))
    have hrun : (s₁.runStep (Machine.execute program)).1.Sane E :=
      h₁.runStep ((sustains E _ maxSteps).execAll maxCallDepth program hsecure)
    dsimp only
    generalize s₁.runStep (Machine.execute program) = ran at hrun ⊢
    obtain ⟨s₂, i | _⟩ := ran <;> exact hrun

theorem evaluate (h : s.Sane E) (source : String)
    (hroots : ∀ root ∈ s.roots (.perform .evaluate source), E.Covers root) :
    (s.evaluate source).1.Sane E := by
  obtain ⟨ds, ha, hmachine, hcases⟩ := Session.parsedExpression_cases s source
  rw [Session.roots, Session.acceptedExpression?] at hroots
  unfold Session.resolvedExpression at hroots
  unfold Session.evaluate
  generalize s.parsedExpression source = parsed at ha hmachine hcases hroots ⊢
  obtain ⟨s₁, e?⟩ := parsed
  dsimp only at ha hmachine hcases hroots ⊢
  rcases hcases with rfl | ⟨e, rfl, rfl, hproper, hnumbers⟩
  · exact h.advances ha
  -- The analysis of a proper tree comes to an end.
  obtain ⟨hfault, ha₂, hscoped⟩ := Session.resolve_expression h.fresh ha hmachine hproper hnumbers
  have hres : s₁.resolve (resolveExpression e) = ((s₁.resolve (resolveExpression e)).1, none) :=
    Prod.ext rfl hfault
  have hroot : (s₁.resolve (resolveExpression e)).1.report.hadError = false →
      E.happens (.expression none maxSteps maxExpressionCallDepth e)
        (s₁.resolve (resolveExpression e)).1.machine := by
    intro hclear
    simp only [Option.filter_some, hclear, Bool.not_false, if_true, Option.elim_some] at hroots
    exact (hroots _ (List.mem_singleton.2 rfl)).happens
  dsimp only
  rw [hres]
  generalize (s₁.resolve (resolveExpression e)).1 = s₂ at ha₂ hscoped hroot ⊢
  have h₂ := h.advances ha₂
  dsimp only
  by_cases herror : s₂.report.hadError = true
  · rw [if_pos herror]
    exact h₂
  · have hclear : s₂.report.hadError = false := by simpa using herror
    rw [if_neg herror]
    have hsecure : (Activity.expression none maxSteps maxExpressionCallDepth e).Secure E
        s₂.openLedger s₂.machine :=
      ⟨hroot hclear, h₂.machine, [], h₂.current ▸ .top _, hscoped hclear _⟩
    have hrun : (s₂.runStep (Machine.evaluate e)).1.Sane E :=
      h₂.runStep (((sustains E _ maxSteps).eval maxExpressionCallDepth e hsecure).bind
        fun v m₁ _ hm₁ => .inspect (.pure hm₁.sane _))
    generalize s₂.runStep (Machine.evaluate e) = ran at hrun ⊢
    obtain ⟨s₃, i | text?⟩ := ran
    · exact hrun
    · cases text? with
      | none => exact hrun
      | some text => exact hrun.withOutput _ _ _

theorem tokenize (h : s.Sane E) (source : String) : (s.tokenize source).Sane E := by
  have h₁ := h.advances (Session.scanned_advances s source)
  obtain ⟨printed, hprint⟩ := foldl_print (s.scanned source).2.allTokens (s.scanned source).1
  have hstep : s.tokenize source = { (s.scanned source).1 with
      machine := { (s.scanned source).1.machine with printed := printed } } := hprint
  rw [hstep]
  exact h₁.withOutput printed _ _

theorem parse (h : s.Sane E) (source : String) : (s.parse source).1.Sane E := by
  obtain ⟨ds, ha, -, -⟩ := Session.parsedExpression_cases s source
  have h₁ := h.advances ha
  unfold Session.parse
  generalize s.parsedExpression source = parsed at h₁ ⊢
  obtain ⟨s₁, e?⟩ := parsed
  cases e? with
  | none => exact h₁
  | some e =>
    dsimp only
    cases e.render with
    | ok text => exact h₁.withOutput _ _ _
    | error f => exact h₁

/-- A step keeps a session sane. -/
theorem step (h : s.Sane E) (step : Step)
    (hroots : ∀ root ∈ s.roots step, E.Covers root) : (s.apply step).1.Sane E := by
  cases step with
  | perform mode source =>
    cases mode with
    | tokenize => exact h.tokenize source
    | parse => exact h.parse source
    | evaluate => exact h.evaluate source hroots
    | run => exact h.run source hroots
  | reset => exact h.withOutput _ _ _
  | register name f => exact h.register name f

end Session.Sane

/-- **Every session is sane**, as far as all that it has run goes. -/
theorem Session.Trail.sane {E : Events} {roots : List (Activity × Machine)} {s : Session}
    (h : s.Trail roots) (hroots : ∀ root ∈ roots, E.Covers root) : s.Sane E := by
  induction h with
  | initial time traced => exact .initial E time traced
  | step _ step ih =>
    refine (ih fun root hroot => hroots root (List.mem_append_left _ hroot)).step step ?_
    exact fun root hroot => hroots root (List.mem_append_right _ hroot)
  | flush _ ih => exact (ih hroots).withOutput #[] _ _
  | tick _ time ih => exact (ih hroots).withOutput _ time _

/-! ### Numbers -/

namespace Session

variable (s : Session) (source : String)

/-- The references of an accepted program have new numbers. -/
theorem parsedProgram_numbered :
    s.nextId ≤ (s.parsedProgram source).1.nextId ∧
      ∀ program, s.acceptedProgram? source = some program →
        Numbered s.nextId (s.parsedProgram source).1.nextId (referencesOfBody program) := by
  obtain ⟨htree, hid, -, hadv⟩ := parsed_advances s source
    (fun tokens endMark id => (parseProgram_sound tokens endMark id).1)
  unfold acceptedProgram? parsedProgram
  generalize s.parsed parseProgram source = parsed at htree hid hadv ⊢
  obtain ⟨s₁, program⟩ := parsed
  dsimp only at htree hid hadv ⊢
  have hadv := hadv.trace ("parsed " ++ program.length.repr ++ " statements")
  rw [← trace_nextId s₁ ("parsed " ++ program.length.repr ++ " statements")] at hid
  generalize s₁.trace ("parsed " ++ program.length.repr ++ " statements") = s₂ at hid hadv ⊢
  by_cases herror : s₂.report.hadError = true
  · rw [if_pos herror]
    exact ⟨hadv.nextId_le, nofun⟩
  rw [if_neg herror]
  have hnil := hadv.findings_eq_nil (by simpa using herror)
  have hmade := (parseProgram_sound _ _ s.nextId).2 (List.append_eq_nil_iff.1 hnil).2
  rw [← htree, ← hid] at hmade
  have hnextId : (s₂.resolve (resolveProgram program)).1.nextId = s₂.nextId := rfl
  generalize s₂.resolve (resolveProgram program) = resolved at hnextId ⊢
  obtain ⟨s₃, fault⟩ := resolved
  dsimp only at hnextId ⊢
  cases fault with
  | some f => exact ⟨hnextId ▸ hadv.nextId_le, nofun⟩
  | none =>
    dsimp only
    split
    · refine ⟨?_, nofun⟩
      rw [trace_nextId, hnextId]
      exact hadv.nextId_le
    · refine ⟨hnextId ▸ hadv.nextId_le, fun program' hprogram => ?_⟩
      obtain rfl := Option.some.inj hprogram
      rw [hnextId]
      exact hmade.2

theorem runStep_nextId {α : Type} (step : Run α) : (s.runStep step).1.nextId = s.nextId := by
  unfold runStep
  cases step s.machine with
  | ok a m => rfl
  | error i m => cases i <;> rfl

theorem run_nextId : (s.run source).1.nextId = (s.parsedProgram source).1.nextId := by
  unfold run
  generalize s.parsedProgram source = parsed
  obtain ⟨s₁, i | program?⟩ := parsed
  · rfl
  · cases program? with
    | none => rfl
    | some program =>
      have hrun := s₁.runStep_nextId (Machine.execute program)
      dsimp only
      generalize s₁.runStep (Machine.execute program) = ran at hrun ⊢
      obtain ⟨s₂, i | _⟩ := ran <;> exact hrun

theorem evaluate_nextId : (s.evaluate source).1.nextId = (s.parsedExpression source).1.nextId := by
  unfold evaluate
  generalize s.parsedExpression source = parsed
  obtain ⟨s₁, e?⟩ := parsed
  cases e? with
  | none => rfl
  | some e =>
    have hresolve : (s₁.resolve (resolveExpression e)).1.nextId = s₁.nextId := rfl
    dsimp only
    generalize s₁.resolve (resolveExpression e) = resolved at hresolve ⊢
    obtain ⟨s₂, fault⟩ := resolved
    cases fault with
    | some f => exact hresolve
    | none =>
      have hrun := (s₂.runStep_nextId (Machine.evaluate e)).trans hresolve
      dsimp only
      split
      · exact hresolve
      · generalize s₂.runStep (Machine.evaluate e) = ran at hrun ⊢
        obtain ⟨s₃, i | text?⟩ := ran
        · exact hrun
        · cases text? <;> exact hrun

theorem parse_nextId : (s.parse source).1.nextId = (s.parsedExpression source).1.nextId := by
  unfold parse
  generalize s.parsedExpression source = parsed
  obtain ⟨s₁, e?⟩ := parsed
  cases e? with
  | none => rfl
  | some e =>
    dsimp only
    cases e.render <;> rfl

/-- What a step runs has new numbers. -/
theorem roots_numbered (step : Step) :
    s.nextId ≤ (s.apply step).1.nextId ∧ Numbered s.nextId (s.apply step).1.nextId
      (referencesOfBody ((s.roots step).flatMap fun root => root.1.text)) := by
  have hexpression : ∀ source, s.nextId ≤ (s.parsedExpression source).1.nextId := by
    intro source
    obtain ⟨_, ha, -, -⟩ := parsedExpression_cases s source
    exact ha.nextId_le
  cases step with
  | perform mode source =>
    cases mode with
    | tokenize =>
      obtain ⟨printed, hprint⟩ := foldl_print (s.scanned source).2.allTokens (s.scanned source).1
      have hnextId : (s.tokenize source).nextId = (s.scanned source).1.nextId := by
        rw [show s.tokenize source = _ from hprint]
      exact ⟨hnextId ▸ (scanned_advances s source).nextId_le, .nil ..⟩
    | parse => exact ⟨s.parse_nextId source ▸ hexpression source, .nil ..⟩
    | evaluate =>
      refine ⟨s.evaluate_nextId source ▸ hexpression source, ?_⟩
      rw [roots]
      cases s.acceptedExpression? source <;> exact .nil ..
    | run =>
      obtain ⟨hle, hnew⟩ := s.parsedProgram_numbered source
      rw [← s.run_nextId source] at hle hnew
      refine ⟨hle, ?_⟩
      rw [roots]
      cases hprogram : s.acceptedProgram? source with
      | none => exact .nil ..
      | some program =>
        rw [Option.elim_some, List.flatMap_singleton]
        exact hnew program hprogram
  | reset => exact ⟨Nat.le_refl _, .nil ..⟩
  | register name f => exact ⟨Nat.le_refl _, .nil ..⟩

end Session

/-- The references of all texts have numbers of their own. -/
theorem Session.Trail.numbered {roots : List (Activity × Machine)} {s : Session}
    (h : s.Trail roots) : Numbered 0 s.nextId (referencesOfBody (Events.of roots).texts) := by
  induction h with
  | initial time traced => exact .nil ..
  | @step roots s _ step ih =>
    obtain ⟨hle, hnew⟩ := s.roots_numbered step
    change Numbered _ _ (referencesOfBody ((roots ++ s.roots step).flatMap _))
    rw [List.flatMap_append, referencesOfBody_append]
    exact ih.append hnew (Nat.zero_le _) hle
  | flush _ ih => exact ih
  | tick _ time ih => exact ih

/-- **`this` and `super` always mean the right objects.**  Take a session and an accepted text, and
whatever the run of the text comes to.  If a `this` or a `super` is evaluated there, at any depth of
blocks and functions and however the function was kept and called, then it stands in a class
declaration of the texts, and it means what it should mean in the methods of that declaration.  And
every closure, be it kept on the machine or run, was made by a function declaration and binds no
object, or is a method that is bound to an object whose class is the one that owns the method or
descends from it. -/
theorem this_super_right {roots : List (Activity × Machine)} {s : Session} (hs : s.Trail roots)
    {source : String} {program : List Stmt} (hprogram : s.acceptedProgram? source = some program)
    (n room : Nat) :
    let start := (s.parsedProgram source).1.machine
    let E := Events.of (roots ++ [(.statements n room program, start)])
    ∀ a m, Reaches (.statements n room program) start a m →
      (∀ awaited n room ref, a = .expression awaited n room (.this ref) →
        (∃ C, (ref, C) ∈ E.owners) ∧ ∀ C, (ref, C) ∈ E.owners → ref.MeansObject E m C) ∧
      (∀ awaited n room ref method, a = .expression awaited n room (.super ref method) →
        (∃ C, (ref, C) ∈ E.owners) ∧
          ∀ C, (ref, C) ∈ E.owners → ref.MeansSuperclass E m C method) ∧
      (∀ (id : Nat) (c : Closure), m.closures[id]? = some c →
        c.Declared E ∧ c.Unbound m ∨ ∃ x o, Bound E m c x o) ∧
      ∀ n room c arguments, a = .closure n room c arguments →
        c.Declared E ∧ c.Unbound m ∨ ∃ x o, Bound E m c x o := by
  intro start E a m hreach
  have hroots : ∀ root ∈ roots, E.Covers root := fun root hroot =>
    Events.of_covers (List.mem_append_left _ hroot)
  have hroot : E.Covers (.statements n room program, start) :=
    Events.of_covers (List.mem_append_right _ (List.mem_singleton.2 rfl))
  have hsane := hs.sane hroots
  obtain ⟨h₁, haccepted⟩ := hsane.accepted hprogram
  have hsecure := hreach.secure (h₁.secure haccepted hroot)
  -- The numbers of the new text go on from those of the earlier ones.
  obtain ⟨hle, hnew⟩ := s.parsedProgram_numbered source
  have hnumbered :
      Numbered 0 (s.parsedProgram source).1.nextId (referencesOfBody E.texts) := by
    change Numbered _ _ (referencesOfBody ((roots ++ [_]).flatMap _))
    rw [List.flatMap_append, referencesOfBody_append, List.flatMap_singleton]
    exact hs.numbered.append (hnew program hprogram) (Nat.zero_le _) hle
  refine ⟨?_, ?_, fun id c hc => (hsecure.sane.closures id c hc).origin, ?_⟩
  · rintro _ _ _ ref rfl
    obtain ⟨C, hC, hmeans⟩ := hsecure.means.1 ref rfl
    exact ⟨⟨C, hC⟩, fun C' hC' => owner_unique hnumbered hC hC' ▸ hmeans⟩
  · rintro _ _ _ ref method rfl
    obtain ⟨C, hC, hmeans⟩ := hsecure.means.2 ref method rfl
    exact ⟨⟨C, hC⟩, fun C' hC' => owner_unique hnumbered hC hC' ▸ hmeans⟩
  · rintro _ _ c _ rfl
    exact hsecure.fits.origin

/-- The first activity with a property that an activity comes to, within so many starts. -/
def Activity.firstReached (p : Activity → Bool) :
    Nat → Activity → Machine → Option (Activity × Machine)
  | 0, _, _ => none
  | k + 1, a, m =>
    if p a then some (a, m) else (a.starts m).findSome? fun b => firstReached p k b.1 b.2

theorem Activity.reaches_of_firstReached {p : Activity → Bool} {k : Nat} {a b : Activity}
    {m m' : Machine} (h : a.firstReached p k m = some (b, m')) : Reaches a m b m' ∧ p b = true := by
  induction k generalizing a m with
  | zero => cases h
  | succ k ih =>
    rw [firstReached] at h
    split at h
    · rename_i hp
      obtain ⟨rfl, rfl⟩ := Prod.mk.inj (Option.some.inj h)
      exact ⟨.self, hp⟩
    · obtain ⟨c, hc, h⟩ := List.exists_of_findSome?_eq_some h
      obtain ⟨hreach, hp⟩ := ih h
      exact ⟨(Reaches.self.start hc).trans hreach, hp⟩

/-- Whether a `super` is evaluated. -/
def Activity.isSuper : Activity → Bool
  | .expression _ _ _ (.super _ _) => true
  | _ => false

theorem Activity.eq_of_isSuper {a : Activity} (h : a.isSuper = true) :
    ∃ awaited n room ref method, a = .expression awaited n room (.super ref method) := by
  unfold isSuper at h
  split at h
  · exact ⟨_, _, _, _, _, rfl⟩
  · cases h

/-- A function inside an inherited method asks for `super` after the method has returned. -/
theorem this_super_right_returned :
    let s := Session.initial default false
    let source := "class A \x7b m() \x7b return 1; \x7d \x7d " ++
      "class B < A \x7b m() \x7b fun f() \x7b return super.m; \x7d return f; \x7d \x7d " ++
      "class D < B \x7b \x7d D().m()();"
    s.Trail [] ∧ ∃ program awaited n room ref method m C,
      s.acceptedProgram? source = some program ∧
      Reaches (.statements 40 5 program) (s.parsedProgram source).1.machine
        (.expression awaited n room (.super ref method)) m ∧
      let E := Events.of ([] ++ [(.statements 40 5 program, (s.parsedProgram source).1.machine)])
      (ref, C) ∈ E.owners ∧ ref.MeansSuperclass E m C method := by
  intro s source
  have hs : s.Trail [] := .initial default false
  have hsome : ((s.acceptedProgram? source).bind fun program =>
      ((Activity.statements 40 5 program).firstReached Activity.isSuper 40
        (s.parsedProgram source).1.machine).map fun found => (program, found)).isSome = true := by
    decide +kernel
  obtain ⟨⟨program, a, m⟩, hfound⟩ := Option.isSome_iff_exists.1 hsome
  obtain ⟨program', hprogram, hfound⟩ := Option.bind_eq_some_iff.1 hfound
  obtain ⟨found, hfound, heq⟩ := Option.map_eq_some_iff.1 hfound
  obtain ⟨rfl, rfl⟩ := Prod.mk.inj heq
  obtain ⟨hreach, hsuper⟩ := Activity.reaches_of_firstReached hfound
  obtain ⟨awaited, n, room, ref, method, rfl⟩ := Activity.eq_of_isSuper hsuper
  obtain ⟨-, hright, -⟩ := this_super_right hs hprogram 40 5 _ m hreach
  obtain ⟨⟨C, hC⟩, hmeans⟩ := hright awaited n room ref method rfl
  exact ⟨hs, program', awaited, n, room, ref, method, m, C, hprogram, hreach, hC, hmeans C hC⟩

end Lox
