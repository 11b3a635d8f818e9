/-
**Earlier resolutions are never disturbed.**

The distances of all references are kept in one table, under the numbers of the references.  As no
number is given out twice, the analysis of a tree notes each number at most once, and none of an
earlier tree; so what was found out about a tree stays as it is, whatever texts follow, be they
accepted or not.  A function or a method that a machine holds is part of an accepted tree: from then
on its references have the distances that they were given when this tree was analysed, in the course
of every run and between the steps of the session.

Main definitions:

* `Lox.Machine.Holds` — the functions and methods of a machine;
* `Lox.Machine.KeepsResolutions` — a machine that has the functions of another one, **with the
  distances of their references**;
* `Lox.Session.Archive` — a session with all that it has parsed, all that was noted, and all the
  machines that it has come through.

Main results:

* `Lox.Activity.Secure.timeline` — the machines in the course of a run are sane;
* `Lox.Session.Sane.apply_distances` — a step changes the table by what it notes;
* `Lox.Session.Archive.numbered`, `Lox.Session.Archive.notedOnce` — no number is given to two
  references, and none is noted twice;
* `Lox.Session.resolutions_kept` — **earlier resolutions are never disturbed**.
-/

import Lox.Proofs.Session.Chronicle

set_option relaxedAutoImplicit false
set_option autoImplicit false

namespace Lox

/-! ### Functions and methods -/

/-- A machine **holds** a function, or a class with a method. -/
inductive Machine.Holds (m : Machine) (c : Closure) : Prop
  | function {id : Nat} (hc : m.closures[id]? = some c)
  | method {k : Nat} {info : ClassInfo} {x : String} (hk : m.classes.entries[k]? = some info)
      (hc : info.methods.get? x = some c)

/-- A machine **keeps the resolutions** of another one: it has its functions and methods, and their
references have the distances that they had. -/
def Machine.KeepsResolutions (m m' : Machine) : Prop :=
  ∀ c, m.Holds c → m'.Holds c ∧
    ∀ ref ∈ c.routine.references, m'.distances[ref.id]? = m.distances[ref.id]?

/-- The references of all functions and methods have numbers below the bound. -/
def Machine.Bounded (bound : NodeId) (m : Machine) : Prop :=
  ∀ c, m.Holds c → ∀ ref ∈ c.routine.references, ref.id < bound

theorem Machine.Holds.mono {m m' : Machine} {c : Closure} (h : m.Holds c) (he : m.Extends m') :
    m'.Holds c := by
  cases h with
  | function hc => exact .function (he.closures _ c hc)
  | method hk hc => exact .method (he.classes _ _ hk) hc

section

variable {E : Events} {L : Ledger} {m m' : Machine} {a : Activity}

/-- The functions and methods of a sane machine are known to the ledger. -/
theorem Machine.Sane.bounded (h : m.Sane E L) : m.Bounded L.bound := by
  intro c hc
  cases hc with
  | function hc =>
    cases h.closures _ c hc with
    | function _ _ hscoped _ => exact Routine.Scoped.bounded _ hscoped
    | method _ _ hscoped => exact Routine.Scoped.bounded _ hscoped
  | method hk hc =>
    obtain ⟨x, rfl, hsecure⟩ := h.classes _ (Array.getElem?_eq_some_iff.1 hk).1
    obtain ⟨Γ, -, hmethods⟩ := hsecure.place
    obtain rfl := Option.some.inj (hk.symm.trans hsecure.recorded.entry)
    have hmem := (mem_of_get?_methodTable hc).1
    exact Routine.Scoped.bounded _ ((methodsScoped_iff ..).1 hmethods _ hmem)

/-! ### The machines of a run -/

/-- A secure activity leaves a sane machine behind. -/
theorem Activity.Secure.leaves (h : a.Secure E L m) : (a.leaves m).Sane E L := by
  cases a with
  | expression awaited n room e => exact ((sustains E L n).eval room e h).sane
  | expressions awaited n room es => exact ((sustains E L n).evalAll room es h).sane
  | call n room callee arguments => exact ((sustains E L n).call room _ callee arguments h).sane
  | closure n room c arguments => exact ((sustains E L n).runClosure room c arguments h).sane
  | statement n room s => exact ((sustains E L n).exec room s h).sane
  | statements n room ss => exact ((sustains E L n).execAll room ss h).sane
  | loop n room condition body => exact ((sustains E L n).execLoop room condition body h).sane

/-- **The machines in the course of a run are sane**: the distances are the same all the time. -/
theorem Activity.Secure.timeline (k : Nat) (h : a.Secure E L m) :
    ∀ m' ∈ a.timeline k m, m'.Sane E L := by
  induction k generalizing a m with
  | zero =>
    intro m' hm'
    rcases List.mem_pair.1 hm' with rfl | rfl
    · exact h.sane
    · exact h.leaves
  | succ k ih =>
    intro m' hm'
    rcases List.mem_append.1 hm' with hm' | hm'
    · rcases List.mem_cons.1 hm' with rfl | hm'
      · exact h.sane
      · obtain ⟨b, hb, hm'⟩ := List.mem_flatMap.1 hm'
        exact ih (h.starts hb) m' hm'
    · obtain rfl := List.mem_singleton.1 hm'
      exact h.leaves

end

namespace Session

variable {E : Events} {s : Session}

/-! ### Steps of a session -/

/-- An accepted expression may be evaluated, in a sane session. -/
theorem Sane.acceptedExpression (h : s.Sane E) {source : String} {e : Expr}
    (he : s.acceptedExpression? source = some e) :
    (s.resolvedExpression source e).Sane E ∧
      e.Scoped (s.resolvedExpression source e).openLedger [] := by
  obtain ⟨⟨_, ha⟩, hscoped⟩ := accepted_expression h.fresh he
  exact ⟨h.advances ha, hscoped _⟩

/-- What a step runs is secure; all references are known by then. -/
theorem Sane.roots_secure (h : s.Sane E) {step : Step}
    (hroots : ∀ root ∈ s.roots step, E.Covers root) :
    ∀ root ∈ s.roots step, ∃ L : Ledger, root.1.Secure E L root.2 ∧
      L.bound = (s.apply step).1.nextId := by
  intro root hroot
  have hcovers := hroots root hroot
  cases step with
  | perform mode source =>
    cases mode with
    | run =>
      rw [roots] at hroot
      cases hprogram : s.acceptedProgram? source with
      | none => simp [hprogram] at hroot
      | some program =>
        rw [hprogram, Option.elim_some] at hroot
        obtain rfl := List.mem_singleton.1 hroot
        obtain ⟨h₁, haccepted⟩ := h.accepted hprogram
        exact ⟨_, h₁.secure haccepted hcovers, (s.run_nextId source).symm⟩
    | evaluate =>
      rw [roots] at hroot
      cases he : s.acceptedExpression? source with
      | none => simp [he] at hroot
      | some e =>
        rw [he, Option.elim_some] at hroot
        obtain rfl := List.mem_singleton.1 hroot
        obtain ⟨h₂, hscoped⟩ := h.acceptedExpression he
        refine ⟨_, ⟨hcovers.happens, h₂.machine, [], h₂.current ▸ .top _, hscoped⟩, ?_⟩
        exact (s.evaluate_nextId source).symm
    | tokenize => cases hroot
    | parse => cases hroot
  | reset => cases hroot
  | register name f => cases hroot

/-- A step **changes the table by what it notes**, and runs on the new table all the time. -/
theorem Sane.apply_distances (h : s.Sane E) {step : Step}
    (hroots : ∀ root ∈ s.roots step, E.Covers root) :
    (s.apply step).1.machine.distances = noteAll s.machine.distances (s.writes step) ∧
      ∀ root ∈ s.roots step, root.2.distances = noteAll s.machine.distances (s.writes step) := by
  have heffect := s.apply_effect h.fresh step
  have hsecure := h.roots_secure hroots
  generalize s.roots step = L at heffect hsecure
  generalize (s.apply step).1.machine = m' at heffect
  cases heffect with
  | quiet step printed => exact ⟨rfl, List.forall_mem_nil _⟩
  | @ran _ a m start supplied printed =>
    obtain ⟨L, hL, -⟩ := hsecure (a, m) (List.mem_singleton.2 rfl)
    have hdistances := congrArg Machine.distances start
    exact ⟨hL.leaves.distances.trans (hL.sane.distances.symm.trans hdistances),
      List.forall_mem_singleton.2 hdistances⟩
  | registered name f => exact ⟨rfl, List.forall_mem_nil _⟩

/-! ### Archives -/

/-- An **archive** of a session: the references of all trees that it has parsed, all that was noted
of them, and all the machines that it has come through, in their order. -/
inductive Archive (k : Nat) :
    List Reference → List (NodeId × Nat) → List Machine → Session → Prop
  | initial (time : Number) (traced : Bool) :
      Archive k [] [] [(Session.initial time traced).machine] (.initial time traced)
  | step {refs : List Reference} {writes : List (NodeId × Nat)} {H : List Machine} {s : Session}
      (h : Archive k refs writes H s) {step : Step} (hstep : step.Honest) :
      Archive k (refs ++ s.parsedReferences step) (writes ++ s.writes step)
        (H ++ (s.roots step).flatMap (fun root => root.1.timeline k root.2) ++
          [(s.apply step).1.machine]) (s.apply step).1
  | flush {refs : List Reference} {writes : List (NodeId × Nat)} {H : List Machine} {s : Session}
      (h : Archive k refs writes H s) : Archive k refs writes (H ++ [s.flush.machine]) s.flush
  | tick {refs : List Reference} {writes : List (NodeId × Nat)} {H : List Machine} {s : Session}
      (h : Archive k refs writes H s) (time : Number) :
      Archive k refs writes (H ++ [{ s.machine with time := time }])
        { s with machine := { s.machine with time := time } }

namespace Archive

variable {k : Nat} {refs : List Reference} {writes : List (NodeId × Nat)} {H : List Machine}

theorem chronicle (h : Archive k refs writes H s) : Chronicle k H s := by
  induction h with
  | initial time traced => exact .initial time traced
  | step _ hstep ih => exact ih.step hstep
  | flush _ ih => exact ih.flush
  | tick _ time ih => exact ih.tick time

/-- **No number is given to two references.** -/
theorem numbered (h : Archive k refs writes H s) : Numbered 0 s.nextId refs := by
  induction h with
  | initial time traced => exact .nil ..
  | @step refs writes H s _ step _ ih =>
    obtain ⟨hle, hnew⟩ := s.parsedReferences_numbered step
    exact ih.append hnew (Nat.zero_le _) hle
  | flush _ ih => exact ih
  | tick _ time ih => exact ih

/-- **No number is noted twice.** -/
theorem notedOnce (h : Archive k refs writes H s) : NotedOnce refs writes := by
  induction h with
  | initial time traced => exact .nil _
  | @step refs writes H s h step _ ih =>
    exact ih.append (s.writes_notedOnce step) h.numbered (s.parsedReferences_numbered step).2
  | flush _ ih => exact ih
  | tick _ time ih => exact ih

/-- **The table holds just what was noted.** -/
theorem distances (h : Archive k refs writes H s) : s.machine.distances = noteAll {} writes := by
  induction h with
  | initial time traced => rfl
  | @step refs writes H s h step _ ih =>
    obtain ⟨roots, hroots⟩ := h.chronicle.trail
    have hsane := hroots.sane (E := Events.of (roots ++ s.roots step)) fun root hroot =>
      Events.of_covers (List.mem_append_left _ hroot)
    have hstep := hsane.apply_distances fun root hroot =>
      Events.of_covers (List.mem_append_right _ hroot)
    rw [hstep.1, ih, noteAll_append]
  | flush _ ih => exact ih
  | tick _ time ih => exact ih

/-- A step leaves the distances of earlier references **as they are**, and goes on from tables in
which all functions and methods are known. -/
theorem step_kept (h : Archive k refs writes H s) (step : Step) :
    let t := (s.apply step).1
    (∀ id, id < s.nextId → t.machine.distances[id]? = s.machine.distances[id]?) ∧
      ∀ m ∈ (s.roots step).flatMap (fun root => root.1.timeline k root.2) ++ [t.machine],
        m.distances = t.machine.distances ∧ m.Bounded t.nextId := by
  intro t
  obtain ⟨roots, hroots⟩ := h.chronicle.trail
  have hsane := hroots.sane (E := Events.of (roots ++ s.roots step)) fun root hroot =>
    Events.of_covers (List.mem_append_left _ hroot)
  have hcovers : ∀ root ∈ s.roots step, (Events.of (roots ++ s.roots step)).Covers root :=
    fun root hroot => Events.of_covers (List.mem_append_right _ hroot)
  obtain ⟨hdistances, hstart⟩ := hsane.apply_distances hcovers
  refine ⟨fun id hid => ?_, fun m hm => ?_⟩
  · rw [hdistances]
    refine getElem?_noteAll _ fun w hw heq => ?_
    obtain ⟨ref, href, hnumber⟩ := (s.writes_notedOnce step).owned w hw
    have hnew := ((s.parsedReferences_numbered step).2.bounds ref href).1
    rw [hnumber, heq] at hnew
    exact Nat.not_le.2 hid hnew
  · rcases List.mem_append.1 hm with hm | hm
    · obtain ⟨root, hroot, hm⟩ := List.mem_flatMap.1 hm
      obtain ⟨L, hL, hbound⟩ := hsane.roots_secure hcovers root hroot
      have hmachine := hL.timeline k m hm
      refine ⟨?_, hbound ▸ hmachine.bounded⟩
      rw [hmachine.distances, ← hL.sane.distances, hstart root hroot, ← hdistances]
    · obtain rfl := List.mem_singleton.1 hm
      exact ⟨rfl, (hsane.step step hcovers).machine.bounded⟩

/-- All references of functions and methods have numbers that are given out. -/
theorem bounded (h : Archive k refs writes H s) : s.machine.Bounded s.nextId := by
  obtain ⟨roots, hroots⟩ := h.chronicle.trail
  exact (hroots.sane (E := Events.of roots) fun _ => Events.of_covers).machine.bounded

/-- What is known of the machines that a session has come through: the table holds the distances of
the references of all their functions and methods. -/
theorem known (h : Archive k refs writes H s) : ∀ m ∈ H, ∀ c, m.Holds c →
    ∀ ref ∈ c.routine.references, ref.id < s.nextId ∧
      s.machine.distances[ref.id]? = m.distances[ref.id]? := by
  induction h with
  | initial time traced =>
    intro m hm c hc
    obtain rfl := List.mem_singleton.1 hm
    cases hc with
    | function hc => cases hc
    | method hk hc => cases hk
  | @step refs writes H s h step _ ih =>
    obtain ⟨hkept, hnew⟩ := h.step_kept step
    intro m hm c hc ref href
    rw [List.append_assoc] at hm
    rcases List.mem_append.1 hm with hm | hm
    · obtain ⟨hlt, hd⟩ := ih m hm c hc ref href
      exact ⟨Nat.lt_of_lt_of_le hlt (s.parsedReferences_numbered step).1,
        (hkept ref.id hlt).trans hd⟩
    · obtain ⟨hdistances, hbounded⟩ := hnew m hm
      exact ⟨hbounded c hc ref href, by rw [hdistances]⟩
  | flush h ih =>
    intro m hm c hc ref href
    rcases List.mem_append.1 hm with hm | hm
    · exact ih m hm c hc ref href
    · obtain rfl := List.mem_singleton.1 hm
      exact ⟨h.flush.bounded c hc ref href, rfl⟩
  | tick h time ih =>
    intro m hm c hc ref href
    rcases List.mem_append.1 hm with hm | hm
    · exact ih m hm c hc ref href
    · obtain rfl := List.mem_singleton.1 hm
      exact ⟨(h.tick time).bounded c hc ref href, rfl⟩

/-- Later machines, all of them with one table, keep the resolutions if the table does. -/
theorem append_kept {N : List Machine} {D : Distances} (h : Archive k refs writes H s)
    (hkept : H.Pairwise Machine.KeepsResolutions) (hgrown : (H ++ N).Pairwise Machine.Extends)
    (hD : ∀ id, id < s.nextId → D[id]? = s.machine.distances[id]?)
    (hN : ∀ m ∈ N, m.distances = D) : (H ++ N).Pairwise Machine.KeepsResolutions := by
  obtain ⟨-, hnew, hacross⟩ := List.pairwise_append.1 hgrown
  refine List.pairwise_append.2 ⟨hkept, ?_, fun m hm m' hm' c hc => ?_⟩
  · refine hnew.imp_of_mem fun {m m'} hm hm' he c hc => ⟨hc.mono he, fun ref _ => ?_⟩
    rw [hN m hm, hN m' hm']
  · refine ⟨hc.mono (hacross m hm m' hm'), fun ref href => ?_⟩
    obtain ⟨hlt, hd⟩ := h.known m hm c hc ref href
    rw [hN m' hm', hD ref.id hlt, hd]

/-- **Every later machine keeps the resolutions** of the earlier ones. -/
theorem pairwise (h : Archive k refs writes H s) : H.Pairwise Machine.KeepsResolutions := by
  have hgrown : ∀ {refs writes H s}, Archive k refs writes H s → H.Pairwise Machine.Extends := by
    intro refs writes H s h
    obtain ⟨m, hm⟩ := h.chronicle.inOrder
    exact hm.pairwise
  induction h with
  | initial time traced => exact List.pairwise_singleton ..
  | @step refs writes H s h step hstep ih =>
    obtain ⟨hkept, hnew⟩ := h.step_kept step
    have hall := hgrown (h.step hstep)
    rw [List.append_assoc] at hall ⊢
    exact h.append_kept ih hall hkept fun m hm => (hnew m hm).1
  | flush h ih =>
    exact h.append_kept ih (hgrown h.flush) (fun _ _ => rfl) (List.forall_mem_singleton.2 rfl)
  | tick h time ih =>
    exact h.append_kept ih (hgrown (h.tick time)) (fun _ _ => rfl)
      (List.forall_mem_singleton.2 rfl)

end Archive

/-- **Earlier resolutions are never disturbed.**  Take a session, the references of all trees that
it has parsed, all that was noted of them, and the machines that it has come through, in the course
of its runs and between its steps.  No two of the references have the same number; no number is
noted twice, and only numbers of these references are; the table holds just what was noted.  A
further step, be its text accepted or not, leaves the distances of all these references as they are.
The references of a function or a method have the distances that were noted for them, on every
machine that holds it; and every later machine holds it too, with the same distances. -/
theorem resolutions_kept {k : Nat} {refs : List Reference} {writes : List (NodeId × Nat)}
    {H : List Machine} (h : Archive k refs writes H s) :
    (refs.map (·.id)).Nodup ∧ (writes.map Prod.fst).Nodup ∧
      (∀ w ∈ writes, ∃ ref ∈ refs, ref.id = w.1) ∧
      s.machine.distances = noteAll {} writes ∧
      (∀ step, ∀ ref ∈ refs,
        (s.apply step).1.machine.distances[ref.id]? = s.machine.distances[ref.id]?) ∧
      (∀ m ∈ H, ∀ c, m.Holds c → ∀ ref ∈ c.routine.references,
        m.distances[ref.id]? = (noteAll {} writes)[ref.id]?) ∧
      H.Pairwise Machine.KeepsResolutions := by
  refine ⟨h.numbered.nodup, h.notedOnce.nodup, h.notedOnce.owned, h.distances,
    fun step ref href => ?_, fun m hm c hc ref href => ?_, h.pairwise⟩
  · exact (h.step_kept step).1 ref.id (h.numbered.bounds ref href).2
  · rw [← h.distances]
    exact (h.known m hm c hc ref href).2.symm

/-- A function that assigns a variable of a block, and behind it a text that is refused. -/
theorem resolutions_kept_refused :
    ∃ (refs : List Reference) (writes : List (NodeId × Nat)) (H : List Machine) (s : Session),
      Archive 5 refs writes H s ∧ refs.map (·.id) = [2, 1, 3, 4] ∧
      writes = [(1, 1), (2, 1), (3, 0), (4, 0)] ∧
      s.report.hadError = true ∧
      (refs.map (·.id)).Nodup ∧ (writes.map Prod.fst).Nodup ∧
      (∀ w ∈ writes, ∃ ref ∈ refs, ref.id = w.1) ∧
      s.machine.distances = noteAll {} writes ∧
      (∀ step, ∀ ref ∈ refs,
        (s.apply step).1.machine.distances[ref.id]? = s.machine.distances[ref.id]?) ∧
      (∀ m ∈ H, ∀ c, m.Holds c → ∀ ref ∈ c.routine.references,
        m.distances[ref.id]? = (noteAll {} writes)[ref.id]?) ∧
      H.Pairwise Machine.KeepsResolutions := by
  have hfirst : Step.Honest (.perform .run "\x7b var a; fun f() \x7b a = a; \x7d f(); \x7d") :=
    trivial
  have hsecond : Step.Honest (.perform .run "\x7b var b = b; \x7d") := trivial
  have h := ((Archive.initial (k := 5) default false).step hfirst).step hsecond
  exact ⟨_, _, _, _, h, by decide +kernel, by decide +kernel, by decide +kernel,
    resolutions_kept h⟩

end Session

end Lox
