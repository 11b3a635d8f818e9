/-
**Lookups in a session.**

In a session whose texts declare no name twice, every reference that is consulted in the course of
a run, and has a distance, is looked up alike at its distance and by search.  There is one
exception: an assignment to a variable inside the expression for its first value.  It is made at a
distance, in a scope that the search passes by.

Main definitions:

* `Lox.Session.History` — a session, with the names that its texts have declared.

Main results:

* `Lox.lookup_agree_iff` — **lookup at a distance and by search agree**, but for the exception.
-/

import Lox.Proofs.Lexical.Lookup
import Lox.Proofs.Machine.Locality
import Lox.Proofs.Session.Agreement

set_option relaxedAutoImplicit false
set_option autoImplicit false

namespace Lox

/-- A session that has come through any steps, with the names that were **declared** on the way. -/
inductive Session.History : List (Nat × String) → Session → Prop
  | initial (time : Number) (traced : Bool) : History [] (.initial time traced)
  | step {ds : List (Nat × String)} {s : Session} (h : History ds s) (step : Step) :
      History (ds ++ s.declares step) (s.apply step).1
  | flush {ds : List (Nat × String)} {s : Session} (h : History ds s) : History ds s.flush
  | tick {ds : List (Nat × String)} {s : Session} (h : History ds s) (time : Number) :
      History ds { s with machine := { s.machine with time := time } }

/-- A session agrees with a state, where nothing but what was declared may be declared. -/
theorem Session.History.agrees {M : Nat → String → Prop} {ds : List (Nat × String)} {s : Session}
    (h : s.History ds) (hM : ∀ d ∈ ds, M d.1 d.2) : ∃ μ, Agrees M s μ := by
  induction h with
  | initial time traced => exact ⟨_, .initial M time traced⟩
  | @step ds s _ step ih =>
    obtain ⟨μ, hagrees⟩ := ih fun d hd => hM d (List.mem_append_left _ hd)
    exact ⟨_, hagrees.step step fun d hd => hM d (List.mem_append_right _ hd)⟩
  | flush _ ih =>
    obtain ⟨μ, hagrees⟩ := ih hM
    exact ⟨_, hagrees.withPrinted #[] _⟩
  | tick _ time ih =>
    obtain ⟨μ, hagrees⟩ := ih hM
    exact ⟨_, hagrees.withTime time⟩

/-- The execution of an accepted program is sound. -/
theorem Agrees.sound {M : Nat → String → Prop} {s : Session} {μ : Lexical.State}
    (h : Agrees M s μ) {program : List Stmt} (hprogram : bodyScoped (s.ledger M) false [] program)
    (n room : Nat) : (Activity.statements n room program).Sound (s.ledger M) s.machine := by
  obtain ⟨W, hc⟩ := h.corresponds
  have hin : InForce W s.machine [] .top := ⟨⟨h.current, rfl, fun _ => rfl⟩, trivial⟩
  exact ⟨W, μ, [], .top, false, hc, hin, nofun, hprogram⟩

/-- A name that is declared once is declared at one depth. -/
theorem depth_unique {ds : List (Nat × String)} (hds : (ds.map Prod.snd).Nodup) {k k' : Nat}
    {x : String} (hk : (k, x) ∈ ds) (hk' : (k', x) ∈ ds) : k = k' := by
  induction ds with
  | nil => cases hk
  | cons d ds ih =>
    obtain ⟨hd, hds⟩ := List.nodup_cons.1 hds
    rcases List.mem_cons.1 hk with rfl | hk <;> rcases List.mem_cons.1 hk' with heq | hk'
    · exact (Prod.mk.inj heq).1.symm
    · exact absurd (List.mem_map_of_mem hk') hd
    · exact absurd (List.mem_map_of_mem hk) (heq ▸ hd)
    · exact ih hds hk hk'

/-- **Lookup at a distance and by search agree.**  Take a session and an accepted text, in which no
name is declared that the text or an earlier one declares elsewhere.  Whenever the run of the text
consults a reference that has a distance, lookup at the distance agrees with the search from the
scope in force, unless a variable is assigned inside the expression for its first value before its
scope binds it.  The run asks nothing else of the distances: with any others that are the same where
they are consulted, it ends the same. -/
theorem lookup_agree_iff {ds : List (Nat × String)} {s : Session} (hs : s.History ds)
    {source : String} {program : List Stmt} (hprogram : s.acceptedProgram? source = some program)
    (hunique : ((ds ++ declarationsOfBody 0 program).map Prod.snd).Nodup) (n room : Nat) :
    (∀ a m use ref m' d,
      Reaches (.statements n room program) (s.parsedProgram source).1.machine a m →
      (use, ref, m') ∈ a.consults m → m'.distances[ref.id]? = some d →
      (m'.heap.Agree m'.current d ref.name ↔ ¬ Premature a use ref d m')) ∧
    ∀ D, Heeds D (.statements n room program) (s.parsedProgram source).1.machine →
      Indifferent D (execAll n room program) (s.parsedProgram source).1.machine := by
  refine ⟨?_, fun D hD => (locality D n).execAll room program hD⟩
  intro a m use ref m' d hreach hmem hd
  -- Nothing may be declared but what is, so that a name tells the depth of its declaration.
  let M : Nat → String → Prop := fun k x => (k, x) ∈ ds ++ declarationsOfBody 0 program
  have hM : ∀ d ∈ ds, M d.1 d.2 := fun d hd => List.mem_append_left _ hd
  obtain ⟨μ, hagrees⟩ := hs.agrees hM
  obtain ⟨_, ha, hcases⟩ := Session.parsedProgram_cases s hagrees.fresh source
  unfold Session.acceptedProgram? at hprogram
  generalize s.parsedProgram source = parsed at ha hcases hprogram hreach
  obtain ⟨s₁, result⟩ := parsed
  dsimp only at ha hcases hprogram hreach
  rcases hcases with rfl | ⟨program', rfl, -, haccepted⟩
  · cases hprogram
  obtain rfl : program' = program := Option.some.inj hprogram
  have hscoped := haccepted M fun d hd => List.mem_append_right _ hd
  have hsound := hreach.sound ((hagrees.advances ha).sound hscoped n room)
  exact hsound.agree_iff (fun k k' x hk hk' => depth_unique hunique hk hk') hmem hd

/-- The variable of a block, and the reference that its initializer assigns, in a program that is
nothing else. -/
def ownAssignment? : List Stmt → Option (Token × Reference)
  | [.block [.var name (some (.assign ref (.literal _)))]] => some (name, ref)
  | _ => none

theorem eq_of_ownAssignment? {program : List Stmt} {name : Token} {ref : Reference}
    (h : ownAssignment? program = some (name, ref)) :
    ∃ value, program = [.block [.var name (some (.assign ref (.literal value)))]] := by
  unfold ownAssignment? at h
  split at h
  · obtain ⟨rfl, rfl⟩ := Prod.mk.inj (Option.some.inj h)
    exact ⟨_, rfl⟩
  · cases h

/-- The exception is real: a variable of a block that is assigned inside its own initializer. -/
theorem lookup_agree_iff_own_initializer :
    let s := Session.initial default false
    let source := "\x7b var a = a = 1; \x7d"
    s.History [] ∧ ∃ program a m ref m', s.acceptedProgram? source = some program ∧
      ((declarationsOfBody 0 program).map Prod.snd).Nodup ∧
      Reaches (.statements 9 0 program) (s.parsedProgram source).1.machine a m ∧
      (.write, ref, m') ∈ a.consults m ∧ m'.distances[ref.id]? = some 0 ∧
      ¬ m'.heap.Agree m'.current 0 ref.name := by
  intro s source
  have hshape : ((s.acceptedProgram? source).bind ownAssignment?).any (fun found =>
      found.1.lexeme == found.2.name.lexeme &&
        (s.parsedProgram source).1.machine.distances[found.2.id]? == some 0) = true := by
    decide +kernel
  obtain ⟨⟨name, ref⟩, hfound, hboth⟩ := (Option.any_eq_true ..).1 hshape
  obtain ⟨program, hprogram, hown⟩ := Option.bind_eq_some_iff.1 hfound
  obtain ⟨value, rfl⟩ := eq_of_ownAssignment? hown
  obtain ⟨hname, hd⟩ := Bool.and_eq_true_iff.1 hboth
  let m := (s.parsedProgram source).1.machine
  let m₁ := { m with heap := m.heap.push (some m.current) .empty, current := m.heap.size }
  let e : Expr := .assign ref (.literal value)
  have hreach : Reaches (.statements 9 0 [.block [.var name (some e)]]) m
      (.expression (some name) 5 0 e) m₁ :=
    (((Reaches.self.start (.head _)).start (.head _)).start (.head _)).start (.head _)
  have hmem : (Use.write, ref, m₁) ∈ (Activity.expression (some name) 5 0 e).consults m₁ := .head _
  have hdistance : m₁.distances[ref.id]? = some 0 := eq_of_beq hd
  have hunique : ((declarationsOfBody 0 [.block [.var name (some e)]]).map Prod.snd).Nodup := by
    simp [declarationsOfBody, Stmt.declarations]
  have hpremature : Premature (.expression (some name) 5 0 e) .write ref 0 m₁ := by
    refine ⟨rfl, ⟨name, rfl, eq_of_beq hname⟩, m.heap.size, rfl, ?_⟩
    simp [m₁, Heap.binds, Heap.get?_push]
  have hs : s.History [] := .initial default false
  have hiff := (lookup_agree_iff hs hprogram hunique 9 0).1 _ m₁ .write ref m₁ 0 hreach hmem
    hdistance
  refine ⟨hs, _, _, m₁, ref, m₁, hprogram, hunique, hreach, hmem, hdistance, fun hagree => ?_⟩
  exact hiff.1 hagree hpremature

end Lox
