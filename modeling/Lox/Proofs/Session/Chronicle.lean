/-
**The machines of a session.**

A session comes through many machines: the one it begins with, those in the course of every program
and expression that it runs, and those between its steps.  In their order they are its *chronicle*.
On every one of them each scope lies inside an earlier one and the way outward from it ends at the
global scope; each class inherits from an earlier one, and the search for a method ends.  What one
of them has, every later one still has: scopes lie where they lay and names stay bound in them, and
a class keeps its superclass and its methods.

Main definitions:

* `Lox.Machine.Founded` — **a machine all of whose ways and searches end**;
* `Lox.Step.Honest` — a step that registers no function which makes values out of nothing;
* `Lox.Session.Chronicle` — **the machines that a session comes through**.

Main results:

* `Lox.declareClass_inherits` — **a class inherits from the class that its declaration has come
  upon**;
* `Lox.Machine.WellShaped.founded` — the ways and searches end on a machine with the right shape;
* `Lox.Session.Effect.strung` — a step of a session starts its runs one after the other;
* `Lox.Session.ways_end` — **on every machine of a chronicle the ways and searches end**, and each
  machine has grown out of the earlier ones.
-/

import Lox.Proofs.Session.Writes

set_option relaxedAutoImplicit false
set_option autoImplicit false

namespace Lox

/-! ### Class declarations -/

/-- A class declaration that has come upon its superclass makes a class which **inherits from just
that one**: the superclass is there, so it is not dropped. -/
theorem declareClass_inherits {m m' : Machine} (hm : m.WellShaped) (name : Token)
    (superclass : Option Reference) (methods : List Routine) {superclass? : Option Nat}
    (h : superclassOf superclass m = .ok superclass? m') :
    (Run.after (declareClass name superclass methods) m).classes.entries =
      m.classes.entries.push ⟨name.lexeme, superclass?,
        methodTable (superclass?.elim m.current fun _ => m.heap.size) methods⟩ := by
  obtain rfl := eq_of_superclassOf_ok h
  have hsuper := ((Keeps.superclassOf hm superclass).of_ok h).2
  have hkept : superclass?.filter (· < m'.classes.entries.size) = superclass? := by
    cases superclass? with
    | none => rfl
    | some p => exact Option.filter_eq_some_iff.2 ⟨rfl, decide_eq_true (hsuper p rfl)⟩
  -- Nothing behind the new class touches the table.
  have hlast : ∀ (m : Machine) (cls : Value), (Run.after (do
      let m ← get
      Run.store (← Run.ofSearch (m.heap.find m.current name)) name.lexeme cls) m).classes =
        m.classes := by
    intro m cls
    unfold Run.after
    rw [get_bind]
    cases m.heap.find m.current name <;> rfl
  have hmade : (Run.after (declareClass name superclass methods) m').classes = m'.classes.push
      ⟨name.lexeme, superclass?,
        methodTable (superclass?.elim m'.current fun _ => m'.heap.size) methods⟩ := by
    rw [declareClass, Run.after_bind_ok h]
    cases superclass? with
    | none => exact hlast _ _
    | some p =>
      have hsize : (m'.heap.define m'.current name.lexeme .nil).size = m'.heap.size :=
        Heap.size_define ..
      rw [Option.elim_some, ← hsize]
      exact hlast _ _
  rw [hmade]
  change m'.classes.entries.push _ = _
  dsimp only
  rw [hkept]

/-! ### Machines whose ways and searches end -/

/-- The way outward from a scope **ends**, at the global scope, and what is computed goes along it:
the innermost scope that binds a name, and the scope at a distance. -/
structure Heap.Grounded (h : Heap Value) (i : Nat) : Prop where
  ends : ∃ js, h.Walk i js
  last : ∀ js, h.Walk i js → js.getLast? = some Machine.globalScope
  owner : ∀ js, h.Walk i js → ∀ x, h.owner? i x = js.find? fun j => h.binds j x
  ancestor : ∀ js, h.Walk i js → ∀ d, h.ancestor? i d = js[d]?

/-- A machine **all of whose ways and searches end**. -/
structure Machine.Founded (m : Machine) : Prop where
  shaped : m.WellShaped
  /-- A scope lies inside one that was made before it. -/
  enclosing_lt : ∀ i p, m.heap.enclosing? i = some p → p < i
  grounded : ∀ i, i < m.heap.size → m.heap.Grounded i
  /-- A class inherits from one that was made before it. -/
  superclass_lt : ∀ (k : Nat) (info : ClassInfo) p, m.classes.entries[k]? = some info →
    info.superclass = some p → p < k
  search : ∀ k, k < m.classes.entries.size → ∀ x r,
    m.classes.Search x k r ↔ r = m.classes.findMethod k x
  /-- A class that is declared inherits from just the class that its declaration comes upon. -/
  inherits : ∀ (name : Token) superclass methods superclass? m',
    superclassOf superclass m = .ok superclass? m' →
      (Run.after (declareClass name superclass methods) m).classes.entries =
        m.classes.entries.push ⟨name.lexeme, superclass?,
          methodTable (superclass?.elim m.current fun _ => m.heap.size) methods⟩

theorem Machine.WellShaped.grounded {m : Machine} (hm : m.WellShaped) {i : Nat}
    (hi : i < m.heap.size) : m.heap.Grounded i where
  ends := ⟨_, m.heap.walk_chain i⟩
  last := by
    intro js hjs
    rw [m.heap.walk_iff.1 hjs]
    exact hm.getLast?_chain hi
  owner := by
    intro js hjs x
    rw [m.heap.walk_iff.1 hjs]
    rfl
  ancestor := by
    intro js hjs d
    rw [m.heap.walk_iff.1 hjs]
    exact m.heap.ancestor?_eq_getElem? i d

theorem Machine.WellShaped.founded {m : Machine} (hm : m.WellShaped) : m.Founded where
  shaped := hm
  enclosing_lt := fun _ _ => Heap.enclosing?_lt
  grounded := fun _ => hm.grounded
  superclass_lt := m.classes.ordered
  search := fun _ hk x _ => m.classes.search_iff x hk
  inherits := fun name superclass methods _ _ h =>
    declareClass_inherits hm name superclass methods h

/-! ### Steps of a session -/

/-- A step that **registers no dishonest function**: none that makes values out of nothing. -/
def Step.Honest : Step → Prop
  | .register _ f => f.Honest
  | _ => True

namespace Session

variable {s : Session}

/-- What a step does to the machine: it starts what it runs, **one after the other**, and the
machine keeps its shape. -/
theorem Effect.strung {step : Step} {L : List (Activity × Machine)} {m' : Machine}
    (h : s.Effect step L m') (hm : s.machine.WellShaped) (hstep : step.Honest) :
    Strung s.machine L m' := by
  cases h with
  | quiet step printed => exact .nil (.withOutput hm _ printed _)
  | @ran _ a m start supplied printed =>
    have hstart : s.machine.LeadsTo m := start ▸ .withOutput hm _ _ _
    have hleaves := (Activity.strung hstart.shape supplied).leadsTo
    exact .cons hstart supplied hleaves (.nil (.withOutput hleaves.shape _ printed _))
  | registered name f => exact .nil (.register hm name hstep)

/-! ### Chronicles -/

/-- The **chronicle** of a session: all the machines that it comes through, in their order.  Of a
run it has the timeline, as deep as `k` says.  Between the steps the output may be taken away, and
time may pass. -/
inductive Chronicle (k : Nat) : List Machine → Session → Prop
  | initial (time : Number) (traced : Bool) :
      Chronicle k [(Session.initial time traced).machine] (.initial time traced)
  | step {H : List Machine} {s : Session} (h : Chronicle k H s) {step : Step}
      (hstep : step.Honest) :
      Chronicle k (H ++ (s.roots step).flatMap (fun root => root.1.timeline k root.2) ++
        [(s.apply step).1.machine]) (s.apply step).1
  | flush {H : List Machine} {s : Session} (h : Chronicle k H s) :
      Chronicle k (H ++ [s.flush.machine]) s.flush
  | tick {H : List Machine} {s : Session} (h : Chronicle k H s) (time : Number) :
      Chronicle k (H ++ [{ s.machine with time := time }])
        { s with machine := { s.machine with time := time } }

namespace Chronicle

variable {k : Nat} {H : List Machine}

theorem trail (h : Chronicle k H s) : ∃ roots, s.Trail roots := by
  induction h with
  | initial time traced => exact ⟨_, .initial time traced⟩
  | step _ _ ih =>
    obtain ⟨roots, hroots⟩ := ih
    exact ⟨_, hroots.step _⟩
  | flush _ ih =>
    obtain ⟨roots, hroots⟩ := ih
    exact ⟨_, hroots.flush⟩
  | tick _ time ih =>
    obtain ⟨roots, hroots⟩ := ih
    exact ⟨_, hroots.tick time⟩

theorem fresh (h : Chronicle k H s) : s.Fresh := by
  obtain ⟨roots, hroots⟩ := h.trail
  exact (hroots.sane (E := Events.of roots) fun _ => Events.of_covers).fresh

/-- The machines of a chronicle are in order, from the first one to the one at hand. -/
theorem inOrder (h : Chronicle k H s) : ∃ m, InOrder m H s.machine := by
  induction h with
  | initial time traced =>
    have hshape := Machine.WellShaped.initial time
    exact ⟨_, .single (.refl hshape)⟩
  | @step H s h step hstep ih =>
    obtain ⟨m, hm⟩ := ih
    have hstrung := (s.apply_effect h.fresh step).strung hm.leadsTo.shape hstep
    have hrun := hstrung.inOrder (Activity.timeline_inOrder k)
    exact ⟨m, (hm.append hrun).append (.single (.refl hstrung.leadsTo.shape))⟩
  | flush _ ih =>
    obtain ⟨m, hm⟩ := ih
    exact ⟨m, hm.append (.single (.withOutput hm.leadsTo.shape _ _ _))⟩
  | tick _ time ih =>
    obtain ⟨m, hm⟩ := ih
    exact ⟨m, hm.append (.single (.withOutput hm.leadsTo.shape _ _ _))⟩

end Chronicle

/-- **All ways and searches end**, on every machine that a session comes through, in the course of
its runs and between its steps; and each of these machines has grown out of the earlier ones, so
that no scope is moved, no name unbound and no class changed. -/
theorem ways_end {k : Nat} {H : List Machine} (h : Chronicle k H s) :
    H.Pairwise Machine.Extends ∧ ∀ m ∈ H, m.Founded := by
  obtain ⟨m, hm⟩ := h.inOrder
  exact ⟨hm.pairwise, fun m' hm' => (hm.first m' hm').shape.founded⟩

/-- A class that inherits, and a function that returns one of its objects. -/
theorem ways_end_inherited :
    ∃ (H : List Machine) (s : Session), Chronicle 9 H s ∧
      s = ((Session.initial default false).apply (.perform .run
        ("class A \x7b m() \x7b return nil; \x7d \x7d class B < A \x7b \x7d " ++
          "fun f() \x7b return B(); \x7d print f().m();"))).1 ∧
      s.machine.classes.entries.map (·.superclass) = #[none, some 0] ∧
      s.machine.heap.size = 5 ∧ H.length = 44 ∧
      H.Pairwise Machine.Extends ∧ ∀ m ∈ H, m.Founded := by
  have hstep : Step.Honest (.perform .run
      ("class A \x7b m() \x7b return nil; \x7d \x7d class B < A \x7b \x7d " ++
        "fun f() \x7b return B(); \x7d print f().m();")) := trivial
  have h := (Chronicle.initial (k := 9) default false).step hstep
  exact ⟨_, _, h, rfl, by decide +kernel, by decide +kernel, by decide +kernel, ways_end h⟩

end Session

end Lox
