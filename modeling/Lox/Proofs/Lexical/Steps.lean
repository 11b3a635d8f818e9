/-
**Steps that end alike.**

A step of a machine and a step of a corresponding state *end alike* when they give the same value
or the same interrupt, and machine and state correspond again.  Faults are no such end: where steps
end alike, the library is not misused.

Main definitions:

* `Lox.Interrupt.IsHarmless` — the interrupts that a program may end with;
* `Lox.EndsAlike` — **two steps end alike**.

Main results:

* `Lox.EndsAlike.bind` — steps that end alike may be put together;
* `Lox.lookUp_alike`, `Lox.assign_alike`, `Lox.this_alike`, `Lox.superMethod_alike` —
  **references**;
* `Lox.bindMethod_alike`, `Lox.getProperty_alike`, `Lox.callNative_alike` — objects and native
  functions.
-/

import Lox.Proofs.Lexical.Tables
import Lox.Proofs.Sequence

set_option relaxedAutoImplicit false
set_option autoImplicit false

namespace Lox

open Placement

/-! ### Ending alike -/

/-- The interrupts that a program may end with: its own mistakes, a `return` inside a body, and the
end of the allowance. -/
def Interrupt.IsHarmless (inBody : Bool) : Interrupt → Prop
  | .error _ => True
  | .returned _ => inBody = true
  | .fault _ => False
  | .outOfFuel => True

theorem Interrupt.IsHarmless.mono {inBody inBody' : Bool} {i : Interrupt} (hi : i.IsHarmless inBody)
    (hb : inBody = true → inBody' = true) : i.IsHarmless inBody' := by
  cases i with
  | returned v => exact hb hi
  | _ => exact hi

/-- Two steps **end alike**: with results related by `Q` or with the same harmless interrupt, and
with machine and state corresponding again.  Only the scopes named by `S` have new variables, and
the scope in force is the one before. -/
inductive EndsAlike {α β : Type} (L : Ledger) (S : Nat → String → Prop) (inBody : Bool)
    (W : Placement) (m : Machine) (Q : Placement → Machine → α → β → Prop) :
    EStateM.Result Interrupt Machine α → EStateM.Result Interrupt Lexical.State β → Prop
  | ok {a : α} {b : β} {W' : Placement} {m' : Machine} {μ' : Lexical.State}
      (grows : Grows S W m.heap W' m'.heap) (current : m'.current = m.current)
      (corresponds : Corresponds L W' m' μ') (result : Q W' m' a b) :
      EndsAlike L S inBody W m Q (.ok a m') (.ok b μ')
  | error {i : Interrupt} {W' : Placement} {m' : Machine} {μ' : Lexical.State}
      (harmless : i.IsHarmless inBody) (grows : Grows S W m.heap W' m'.heap)
      (current : m'.current = m.current) (corresponds : Corresponds L W' m' μ') :
      EndsAlike L S inBody W m Q (.error i m') (.error i μ')

/-- The results are the same value. -/
def Same {α : Type} : Placement → Machine → α → α → Prop := fun _ _ a b => b = a

/-- Nothing is known of the results. -/
def Whatever {α β : Type} : Placement → Machine → α → β → Prop := fun _ _ _ _ => True

namespace EndsAlike

variable {α β α' β' : Type} {L : Ledger} {S T : Nat → String → Prop} {inBody inBody' : Bool}
  {W : Placement} {m : Machine} {μ : Lexical.State} {Q : Placement → Machine → α → β → Prop}
  {Q' : Placement → Machine → α' → β' → Prop}

theorem pure {a : α} {b : β} (hc : Corresponds L W m μ) (hq : Q W m a b) :
    EndsAlike L S inBody W m Q ((Pure.pure a : Run α) m) ((Pure.pure b : Lexical.Run β) μ) :=
  .ok (.refl S W m.heap) rfl hc hq

theorem throw {i : Interrupt} (hc : Corresponds L W m μ) (hi : i.IsHarmless inBody) :
    EndsAlike L S inBody W m Q ((MonadExcept.throw i : Run α) m)
      ((MonadExcept.throw i : Lexical.Run β) μ) :=
  .error hi (.refl S W m.heap) rfl hc

theorem mono {r : EStateM.Result Interrupt Machine α}
    {r' : EStateM.Result Interrupt Lexical.State β} (h : EndsAlike L S inBody W m Q r r')
    (hS : ∀ j x, S j x → T j x) (hb : inBody = true → inBody' = true) :
    EndsAlike L T inBody' W m Q r r' := by
  cases h with
  | ok hg hcur hc hq => exact .ok (hg.mono hS) hcur hc hq
  | error hi hg hcur hc => exact .error (hi.mono hb) (hg.mono hS) hcur hc

/-- What has been done before a step belongs to the whole. -/
theorem after {W₁ : Placement} {m₁ : Machine} {r : EStateM.Result Interrupt Machine α}
    {r' : EStateM.Result Interrupt Lexical.State β} (hg : Grows T W m.heap W₁ m₁.heap)
    (hcur : m₁.current = m.current) (hS : ∀ j x, j < m.heap.size → S j x → T j x)
    (h : EndsAlike L S inBody W₁ m₁ Q r r') : EndsAlike L T inBody W m Q r r' := by
  cases h with
  | ok hg' hcur' hc' hq' => exact .ok (hg.trans hg' hS) (hcur'.trans hcur) hc' hq'
  | error hi hg' hcur' hc' => exact .error hi (hg.trans hg' hS) (hcur'.trans hcur) hc'

/-- Steps that end alike may be put together; what the first one may do, the whole may do. -/
theorem andThen {x : Run α} {y : Lexical.Run β} {f : α → Run α'} {g : β → Lexical.Run β'}
    {m₁ : Machine} (hx : EndsAlike L S inBody W m Q (x m₁) (y μ)) (hS : ∀ j x, S j x → T j x)
    (hb : inBody = true → inBody' = true)
    (hf : ∀ {a b W' m' μ'}, Grows S W m.heap W' m'.heap → m'.current = m.current →
      Corresponds L W' m' μ' → Q W' m' a b → EndsAlike L T inBody' W' m' Q' (f a m') (g b μ')) :
    EndsAlike L T inBody' W m Q' ((x >>= f) m₁) ((y >>= g) μ) := by
  change EndsAlike L T inBody' W m Q' (EStateM.bind x f m₁) (EStateM.bind y g μ)
  unfold EStateM.bind
  generalize x m₁ = r at hx ⊢
  generalize y μ = r' at hx ⊢
  cases hx with
  | ok hg hcur hc hq => exact .after (hg.mono hS) hcur (fun _ _ _ h => h) (hf hg hcur hc hq)
  | error hi hg hcur hc => exact .error (hi.mono hb) (hg.mono hS) hcur hc

/-- Steps that end alike may be put together. -/
theorem bind {x : Run α} {y : Lexical.Run β} {f : α → Run α'} {g : β → Lexical.Run β'}
    {m₁ : Machine} (hx : EndsAlike L S inBody W m Q (x m₁) (y μ))
    (hf : ∀ {a b W' m' μ'}, Grows S W m.heap W' m'.heap → m'.current = m.current →
      Corresponds L W' m' μ' → Q W' m' a b → EndsAlike L S inBody W' m' Q' (f a m') (g b μ')) :
    EndsAlike L S inBody W m Q' ((x >>= f) m₁) ((y >>= g) μ) :=
  hx.andThen (fun _ _ h => h) (fun h => h) hf

/-- An expression is evaluated first: it declares nothing and does not return. -/
theorem bindEval {x : Run α} {y : Lexical.Run β} {f : α → Run α'} {g : β → Lexical.Run β'}
    (hx : EndsAlike L Nowhere false W m Q (x m) (y μ))
    (hf : ∀ {a b W' m' μ'}, Grows Nowhere W m.heap W' m'.heap → m'.current = m.current →
      Corresponds L W' m' μ' → Q W' m' a b → EndsAlike L T inBody' W' m' Q' (f a m') (g b μ')) :
    EndsAlike L T inBody' W m Q' ((x >>= f) m) ((y >>= g) μ) :=
  hx.andThen (fun _ _ h => h.elim) (fun h => absurd h (by simp)) hf

/-- A step that names no new variables, as part of one that may. -/
theorem anywhere {r : EStateM.Result Interrupt Machine α}
    {r' : EStateM.Result Interrupt Lexical.State β}
    (h : EndsAlike L Nowhere false W m Q r r') : EndsAlike L T inBody' W m Q r r' :=
  h.mono (fun _ _ hS => hS.elim) (fun hb => absurd hb (by simp))

theorem imp {r : EStateM.Result Interrupt Machine α} {r' : EStateM.Result Interrupt Lexical.State β}
    {P : Placement → Machine → α → β → Prop} (h : EndsAlike L S inBody W m Q r r')
    (hQ : ∀ {W' m' a b}, Grows S W m.heap W' m'.heap → m'.current = m.current → Q W' m' a b →
      P W' m' a b) : EndsAlike L S inBody W m P r r' := by
  cases h with
  | ok hg hcur hc hq => exact .ok hg hcur hc (hQ hg hcur hq)
  | error hi hg hcur hc => exact .error hi hg hcur hc

/-- The one side gives something else in the end. -/
theorem returning {r : EStateM.Result Interrupt Machine α} {y : Lexical.Run β} {c : β'}
    {P : Placement → Machine → α → β' → Prop} (h : EndsAlike L S inBody W m Q r (y μ))
    (hP : ∀ {W' m' a b}, Grows S W m.heap W' m'.heap → m'.current = m.current → Q W' m' a b →
      P W' m' a c) :
    EndsAlike L S inBody W m P r ((do let _ ← y; return c : Lexical.Run β') μ) := by
  change EndsAlike L S inBody W m P r (EStateM.bind y (fun _ => Pure.pure c) μ)
  unfold EStateM.bind
  generalize y μ = r' at h ⊢
  cases h with
  | ok hg hcur hc hq => exact .ok hg hcur hc (hP hg hcur hq)
  | error hi hg hcur hc => exact .error hi hg hcur hc

end EndsAlike

/-! ### References -/

section

variable {L : Ledger} {W : Placement} {m : Machine} {μ : Lexical.State} {Γ : Scopes}
  {ρ : Lexical.Names} {ref : Reference}

theorem lookUp_eq (ref : Reference) (m : Machine) :
    lookUp ref m =
      match m.distances[ref.id]? with
      | some d => Run.ofDistance (m.heap.getAt m.current d ref.name.lexeme) m
      | none => Run.ofSearch (m.heap.get Machine.globalScope ref.name) m := by
  change (match m.distances[ref.id]? with
    | some d => Run.ofDistance (m.heap.getAt m.current d ref.name.lexeme)
    | none => Run.ofSearch (m.heap.get Machine.globalScope ref.name)) m = _
  cases m.distances[ref.id]? <;> rfl

theorem targetOf_eq (ref : Reference) (m : Machine) :
    targetOf ref m =
      match m.distances[ref.id]? with
      | some d => Run.ofDistance (m.heap.ancestor m.current d) m
      | none => Run.ofSearch (m.heap.find Machine.globalScope ref.name) m := by
  change (match m.distances[ref.id]? with
    | some d => Run.ofDistance (m.heap.ancestor m.current d)
    | none => Run.ofSearch (m.heap.find Machine.globalScope ref.name)) m = _
  cases m.distances[ref.id]? <;> rfl

theorem Heap.ancestor_eq {α : Type} {h : Heap α} {i d j : Nat} (hj : h.ancestor? i d = some j) :
    h.ancestor i (d : Int) = .ok j := by
  simp [Heap.ancestor, hj]

theorem Heap.getAt_eq {α : Type} {h : Heap α} {i d j : Nat} {x : String} {v : α}
    (hj : h.ancestor? i d = some j) (hv : h.get? j x = some v) : h.getAt i (d : Int) x = .ok v := by
  simp only [Heap.getAt, Heap.ancestor_eq hj]
  simp [bind, Except.bind, hv]

/-- The variable of a name that is held at a distance has the value of its cell. -/
theorem Corresponds.value (hc : Corresponds L W m μ) (hm : Mirrors W m.heap Γ m.current ρ)
    {x : String} {d : Nat} (hx : Γ.nearest? x = some (d, .defined)) :
    ∃ j c v, m.heap.ancestor? m.current d = some j ∧ m.heap.get? j x = some v ∧
      ρ.cell? x = some c ∧ W j x = some c ∧ μ.cell? c = some v := by
  obtain ⟨j, c, hj, hplace, hcell, hb⟩ := hm.nearest hx
  obtain ⟨v, hv⟩ := (Heap.binds_eq_true_iff ..).1 (hb rfl)
  refine ⟨j, c, v, hj, hv, hcell, hplace, ?_⟩
  rw [Lexical.State.cell?, ← hc.stores.stored j x c hplace, hv]

theorem find_global (hc : Corresponds L W m μ) (name : Token) :
    m.heap.find Machine.globalScope name =
      if μ.globals.binds name.lexeme then .ok Machine.globalScope
      else .error (Heap.undefined name) := by
  have howner : m.heap.owner? Machine.globalScope name.lexeme =
      if μ.globals.binds name.lexeme then some Machine.globalScope else none := by
    rw [Heap.owner?, hc.stores.chain_global, List.find?_singleton, Heap.binds,
      hc.stores.get?_global, Bindings.binds]
  rw [Heap.find, howner]
  cases μ.globals.binds name.lexeme <;> rfl

theorem get_global (hc : Corresponds L W m μ) (name : Token) :
    m.heap.get Machine.globalScope name =
      match μ.globals.get? name.lexeme with
      | some v => .ok v
      | none => .error (Heap.undefined name) := by
  rw [Heap.get, find_global hc]
  cases hv : μ.globals.get? name.lexeme with
  | none => simp [Bindings.binds, hv, bind, Except.bind]
  | some v => simp [Bindings.binds, hv, bind, Except.bind, hc.stores.get?_global]

/-- A variable that is read. -/
theorem lookUp_alike (hc : Corresponds L W m μ) (hm : Mirrors W m.heap Γ m.current ρ)
    (hr : ref.ReadScoped L Γ) :
    EndsAlike L Nowhere false W m Same (lookUp ref m) (Lexical.lookUp ρ ref.name μ) := by
  obtain ⟨⟨-, -, hd⟩, hready⟩ := hr
  rw [lookUp_eq, hc.distances, hd]
  cases hx : Γ.nearest? ref.name.lexeme with
  | none =>
    simp only [Option.map_none, get_global hc, Lexical.lookUp, hm.nearest_none hx]
    change EndsAlike L Nowhere false W m Same _
      ((match μ.globals.get? ref.name.lexeme with
        | some v => Pure.pure v
        | none => MonadExcept.throw (Interrupt.at ref.name (.undefinedVariable ref.name.lexeme))
        : Lexical.Run Value) μ)
    cases μ.globals.get? ref.name.lexeme with
    | none => exact .throw hc trivial
    | some v => exact .pure hc rfl
  | some found =>
    obtain ⟨d, state⟩ := found
    cases state with
    -- A name that waits for its value is not read.
    | declared => exact absurd hx (hready d)
    | defined =>
      obtain ⟨j, c, v, hj, hv, hcell, -, hcv⟩ := hc.value hm hx
      simp only [Option.map_some, Heap.getAt_eq hj hv, Lexical.lookUp, hcell]
      change EndsAlike L Nowhere false W m Same _
        ((match μ.cell? c with
          | some v => Pure.pure v
          | none => MonadExcept.throw (Interrupt.fault (.unbound ref.name.lexeme 0))
          : Lexical.Run Value) μ)
      rw [hcv]
      exact .pure hc rfl

/-- A variable that is assigned. -/
theorem assign_alike (hc : Corresponds L W m μ) (hm : Mirrors W m.heap Γ m.current ρ)
    (hr : ref.WriteScoped L Γ) (v : Value) :
    EndsAlike L Nowhere false W m Same
      ((do Run.store (← targetOf ref) ref.name.lexeme v; return v : Run Value) m)
      ((do Lexical.assign ρ ref.name v; return v : Lexical.Run Value) μ) := by
  obtain ⟨hplain, -, hd⟩ := hr
  have htarget := targetOf_eq ref m
  rw [hc.distances, hd] at htarget
  cases hx : Γ.nearest? ref.name.lexeme with
  | none =>
    rw [hx] at htarget
    simp only [Option.map_none, find_global hc] at htarget
    have hassign : Lexical.assign ρ ref.name v μ =
        (if μ.globals.binds ref.name.lexeme then Lexical.Run.setGlobal ref.name.lexeme v
          else MonadExcept.throw (.at ref.name (.undefinedVariable ref.name.lexeme))
          : Lexical.Run Unit) μ := by
      rw [Lexical.assign, hm.nearest_none hx]
      rfl
    cases hb : μ.globals.binds ref.name.lexeme with
    | false =>
      rw [hb] at htarget hassign
      rw [bind_error htarget, bind_error hassign]
      exact .throw hc trivial
    | true =>
      rw [hb] at htarget hassign
      rw [bind_ok htarget, bind_ok hassign]
      have hg : Grows Nowhere W m.heap W (m.heap.define Machine.globalScope ref.name.lexeme v) :=
        .of_extends _ W (Heap.extends_define ..)
      exact .ok hg rfl (hc.withHeap hg (fun _ _ hS => hS.elim) (hc.stores.writeGlobal _ v)) rfl
  | some found =>
    obtain ⟨d, state⟩ := found
    -- The variable need not be bound yet: what counts is that it has its cell.
    obtain ⟨j, c, hj, hplace, hcell, -⟩ := hm.nearest hx
    rw [hx] at htarget
    simp only [Option.map_some, Heap.ancestor_eq hj] at htarget
    rw [bind_ok htarget, Lexical.assign, hcell]
    have hg : Grows Nowhere W m.heap W (m.heap.define j ref.name.lexeme v) :=
      .of_extends _ W (Heap.extends_define ..)
    have hs := hc.stores.write (v := v) hplace fun h => absurd h hplain.2
    exact .ok hg rfl (hc.withHeap hg (fun _ _ hS => hS.elim) hs) rfl

/-- The value of a name that is local for certain. -/
theorem lookUpLocal_eq {x : String} {c : Nat} {v : Value} (hcell : ρ.cell? x = some c)
    (hv : μ.cell? c = some v) : Lexical.lookUpLocal ρ x μ = .ok v μ := by
  rw [Lexical.lookUpLocal, hcell]
  change (match μ.cell? c with
    | some v => Pure.pure v
    | none => MonadExcept.throw (Interrupt.fault (.unbound x 0)) : Lexical.Run Value) μ = _
  rw [hv]
  rfl

/-- The object that a method is bound to. -/
theorem this_alike (hc : Corresponds L W m μ) (hm : Mirrors W m.heap Γ m.current ρ)
    (hr : ref.ThisScoped L Γ) :
    EndsAlike L Nowhere false W m Same (lookUp ref m) (Lexical.lookUpLocal ρ thisName μ) := by
  obtain ⟨hname, d, ⟨-, hd⟩, hx⟩ := hr
  obtain ⟨j, c, v, hj, hv, hcell, -, hcv⟩ := hc.value hm hx
  rw [lookUp_eq, hc.distances, hd, hname, lookUpLocal_eq hcell hcv]
  simp only [Heap.getAt_eq hj hv]
  exact .pure hc rfl

/-! ### Methods and functions -/

theorem newClosure_alike {S : Nat → String → Prop} {inBody : Bool} (hc : Corresponds L W m μ)
    {c : Closure} {c' : Lexical.Closure} (hcc : ClosureMirrors L W m.heap c c') :
    EndsAlike L S inBody W m Same (Run.newClosure c m) (Lexical.Run.newClosure c' μ) := by
  refine .ok (.refl ..) rfl (hc.newClosure hcc) ?_
  change Value.closure μ.closures.size = Value.closure m.closures.size
  rw [hc.closures_size]

/-- A new scope that binds `this` or `super` from the start. -/
theorem Corresponds.special (hc : Corresponds L W m μ) {i : Nat} (hm : Mirrors W m.heap Γ i ρ)
    {x : String} {v : Value} (hx : ¬ IsPlain x) (hsuper : x = superName → ∃ id, v = .cls id) :
    ∃ W', Grows Nowhere W m.heap W' (m.heap.push (some i) (Bindings.empty.set x v)) ∧
      Corresponds L W' { m with heap := m.heap.push (some i) (Bindings.empty.set x v) }
        { μ with cells := μ.cells.push (some v) } ∧
      Mirrors W' (m.heap.push (some i) (Bindings.empty.set x v))
        (Bindings.empty.set x .defined :: Γ) m.heap.size (ρ.bind x μ.cells.size) := by
  have hpos : 0 < m.heap.size := hc.stores.size_pos
  have hlt : m.heap.size < (m.heap.push (some i) .empty).size := by simp
  have hfree := hc.stores.not_placed_of_le (Nat.le_refl m.heap.size) x
  have hs := hc.stores.push (i := i) |>.bind hpos hlt hfree (fun h => absurd h hx) hsuper
  have hdefine := Heap.push_define m.heap (some i) .empty x v
  have hext : (m.heap.push (some i) .empty).Extends _ := Heap.extends_define _ m.heap.size x v
  rw [hdefine] at hs hext
  have hg : Grows Nowhere W m.heap (W.place m.heap.size x μ.cells.size)
      (m.heap.push (some i) (Bindings.empty.set x v)) := by
    -- The new variable is in a scope that was not there before.
    have hplace := Grows.place (S := fun j _ => j = m.heap.size)
      (h := m.heap.push (some i) (Bindings.empty.set x v)) μ.cells.size hfree rfl
    refine (Grows.of_extends Nowhere W (Heap.extends_push ..)).trans hplace ?_
    intro j _ hj hS
    exact absurd hS (Nat.ne_of_lt hj)
  refine ⟨_, hg, hc.withHeap hg (fun _ _ hS => hS.elim) hs, ?_⟩
  have hnew := (hm.push hc.stores).mono (.of_extends Nowhere W hext) fun _ _ hS => hS.elim
  have hbinds : (m.heap.push (some i) (Bindings.empty.set x v)).binds m.heap.size x = true := by
    rw [Heap.binds, Heap.get?_push, if_pos rfl]
    simp
  exact hnew.declare fun _ => hbinds

theorem not_isPlain_this : ¬ IsPlain thisName := fun h => h.1 rfl

theorem not_isPlain_super : ¬ IsPlain superName := fun h => h.2 rfl

/-- A method that is bound to an object. -/
theorem bindMethod_alike (hc : Corresponds L W m μ) {c : Closure} {c' : Lexical.Closure}
    (hcc : MethodMirrors L W m.heap c c') (object : Value) :
    EndsAlike L Nowhere false W m
      (fun W' m' a b => ClosureMirrors L W' m'.heap a b ∧ a.routine = c.routine)
      (Run.bindMethod c object m) (Lexical.Run.bindMethod c' object μ) := by
  obtain ⟨Γ, hm, hr⟩ := hcc.body
  obtain ⟨W', hg, hc', hm'⟩ := hc.special hm (v := object) not_isPlain_this
    fun h => absurd h (by decide)
  refine .ok hg rfl hc' ⟨⟨hcc.routine, hcc.isInitializer, ?_⟩, rfl⟩
  exact ⟨thisScope :: Γ, hm', hr, fun _ => rfl⟩

/-- What the search for a method gives is bound to an object and made a value, or is an error. -/
theorem boundMethod_alike (hc : Corresponds L W m μ) (object : Value) (name : Token)
    (cause : RuntimeCause) (found : Option Closure) (found' : Option Lexical.Closure) :
    Option.Rel (MethodMirrors L W m.heap) found found' → EndsAlike L Nowhere false W m Same
      ((match found with
        | some c => do Run.newClosure (← Run.bindMethod c object)
        | none => MonadExcept.throw (.at name cause) : Run Value) m)
      ((match found' with
        | some c => do Lexical.Run.newClosure (← Lexical.Run.bindMethod c object)
        | none => MonadExcept.throw (.at name cause) : Lexical.Run Value) μ) := by
  intro hf
  cases hf with
  | none => exact .throw hc trivial
  | some hcc =>
    exact (bindMethod_alike hc hcc object).bind fun _ _ hc' hq => newClosure_alike hc' hq.1

/-- A method of the superclass. -/
theorem superMethod_alike (hc : Corresponds L W m μ) (hm : Mirrors W m.heap Γ m.current ρ)
    (hr : ref.SuperScoped L Γ) (method : Token) :
    EndsAlike L Nowhere false W m Same (superMethod ref method m)
      (Lexical.superMethod ρ method μ) := by
  obtain ⟨-, d, ⟨-, hd⟩, hsuper, hthis⟩ := hr
  obtain ⟨j, c, v, hj, hv, hcell, hplace, hcv⟩ := hc.value hm hsuper
  obtain ⟨j', c', v', hj', hv', hcell', -, hcv'⟩ := hc.value hm hthis
  obtain ⟨id, rfl⟩ := hc.stores.supers j v (hc.stores.placed j _ c hplace).1 hv
  -- The scope of `this` is looked for one step before that of `super`.
  have hcloser : ((d + 1 : Nat) : Int) - 1 = (d : Int) := by omega
  have hleft : superMethod ref method m =
      (match m.classes.findMethod id method.lexeme with
        | some found => do Run.newClosure (← Run.bindMethod found v')
        | none => MonadExcept.throw (.at method (.undefinedProperty method.lexeme))
        : Run Value) m := by
    unfold superMethod
    rw [get_bind, hc.distances, hd]
    simp only [hcloser, Heap.getAt_eq hj hv, Heap.getAt_eq hj' hv']
    rfl
  have hright : Lexical.superMethod ρ method μ =
      (match μ.findMethod id method.lexeme with
        | some found => do Lexical.Run.newClosure (← Lexical.Run.bindMethod found v')
        | none => MonadExcept.throw (.at method (.undefinedProperty method.lexeme))
        : Lexical.Run Value) μ := by
    rw [Lexical.superMethod, bind_ok (lookUpLocal_eq hcell hcv),
      bind_ok (lookUpLocal_eq hcell' hcv')]
    rfl
  rw [hleft, hright]
  exact boundMethod_alike hc v' method _ _ _ (hc.findMethod id method.lexeme)

/-- A property of an object. -/
theorem getProperty_alike (hc : Corresponds L W m μ) (id : Nat) (name : Token) :
    EndsAlike L Nowhere false W m Same (getProperty id name m) (Lexical.getProperty id name μ) := by
  have hright : Lexical.getProperty id name μ =
      (match (μ.objects[id]?).bind (·.fields.get? name.lexeme) with
        | some v => Pure.pure v
        | none =>
          match (μ.objects[id]?).bind fun o => μ.findMethod o.cls name.lexeme with
          | some method => do
            Lexical.Run.newClosure (← Lexical.Run.bindMethod method (.object id))
          | none => MonadExcept.throw (.at name (.undefinedProperty name.lexeme))
        : Lexical.Run Value) μ := rfl
  have hleft : getProperty id name m =
      (match (m.objects[id]?).bind (·.fields.get? name.lexeme) with
        | some v => Pure.pure v
        | none =>
          match (m.objects[id]?).bind fun o => m.classes.findMethod o.cls name.lexeme with
          | some method => do Run.newClosure (← Run.bindMethod method (.object id))
          | none => MonadExcept.throw (.at name (.undefinedProperty name.lexeme))
        : Run Value) m := rfl
  rw [hleft, hright, hc.objects]
  cases m.objects[id]? with
  | none => exact .throw hc trivial
  | some o =>
    simp only [Option.bind_some]
    cases o.fields.get? name.lexeme with
    | some v => exact .pure hc rfl
    | none => exact boundMethod_alike hc (.object id) name _ _ _ (hc.findMethod o.cls name.lexeme)

/-! ### Other steps -/

theorem newObject_alike (hc : Corresponds L W m μ) (cls : Nat) :
    EndsAlike L Nowhere false W m Same (Run.newObject cls m) (Lexical.Run.newObject cls μ) := by
  refine .ok (.refl ..) rfl { hc with objects := ?_ } ?_
  · change μ.objects.push _ = m.objects.push _
    rw [hc.objects]
  · change Value.object μ.objects.size = Value.object m.objects.size
    rw [hc.objects]

theorem setField_alike (hc : Corresponds L W m μ) (object : Nat) (x : String) (v : Value) :
    EndsAlike L Nowhere false W m Whatever (Run.setField object x v m)
      (Lexical.Run.setField object x v μ) := by
  refine .ok (.refl ..) rfl { hc with objects := ?_ } trivial
  simp only [hc.objects]

theorem print_alike (hc : Corresponds L W m μ) (line : String) :
    EndsAlike L Nowhere false W m Whatever (Run.print line m) (Lexical.Run.print line μ) := by
  refine .ok (.refl ..) rfl { hc with printed := ?_ } trivial
  change μ.printed.push line = m.printed.push line
  rw [hc.printed]

/-- A call of a native function. -/
theorem callNative_alike (hc : Corresponds L W m μ) (f : Native) (arguments : List Value) :
    EndsAlike L Nowhere false W m Same (callNative f arguments m)
      (Lexical.callNative f arguments μ) := by
  unfold callNative Lexical.callNative
  rw [get_bind, get_bind]
  have htext : μ.text = m.text := funext hc.text_eq
  cases f.action with
  | clock => exact .pure hc (by rw [Same, hc.time])
  | echo => exact .pure hc (by rw [Same, htext])
  | fail message => exact .throw hc trivial
  | compute g =>
    simp only
    cases g arguments with
    | ok v => exact .pure hc rfl
    | error e => exact .throw hc trivial

/-- An operator gives a value or a mistake of the program where it belongs. -/
theorem ofOperator_alike (hc : Corresponds L W m μ) {r : Except Interrupt Value}
    (hr : ∀ i, r = .error i → i.IsHarmless false) :
    EndsAlike L Nowhere false W m Same (Run.ofOperator r m) (Lexical.ofOperator r μ) := by
  cases r with
  | ok v => exact .pure hc rfl
  | error i => exact .throw hc (hr i rfl)

end

/-! ### Operators -/

/-- The operators with one operand are never misused. -/
theorem applyUnary_harmless {operator : Token} (hop : operator.kind ∈ unaryOperators) {v : Value}
    {i : Interrupt} (h : applyUnary operator v = .error i) : i.IsHarmless false := by
  simp only [unaryOperators, List.mem_cons, List.not_mem_nil, or_false] at hop
  rcases hop with hk | hk
  · simp [applyUnary, hk] at h
  · simp only [applyUnary, hk] at h
    split at h
    · exact absurd h (by simp)
    · obtain rfl := Except.error.inj h
      trivial

theorem onNumbers_harmless {operator : Token} {f : Number → Number → Except Interrupt Value}
    (hf : ∀ x y i, f x y = .error i → i.IsHarmless false) {v w : Value} {i : Interrupt}
    (h : onNumbers operator f v w = .error i) : i.IsHarmless false := by
  unfold onNumbers at h
  split at h
  · exact hf _ _ i h
  · obtain rfl := Except.error.inj h
    trivial

/-- The operators with two operands are never misused. -/
theorem applyBinary_harmless {operator : Token} (hop : operator.kind ∈ binaryOperators)
    {v w : Value} {i : Interrupt} (h : applyBinary v operator w = .error i) :
    i.IsHarmless false := by
  have hok : ∀ (g : Number → Number → Value) x y i,
      (Except.ok (g x y) : Except Interrupt Value) = .error i → i.IsHarmless false := by
    intro g x y i hi
    exact absurd hi (by simp)
  simp only [binaryOperators, Level.operators, List.mem_append, List.mem_cons, List.not_mem_nil,
    or_false] at hop
  rcases hop with (((hk | hk) | hk | hk | hk | hk) | hk | hk) | hk | hk <;>
    simp only [applyBinary, hk] at h
  · exact absurd h (by simp)
  · exact absurd h (by simp)
  · exact onNumbers_harmless (hok _) h
  · exact onNumbers_harmless (hok _) h
  · exact onNumbers_harmless (hok _) h
  · exact onNumbers_harmless (hok _) h
  · -- Sums are of two numbers or of two strings.
    split at h
    · exact absurd h (by simp)
    · exact absurd h (by simp)
    · obtain rfl := Except.error.inj h
      trivial
  · exact onNumbers_harmless (hok _) h
  · exact onNumbers_harmless (hok _) h
  · refine onNumbers_harmless ?_ h
    intro x y i hi
    split at hi
    · obtain rfl := Except.error.inj hi
      trivial
    · exact absurd hi (by simp)

end Lox
