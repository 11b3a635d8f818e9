/-
**A machine and a state that correspond.**

Beyond heap and cells, the two sides keep the same tables: functions, classes and objects have the
same numbers, and a function of the one mirrors the function of the same number of the other.

Main definitions:

* `Lox.ClosureMirrors`, `Lox.MethodMirrors`, `Lox.ClassMirrors` — functions, methods that are not
  bound to an object yet, and classes;
* `Lox.Corresponds` — **a machine and a state that correspond**.

Main results:

* `Lox.Corresponds.findMethod` — the search for a method finds methods that mirror each other;
* `Lox.Corresponds.text_eq`, `Lox.Corresponds.callable` — values are printed alike, and can be
  called alike;
* `Lox.Corresponds.withHeap`, `Lox.Corresponds.newClosure`, `Lox.Corresponds.newClass` — the same
  change on both sides.
-/

import Lox.Proofs.Lexical.Correspondence

set_option relaxedAutoImplicit false
set_option autoImplicit false

namespace Lox

open Placement

/-! ### Functions and classes -/

/-- A function and its counterpart: the scope of the one mirrors the names that the other keeps. -/
structure ClosureMirrors (L : Ledger) (W : Placement) (h : Heap Value) (c : Closure)
    (c' : Lexical.Closure) : Prop where
  routine : c'.routine = c.routine
  isInitializer : c'.isInitializer = c.isInitializer
  body : ∃ Γ : Scopes, Mirrors W h Γ c.scope c'.names ∧ c.routine.Scoped L Γ ∧
    (c.isInitializer = true → Γ.nearest? thisName = some (0, .defined))

/-- A method that is not bound to an object yet: its body lies inside one more scope. -/
structure MethodMirrors (L : Ledger) (W : Placement) (h : Heap Value) (c : Closure)
    (c' : Lexical.Closure) : Prop where
  routine : c'.routine = c.routine
  isInitializer : c'.isInitializer = c.isInitializer
  body : ∃ Γ : Scopes, Mirrors W h Γ c.scope c'.names ∧ c.routine.Scoped L (thisScope :: Γ)

/-- A class and its counterpart among the given classes. -/
structure ClassMirrors (L : Ledger) (W : Placement) (h : Heap Value)
    (classes : Array Lexical.Class) (k : ClassInfo) (k' : Lexical.Class) : Prop where
  superclass_lt : ∀ p, k.superclass = some p → p < classes.size
  methods : ∃ methods', k' = .mk k.name (k.superclass.bind (classes[·]?)) methods' ∧
    ∀ x, Option.Rel (MethodMirrors L W h) (k.methods.get? x) (methods'.get? x)

section

variable {L L' : Ledger} {S : Nat → String → Prop} {W W' : Placement} {h h' : Heap Value}

theorem ClosureMirrors.mono (he : L.Extends L') (hg : Grows S W h W' h')
    (hS : ∀ j x, S j x → IsPlain x) {c : Closure} {c' : Lexical.Closure}
    (hc : ClosureMirrors L W h c c') : ClosureMirrors L' W' h' c c' := by
  obtain ⟨Γ, hm, hr, hi⟩ := hc.body
  exact ⟨hc.routine, hc.isInitializer, Γ, hm.mono hg hS, Routine.Scoped.mono he _ hr, hi⟩

theorem MethodMirrors.mono (he : L.Extends L') (hg : Grows S W h W' h')
    (hS : ∀ j x, S j x → IsPlain x) {c : Closure} {c' : Lexical.Closure}
    (hc : MethodMirrors L W h c c') : MethodMirrors L' W' h' c c' := by
  obtain ⟨Γ, hm, hr⟩ := hc.body
  exact ⟨hc.routine, hc.isInitializer, Γ, hm.mono hg hS, Routine.Scoped.mono he _ hr⟩

theorem optionRel_imp {α β : Type} {P Q : α → β → Prop} (hPQ : ∀ a b, P a b → Q a b) {a : Option α}
    {b : Option β} (hr : Option.Rel P a b) : Option.Rel Q a b := by
  cases hr with
  | some hp => exact .some (hPQ _ _ hp)
  | none => exact .none

theorem ClassMirrors.mono (he : L.Extends L') (hg : Grows S W h W' h')
    (hS : ∀ j x, S j x → IsPlain x) {classes : Array Lexical.Class} {k : ClassInfo}
    {k' : Lexical.Class} (hk : ClassMirrors L W h classes k k') :
    ClassMirrors L' W' h' classes k k' := by
  obtain ⟨methods', hk', hms⟩ := hk.methods
  exact ⟨hk.superclass_lt, methods', hk',
    fun x => optionRel_imp (fun _ _ hm => hm.mono he hg hS) (hms x)⟩

/-- Classes are not changed by later ones. -/
theorem ClassMirrors.push {classes : Array Lexical.Class} {k : ClassInfo} {k' : Lexical.Class}
    (hk : ClassMirrors L W h classes k k') (new : Lexical.Class) :
    ClassMirrors L W h (classes.push new) k k' := by
  obtain ⟨methods', hk', hms⟩ := hk.methods
  refine ⟨fun p hp => ?_, methods', ?_, hms⟩
  · rw [Array.size_push]
    exact Nat.lt_succ_of_lt (hk.superclass_lt p hp)
  · rw [hk']
    cases hp : k.superclass with
    | none => rfl
    | some p =>
      have hlt := hk.superclass_lt p hp
      simp only [Option.bind_some]
      rw [Array.getElem?_push, if_neg (Nat.ne_of_lt hlt)]

end

/-! ### Correspondence -/

/-- A machine and a state **correspond**. -/
structure Corresponds (L : Ledger) (W : Placement) (m : Machine) (μ : Lexical.State) : Prop where
  stores : Stores L W m.heap μ.cells μ.globals
  distances : m.distances = L.distances
  closures_size : m.closures.size = μ.closures.size
  closures : ∀ (id : Nat) c c', m.closures[id]? = some c → μ.closures[id]? = some c' →
    ClosureMirrors L W m.heap c c'
  classes_size : m.classes.entries.size = μ.classes.size
  classes : ∀ (id : Nat) k k', m.classes.entries[id]? = some k → μ.classes[id]? = some k' →
    ClassMirrors L W m.heap μ.classes k k'
  objects : μ.objects = m.objects
  natives : μ.natives = m.natives
  printed : μ.printed = m.printed
  time : μ.time = m.time

/-- Two tables of one size have an entry at the same numbers. -/
theorem getElem?_rel {α β : Type} {as : Array α} {bs : Array β} (hsize : as.size = bs.size)
    {P : α → β → Prop} (hP : ∀ (id : Nat) a b, as[id]? = some a → bs[id]? = some b → P a b)
    (id : Nat) : Option.Rel P as[id]? bs[id]? := by
  by_cases hid : id < as.size
  · have ha := Array.getElem?_eq_getElem hid
    have hb := Array.getElem?_eq_getElem (hsize ▸ hid)
    rw [ha, hb]
    exact .some (hP id _ _ ha hb)
  · rw [Array.getElem?_eq_none (Nat.not_lt.1 hid),
      Array.getElem?_eq_none (hsize ▸ Nat.not_lt.1 hid)]
    exact .none

namespace Corresponds

variable {L : Ledger} {W : Placement} {m : Machine} {μ : Lexical.State}

theorem closure (hc : Corresponds L W m μ) (id : Nat) :
    Option.Rel (ClosureMirrors L W m.heap) m.closures[id]? μ.closures[id]? :=
  getElem?_rel hc.closures_size hc.closures id

theorem cls (hc : Corresponds L W m μ) (id : Nat) :
    Option.Rel (ClassMirrors L W m.heap μ.classes) m.classes.entries[id]? μ.classes[id]? :=
  getElem?_rel hc.classes_size hc.classes id

/-- The search for a method finds methods that mirror each other. -/
theorem findMethod (hc : Corresponds L W m μ) (id : Nat) (x : String) :
    Option.Rel (MethodMirrors L W m.heap) (m.classes.findMethod id x) (μ.findMethod id x) := by
  -- A class inherits from earlier ones only.
  induction id using Nat.strongRecOn with
  | ind id ih =>
    have hcls := hc.cls id
    cases hk : m.classes.entries[id]? with
    | none =>
      rw [hk] at hcls
      cases hk' : μ.classes[id]? with
      | none => simp [Classes.findMethod, Classes.findMethodF, hk, Lexical.State.findMethod, hk']
      | some k' => rw [hk'] at hcls; cases hcls
    | some k =>
      rw [hk] at hcls
      cases hk' : μ.classes[id]? with
      | none => rw [hk'] at hcls; cases hcls
      | some k' =>
        obtain ⟨methods', rfl, hms⟩ := (hc.classes id k k' hk hk').methods
        rw [Classes.findMethod_eq _ _ _ k hk, Lexical.State.findMethod, hk', Option.bind_some]
        have hx := hms x
        cases hp : k.superclass with
        | none =>
          rw [Option.bind_none, Option.bind_none, Option.or_none]
          exact hx
        | some p =>
          have hlt := m.classes.ordered id k p hk hp
          have ihp := ih p hlt
          have hplt := (hc.classes id k _ hk hk').superclass_lt p hp
          rw [Lexical.State.findMethod, Array.getElem?_eq_getElem hplt, Option.bind_some] at ihp
          rw [Option.bind_some, Option.bind_some, Array.getElem?_eq_getElem hplt]
          simp only [Lexical.Class.findMethod]
          generalize k.methods.get? x = a at hx ⊢
          generalize methods'.get? x = b at hx ⊢
          cases hx with
          | some hm => exact .some hm
          | none => exact ihp

theorem className_eq (hc : Corresponds L W m μ) (id : Nat) : μ.className id = m.className id := by
  have hcls := hc.cls id
  unfold Lexical.State.className Machine.className
  generalize m.classes.entries[id]? = a at hcls ⊢
  generalize μ.classes[id]? = b at hcls ⊢
  cases hcls with
  | none => rfl
  | some hk =>
    obtain ⟨methods', rfl, -⟩ := hk.methods
    rfl

/-- Values are printed alike. -/
theorem text_eq (hc : Corresponds L W m μ) (v : Value) : μ.text v = m.text v := by
  cases v with
  | closure id =>
    have hcl := hc.closure id
    simp only [Lexical.State.text, Machine.text]
    generalize m.closures[id]? = a at hcl ⊢
    generalize μ.closures[id]? = b at hcl ⊢
    cases hcl with
    | none => rfl
    | some hk => rw [Option.elim_some, Option.elim_some, hk.routine]
  | cls id => exact hc.className_eq id
  | object id =>
    simp only [Lexical.State.text, Machine.text, hc.objects, hc.className_eq]
  | _ => rfl

/-! ### The same change on both sides -/

/-- The scope in force is not part of the correspondence. -/
theorem atScope (hc : Corresponds L W m μ) (i : Nat) : Corresponds L W { m with current := i } μ :=
  { hc with }

/-- Heap and cells change. -/
theorem withHeap {S : Nat → String → Prop} {W' : Placement} {h' : Heap Value}
    {cells' : Array (Option Value)} {globals' : Bindings Value} (hc : Corresponds L W m μ)
    (hg : Grows S W m.heap W' h') (hS : ∀ j x, S j x → IsPlain x)
    (hs : Stores L W' h' cells' globals') :
    Corresponds L W' { m with heap := h' } { μ with cells := cells', globals := globals' } :=
  { hc with
    stores := hs
    closures := fun id c c' h₁ h₂ => (hc.closures id c c' h₁ h₂).mono (.refl L) hg hS
    classes := fun id k k' h₁ h₂ => (hc.classes id k k' h₁ h₂).mono (.refl L) hg hS }

/-- A new function. -/
theorem newClosure (hc : Corresponds L W m μ) {c : Closure} {c' : Lexical.Closure}
    (hcc : ClosureMirrors L W m.heap c c') :
    Corresponds L W { m with closures := m.closures.push c }
      { μ with closures := μ.closures.push c' } :=
  { hc with
    closures_size := by simp [hc.closures_size]
    closures := by
      intro id a b ha hb
      rw [Array.getElem?_push] at ha hb
      rw [← hc.closures_size] at hb
      split at ha
      · rename_i hid
        rw [if_pos hid] at hb
        obtain rfl := Option.some.inj ha
        obtain rfl := Option.some.inj hb
        exact hcc
      · rename_i hid
        rw [if_neg hid] at hb
        exact hc.closures id a b ha hb }

/-- A new class.  Whatever it inherits from, a class that does not exist is none on either side. -/
theorem newClass (hc : Corresponds L W m μ) {k : ClassInfo} {methods' : Bindings Lexical.Closure}
    (hms : ∀ x, Option.Rel (MethodMirrors L W m.heap) (k.methods.get? x) (methods'.get? x)) :
    Corresponds L W { m with classes := m.classes.push k }
      { μ with classes :=
        μ.classes.push (.mk k.name (k.superclass.bind (μ.classes[·]?)) methods') } := by
  -- Neither side finds a class whose number is not given out yet.
  have hsuper : k.superclass.bind (μ.classes[·]?) =
      (k.superclass.filter (· < m.classes.entries.size)).bind (μ.classes[·]?) := by
    cases k.superclass with
    | none => rfl
    | some p =>
      by_cases hp : p < m.classes.entries.size
      · simp [Option.filter, hp]
      · simp [Option.filter, hp, hc.classes_size ▸ hp]
  have hk : ClassMirrors L W m.heap μ.classes
      { k with superclass := k.superclass.filter (· < m.classes.entries.size) }
      (.mk k.name (k.superclass.bind (μ.classes[·]?)) methods') := by
    refine ⟨fun p hp => ?_, methods', by rw [hsuper], hms⟩
    have hlt := (Option.filter_eq_some_iff.1 hp).2
    rw [← hc.classes_size]
    simpa using hlt
  exact
    { hc with
      classes_size := by simp [Classes.push, hc.classes_size]
      classes := by
        intro id a b ha hb
        rw [Classes.push, Array.getElem?_push] at ha
        rw [Array.getElem?_push, ← hc.classes_size] at hb
        split at ha
        · rename_i hid
          rw [if_pos hid] at hb
          obtain rfl := Option.some.inj ha
          obtain rfl := Option.some.inj hb
          exact hk.push _
        · rename_i hid
          rw [if_neg hid] at hb
          exact (hc.classes id a b ha hb).push _ }

end Corresponds

/-! ### What can be called -/

/-- What can be called, and its counterpart. -/
inductive CallableMirrors (L : Ledger) (W : Placement) (h : Heap Value) :
    Machine.Callable → Lexical.State.Callable → Prop
  | closure {c : Closure} {c' : Lexical.Closure} (hc : ClosureMirrors L W h c c') :
      CallableMirrors L W h (.closure c) (.closure c')
  | native (f : Native) : CallableMirrors L W h (.native f) (.native f)
  | cls (id : Nat) {c : Option Closure} {c' : Option Lexical.Closure}
      (hc : Option.Rel (MethodMirrors L W h) c c') : CallableMirrors L W h (.cls id c) (.cls id c')

theorem CallableMirrors.arity_eq {L : Ledger} {W : Placement} {h : Heap Value}
    {f : Machine.Callable} {f' : Lexical.State.Callable} (hf : CallableMirrors L W h f f') :
    f'.arity = f.arity := by
  cases hf with
  | closure hc => simp only [Machine.Callable.arity, Lexical.State.Callable.arity, hc.routine]
  | native f => rfl
  | cls id hc =>
    cases hc with
    | none => rfl
    | some hc =>
      simp only [Machine.Callable.arity, Lexical.State.Callable.arity, Option.elim_some, hc.routine]

/-- Values can be called alike. -/
theorem Corresponds.callable {L : Ledger} {W : Placement} {m : Machine} {μ : Lexical.State}
    (hc : Corresponds L W m μ) (v : Value) :
    Option.Rel (CallableMirrors L W m.heap) (m.callable? v) (μ.callable? v) := by
  cases v with
  | closure id =>
    have hcl := hc.closure id
    simp only [Machine.callable?, Lexical.State.callable?]
    generalize m.closures[id]? = a at hcl ⊢
    generalize μ.closures[id]? = b at hcl ⊢
    cases hcl with
    | none => exact .none
    | some hk => exact .some (.closure hk)
  | native id =>
    simp only [Machine.callable?, Lexical.State.callable?, hc.natives]
    cases m.natives[id]? with
    | none => exact .none
    | some f => exact .some (.native f)
  | cls id => exact .some (.cls id (hc.findMethod id _))
  | _ => exact .none

end Lox
