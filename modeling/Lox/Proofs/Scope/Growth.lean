/-
**How the heap of scopes grows.**

A run makes scopes and binds names in them; it never moves a scope and never takes a binding back.
So what is known of a scope and of the way outward from it stays true.

Main definitions:

* `Lox.Heap.Extends` — one heap has grown out of another.

Main results:

* `Lox.Heap.extends_push`, `Lox.Heap.extends_define` — new scopes and new bindings are growth;
* `Lox.Heap.Extends.chain_eq` — **the way outward from a scope is fixed when the scope is made**;
* `Lox.Heap.push_define` — a scope that is made and then given a name is a scope made with it.
-/

import Lox.Scope.Heap

set_option relaxedAutoImplicit false
set_option autoImplicit false

namespace Lox

namespace Heap

variable {α : Type}

theorem ext_scopes {h h' : Heap α} (hs : h.scopes = h'.scopes) : h = h' := by
  cases h
  cases h'
  cases hs
  rfl

/-! ### New scopes -/

@[simp] theorem size_push (h : Heap α) (p : Option Nat) (b : Bindings α) :
    (h.push p b).size = h.size + 1 := by
  simp [size, push]

theorem getElem?_push (h : Heap α) (p : Option Nat) (b : Bindings α) (j : Nat) :
    (h.push p b).scopes[j]? =
      if j = h.size then some ⟨p.filter (· < h.size), b⟩ else h.scopes[j]? :=
  Array.getElem?_push ..

theorem enclosing?_push_of_lt (h : Heap α) (p : Option Nat) (b : Bindings α) {j : Nat}
    (hj : j < h.size) : (h.push p b).enclosing? j = h.enclosing? j := by
  rw [enclosing?, getElem?_push, if_neg (by omega)]
  rfl

theorem enclosing?_push_self (h : Heap α) (b : Bindings α) {i : Nat} (hi : i < h.size) :
    (h.push (some i) b).enclosing? h.size = some i := by
  rw [enclosing?, getElem?_push, if_pos rfl]
  simp [hi]

/-- What a scope binds after a new scope is made. -/
theorem get?_push (h : Heap α) (p : Option Nat) (b : Bindings α) (j : Nat) (x : String) :
    (h.push p b).get? j x = if j = h.size then b.get? x else h.get? j x := by
  rw [get?, getElem?_push]
  split <;> rfl

theorem get?_eq_none_of_le (h : Heap α) {j : Nat} (hj : h.size ≤ j) (x : String) :
    h.get? j x = none := by
  have hs : h.scopes[j]? = none := Array.getElem?_eq_none hj
  simp [get?, hs]

/-- A scope that is made and then given a name is a scope made with it. -/
theorem push_define (h : Heap α) (p : Option Nat) (b : Bindings α) (x : String) (v : α) :
    (h.push p b).define h.size x v = h.push p (b.set x v) := by
  apply ext_scopes
  apply Array.ext_getElem?
  intro j
  simp only [define, Array.getElem?_modify, getElem?_push]
  by_cases hj : j = h.size
  · subst hj
    simp
  · simp [hj, Ne.symm hj]

/-- Of two values given to a name of one scope, the later one counts. -/
@[simp] theorem define_define (h : Heap α) (i : Nat) (x : String) (v w : α) :
    (h.define i x v).define i x w = h.define i x w := by
  apply ext_scopes
  apply Array.ext_getElem?
  intro j
  simp only [define, Array.getElem?_modify]
  by_cases hij : i = j
  · simp [hij, Function.comp_def]
  · simp [hij]

/-- A name of an earlier scope may be given its value before or after a new scope is made. -/
theorem define_push (h : Heap α) {i : Nat} (hi : i < h.size) (p : Option Nat) (b : Bindings α)
    (x : String) (v : α) : (h.push p b).define i x v = (h.define i x v).push p b := by
  apply ext_scopes
  apply Array.ext_getElem?
  intro j
  rw [getElem?_push, size_define]
  simp only [define, Array.getElem?_modify, getElem?_push]
  by_cases hj : j = h.size
  · subst hj
    simp [Nat.ne_of_lt hi]
  · simp [hj]

/-! ### Growth -/

/-- One heap has **grown out of** another: scopes keep their place, and names stay bound. -/
structure Extends (h h' : Heap α) : Prop where
  size_le : h.size ≤ h'.size
  enclosing?_eq : ∀ j, j < h.size → h'.enclosing? j = h.enclosing? j
  binds_of : ∀ j x, h.binds j x = true → h'.binds j x = true

namespace Extends

theorem refl (h : Heap α) : h.Extends h :=
  ⟨Nat.le_refl _, fun _ _ => rfl, fun _ _ hb => hb⟩

theorem trans {h h' h'' : Heap α} (h₁ : h.Extends h') (h₂ : h'.Extends h'') : h.Extends h'' where
  size_le := Nat.le_trans h₁.size_le h₂.size_le
  enclosing?_eq := fun j hj => by
    rw [h₂.enclosing?_eq j (Nat.lt_of_lt_of_le hj h₁.size_le), h₁.enclosing?_eq j hj]
  binds_of := fun j x hb => h₂.binds_of j x (h₁.binds_of j x hb)

/-- The way outward from a scope is fixed when the scope is made. -/
theorem chain_eq {h h' : Heap α} (he : h.Extends h') {i : Nat} (hi : i < h.size) :
    h'.chain i = h.chain i := by
  induction i using Nat.strongRecOn with
  | ind i ih =>
    rw [Heap.chain_eq h' i, Heap.chain_eq h i, he.enclosing?_eq i hi]
    cases hp : h.enclosing? i with
    | none => rfl
    | some p =>
      have hlt := enclosing?_lt hp
      simp only [Option.elim_some]
      rw [ih p hlt (Nat.lt_trans hlt hi)]

end Extends

theorem binds_eq_true_iff (h : Heap α) (j : Nat) (x : String) :
    h.binds j x = true ↔ ∃ v, h.get? j x = some v := by
  rw [binds, Option.isSome_iff_exists]

theorem extends_push (h : Heap α) (p : Option Nat) (b : Bindings α) : h.Extends (h.push p b) where
  size_le := by simp
  enclosing?_eq := fun _ hj => enclosing?_push_of_lt h p b hj
  binds_of := by
    intro j x hb
    obtain ⟨v, hv⟩ := (binds_eq_true_iff ..).1 hb
    refine (binds_eq_true_iff ..).2 ⟨v, ?_⟩
    rw [get?_push, if_neg, hv]
    intro hj
    rw [get?_eq_none_of_le h (Nat.le_of_eq hj.symm) x] at hv
    exact absurd hv (by simp)

theorem extends_define (h : Heap α) (i : Nat) (x : String) (v : α) :
    h.Extends (h.define i x v) where
  size_le := by simp
  enclosing?_eq := fun _ _ => enclosing?_define ..
  binds_of := by
    intro j y hb
    rw [binds, get?_define]
    split
    · rfl
    · exact hb

/-- The length of the way outward grows by one with every scope. -/
theorem length_chain_of_enclosing? {h : Heap α} {i p : Nat} (hp : h.enclosing? i = some p) :
    (h.chain i).length = (h.chain p).length + 1 := by
  rw [Heap.chain_eq, hp, Option.elim_some, List.length_cons]

end Heap

end Lox
