/-
**Scopes and cells.**

How a machine with scopes and a state with cells show the same program.  A *placement* says which
cell stands for the variable of a name in a scope.  The scope that the program is in, with the
scopes around it, *mirrors* the names in force when every name that the static scopes hold has, at
its distance, the variable whose cell the names give.

A scope may come to bind more names after a function has kept it; what the function knows of the
scope is the static scope at its declaration, and the names it keeps hold no more than that.

Main definitions:

* `Lox.Placement` — which cell stands for which variable;
* `Lox.Mirrors` — **a scope mirrors the names in force**;
* `Lox.Stores` — heap and cells hold the same values;
* `Lox.Placement.Grows` — how placement and heap change in the course of a run.

Main results:

* `Lox.Mirrors.nearest` — the variable at the distance of a name has the cell of the name;
* `Lox.Mirrors.mono` — mirroring is kept as the run goes on;
* `Lox.Stores.push`, `Lox.Stores.declare`, `Lox.Stores.write`, `Lox.Stores.writeGlobal` — the same
  change on both sides.
-/

import Lox.Proofs.Lexical.Eval
import Lox.Proofs.Scope.Growth
import Lox.Proofs.Scope.Scoped

set_option relaxedAutoImplicit false
set_option autoImplicit false

namespace Lox

/-! ### Placements -/

/-- Which cell stands for the variable of a name in a scope. -/
abbrev Placement := Nat → String → Option Nat

namespace Placement

/-- One more variable has a cell. -/
def place (W : Placement) (i : Nat) (x : String) (c : Nat) : Placement :=
  fun j y => if j = i ∧ y = x then some c else W j y

@[simp] theorem place_self (W : Placement) (i : Nat) (x : String) (c : Nat) :
    W.place i x c i x = some c := by
  simp [place]

theorem place_of_ne (W : Placement) {i j : Nat} {x y : String} (c : Nat) (h : ¬(j = i ∧ y = x)) :
    W.place i x c j y = W j y := by
  simp only [place, if_neg h]

/-- How placement and heap change: variables keep their cells, and of the scopes there were, only
those named by `S` come to have new variables. -/
structure Grows (S : Nat → String → Prop) (W : Placement) (h : Heap Value) (W' : Placement)
    (h' : Heap Value) : Prop where
  heap : h.Extends h'
  kept : ∀ j x c, W j x = some c → W' j x = some c
  frame : ∀ j x, j < h.size → ¬ S j x → W' j x = W j x

/-- No scope is to have new variables. -/
def Nowhere : Nat → String → Prop := fun _ _ => False

/-- The given scope may have new variables, but none that is called `this` or `super`. -/
def Here (i : Nat) : Nat → String → Prop := fun j x => j = i ∧ IsPlain x

namespace Grows

variable {S T : Nat → String → Prop} {W W' W'' : Placement} {h h' h'' : Heap Value}

theorem refl (S : Nat → String → Prop) (W : Placement) (h : Heap Value) : Grows S W h W h :=
  ⟨.refl h, fun _ _ _ hc => hc, fun _ _ _ _ => rfl⟩

theorem of_extends (S : Nat → String → Prop) (W : Placement) (he : h.Extends h') :
    Grows S W h W h' :=
  ⟨he, fun _ _ _ hc => hc, fun _ _ _ _ => rfl⟩

/-- Growth goes on; what the second part adds to scopes that the first part made is of no
consequence. -/
theorem trans (h₁ : Grows S W h W' h') (h₂ : Grows T W' h' W'' h'')
    (hT : ∀ j x, j < h.size → T j x → S j x) : Grows S W h W'' h'' where
  heap := h₁.heap.trans h₂.heap
  kept := fun j x c hc => h₂.kept j x c (h₁.kept j x c hc)
  frame := by
    intro j x hj hS
    have hj' : j < h'.size := Nat.lt_of_lt_of_le hj h₁.heap.size_le
    rw [h₂.frame j x hj' fun ht => hS (hT j x hj ht), h₁.frame j x hj hS]

theorem mono (h₁ : Grows S W h W' h') (hT : ∀ j x, S j x → T j x) : Grows T W h W' h' where
  heap := h₁.heap
  kept := h₁.kept
  frame := fun j x hj hS => h₁.frame j x hj fun hs => hS (hT j x hs)

/-- A new variable in one scope. -/
theorem place {i : Nat} {x : String} (c : Nat) (hfree : W i x = none) (hS : S i x) :
    Grows S W h (W.place i x c) h where
  heap := .refl h
  kept := by
    intro j y d hd
    rw [place_of_ne, hd]
    rintro ⟨rfl, rfl⟩
    rw [hfree] at hd
    exact absurd hd (by simp)
  frame := by
    intro j y _ hSj
    apply place_of_ne
    rintro ⟨rfl, rfl⟩
    exact hSj hS

end Grows

end Placement

open Placement

/-! ### Mirroring -/

/-- What a scope has of a static scope: a variable for each name, and a value for each name that is
defined.  No scope comes to bind `this` or `super` later. -/
structure ScopeMirrors (W : Placement) (h : Heap Value) (γ : Bindings Readiness) (i : Nat) :
    Prop where
  placed : ∀ x, γ.binds x = true → ∃ c, W i x = some c
  bound : ∀ x, γ.get? x = some .defined → h.binds i x = true
  special : ∀ x c, ¬ IsPlain x → W i x = some c → γ.binds x = true

/-- The scope `i`, with the scopes around it, **mirrors** the names in force at a place inside the
given static scopes. -/
def Mirrors (W : Placement) (h : Heap Value) : Scopes → Nat → Lexical.Names → Prop
  | [], i, ρ => i = Machine.globalScope ∧ ρ.isLocal = false ∧ ∀ x, ρ.cell? x = none
  | γ :: Γ, i, ρ =>
    ρ.isLocal = true ∧ ScopeMirrors W h γ i ∧
      ∃ p σ, h.enclosing? i = some p ∧ Mirrors W h Γ p σ ∧
        ∀ x, ρ.cell? x = if γ.binds x then W i x else σ.cell? x

/-- The innermost scope has no variables but those of the static scope. -/
def Owned (W : Placement) : Scopes → Nat → Prop
  | [], _ => True
  | γ :: _, i => ∀ x c, W i x = some c → γ.binds x = true

theorem Heap.lt_size_of_enclosing? {α : Type} {h : Heap α} {i p : Nat}
    (hp : h.enclosing? i = some p) : i < h.size := by
  obtain ⟨s, hs, -⟩ := Option.bind_eq_some_iff.1 hp
  exact (Array.getElem?_eq_some_iff.1 hs).1

namespace Mirrors

variable {W W' : Placement} {h h' : Heap Value}

theorem lt_size (h0 : 0 < h.size) {Γ : Scopes} {i : Nat} {ρ : Lexical.Names}
    (hm : Mirrors W h Γ i ρ) : i < h.size := by
  cases Γ with
  | nil =>
    obtain ⟨rfl, -⟩ := hm
    exact h0
  | cons γ Γ =>
    obtain ⟨-, -, p, σ, hp, -⟩ := hm
    exact Heap.lt_size_of_enclosing? hp

theorem isLocal_eq {Γ : Scopes} {i : Nat} {ρ : Lexical.Names} (hm : Mirrors W h Γ i ρ) :
    ρ.isLocal = !Γ.isEmpty := by
  cases Γ with
  | nil => exact hm.2.1
  | cons γ Γ => exact hm.1

/-- There are as many scopes around a scope as there are static scopes, and the global one. -/
theorem length_chain (h0 : h.enclosing? Machine.globalScope = none) {Γ : Scopes} {i : Nat}
    {ρ : Lexical.Names} (hm : Mirrors W h Γ i ρ) : (h.chain i).length = Γ.length + 1 := by
  induction Γ generalizing i ρ with
  | nil =>
    obtain ⟨rfl, -⟩ := hm
    rw [Heap.chain_eq, h0]
    rfl
  | cons γ Γ ih =>
    obtain ⟨-, -, p, σ, hp, hm, -⟩ := hm
    rw [Heap.length_chain_of_enclosing? hp, ih hm, List.length_cons]

/-- The variable at the distance of a name has the cell of the name. -/
theorem nearest {Γ : Scopes} {i : Nat} {ρ : Lexical.Names} (hm : Mirrors W h Γ i ρ) {x : String}
    {d : Nat} {state : Readiness} (hx : Γ.nearest? x = some (d, state)) :
    ∃ j c, h.ancestor? i d = some j ∧ W j x = some c ∧ ρ.cell? x = some c ∧
      (state = .defined → h.binds j x = true) := by
  induction Γ generalizing i ρ d with
  | nil => exact absurd hx (by simp [Scopes.nearest?])
  | cons γ Γ ih =>
    obtain ⟨-, hγ, p, σ, hp, hm, hρ⟩ := hm
    -- Static scope and scope of the heap are left at the same time, one step outward.
    cases hg : γ.get? x with
    | some s =>
      rw [Scopes.nearest?_cons_of_get? Γ hg] at hx
      obtain ⟨rfl, rfl⟩ := Prod.mk.inj (Option.some.inj hx)
      have hb : γ.binds x = true := by simp [Bindings.binds, hg]
      obtain ⟨c, hc⟩ := hγ.placed x hb
      refine ⟨i, c, rfl, hc, ?_, fun hs => hγ.bound x (hs ▸ hg)⟩
      rw [hρ x, if_pos hb, hc]
    | none =>
      rw [Scopes.nearest?_cons_of_none Γ hg] at hx
      obtain ⟨⟨d', s⟩, hd', heq⟩ := Option.map_eq_some_iff.1 hx
      obtain ⟨rfl, rfl⟩ := Prod.mk.inj heq
      obtain ⟨j, c, hj, hc, hcell, hbound⟩ := ih hm hd'
      refine ⟨j, c, ?_, hc, ?_, hbound⟩
      · rw [Heap.ancestor?_succ, hp]
        exact hj
      · rw [hρ x, if_neg (by simp [Bindings.binds, hg]), hcell]

/-- A name that no static scope holds is not among the names in force. -/
theorem nearest_none {Γ : Scopes} {i : Nat} {ρ : Lexical.Names} (hm : Mirrors W h Γ i ρ)
    {x : String} (hx : Γ.nearest? x = none) : ρ.cell? x = none := by
  induction Γ generalizing i ρ with
  | nil => exact hm.2.2 x
  | cons γ Γ ih =>
    obtain ⟨-, -, p, σ, -, hm, hρ⟩ := hm
    cases hg : γ.get? x with
    | some s => exact absurd hx (by simp [Scopes.nearest?, hg])
    | none =>
      rw [Scopes.nearest?_cons_of_none Γ hg, Option.map_eq_none_iff] at hx
      rw [hρ x, if_neg (by simp [Bindings.binds, hg]), ih hm hx]

theorem scopeMirrors_mono {S : Nat → String → Prop} (hg : Grows S W h W' h')
    (hS : ∀ j x, S j x → IsPlain x) {γ : Bindings Readiness} {i : Nat} (hi : i < h.size)
    (hγ : ScopeMirrors W h γ i) : ScopeMirrors W' h' γ i where
  placed := by
    intro x hx
    obtain ⟨c, hc⟩ := hγ.placed x hx
    exact ⟨c, hg.kept i x c hc⟩
  bound := fun x hx => hg.heap.binds_of i x (hγ.bound x hx)
  special := by
    intro x c hx hc
    rw [hg.frame i x hi fun hs => hx (hS i x hs)] at hc
    exact hγ.special x c hx hc

/-- Mirroring is kept as the run goes on: scopes may come to bind more names, but what the static
scopes hold stays where it is. -/
theorem mono {S : Nat → String → Prop} (hg : Grows S W h W' h') (hS : ∀ j x, S j x → IsPlain x)
    {Γ : Scopes} {i : Nat} {ρ : Lexical.Names} (hm : Mirrors W h Γ i ρ) : Mirrors W' h' Γ i ρ := by
  induction Γ generalizing i ρ with
  | nil => exact hm
  | cons γ Γ ih =>
    obtain ⟨hlocal, hγ, p, σ, hp, hm, hρ⟩ := hm
    have hi := Heap.lt_size_of_enclosing? hp
    refine ⟨hlocal, scopeMirrors_mono hg hS hi hγ, p, σ, ?_, ih hm, ?_⟩
    · rw [hg.heap.enclosing?_eq i hi, hp]
    · intro x
      rw [hρ x]
      by_cases hx : γ.binds x = true
      · obtain ⟨c, hc⟩ := hγ.placed x hx
        rw [if_pos hx, if_pos hx, hc, hg.kept i x c hc]
      · rw [if_neg hx, if_neg hx]

end Mirrors

/-! ### Heap and cells -/

/-- Heap and cells **hold the same values**: every variable of a local scope has a cell of its own,
and the global scope binds the globals. -/
structure Stores (L : Ledger) (W : Placement) (h : Heap Value) (cells : Array (Option Value))
    (globals : Bindings Value) : Prop where
  global : h.scopes[Machine.globalScope]? = some ⟨none, globals⟩
  placed : ∀ j x c, W j x = some c → 0 < j ∧ j < h.size ∧ c < cells.size
  stored : ∀ j x c, W j x = some c → h.get? j x = (cells[c]?).join
  injective : ∀ j x j' x' c, W j x = some c → W j' x' = some c → j = j' ∧ x = x'
  covered : ∀ j x, 0 < j → h.binds j x = true → ∃ c, W j x = some c
  /-- A variable is declared as deep as its name may be. -/
  depth : ∀ j x c, W j x = some c → IsPlain x → L.mayDeclare ((h.chain j).length - 1) x
  /-- What `super` stands for is a class. -/
  supers : ∀ j v, 0 < j → h.get? j superName = some v → ∃ id, v = .cls id

namespace Stores

variable {L : Ledger} {W : Placement} {h : Heap Value} {cells : Array (Option Value)}
  {globals : Bindings Value}

theorem size_pos (hs : Stores L W h cells globals) : Machine.globalScope < h.size :=
  (Array.getElem?_eq_some_iff.1 hs.global).1

theorem enclosing?_global (hs : Stores L W h cells globals) :
    h.enclosing? Machine.globalScope = none := by
  simp [Heap.enclosing?, hs.global]

theorem get?_global (hs : Stores L W h cells globals) (x : String) :
    h.get? Machine.globalScope x = globals.get? x := by
  simp [Heap.get?, hs.global]

theorem chain_global (hs : Stores L W h cells globals) :
    h.chain Machine.globalScope = [Machine.globalScope] := by
  rw [Heap.chain_eq, hs.enclosing?_global]
  rfl

theorem not_placed_of_le (hs : Stores L W h cells globals) {j : Nat} (hj : h.size ≤ j)
    (x : String) : W j x = none := by
  cases hc : W j x with
  | none => rfl
  | some c => exact absurd (hs.placed j x c hc).2.1 (Nat.not_lt.2 hj)

/-- What may be declared, may be declared under a ledger that goes on. -/
theorem mono {L' : Ledger} (he : L.Extends L') (hs : Stores L W h cells globals) :
    Stores L' W h cells globals :=
  { hs with depth := fun j x c hc hx => he.mayDeclare_of _ _ (hs.depth j x c hc hx) }

/-- A new scope that binds nothing. -/
theorem push (hs : Stores L W h cells globals) {i : Nat} :
    Stores L W (h.push (some i) .empty) cells globals where
  global := by
    rw [Heap.getElem?_push, if_neg (Nat.ne_of_lt hs.size_pos), hs.global]
  placed := by
    intro j x c hc
    obtain ⟨hj, hlt, hcell⟩ := hs.placed j x c hc
    exact ⟨hj, by rw [Heap.size_push]; omega, hcell⟩
  stored := by
    intro j x c hc
    rw [Heap.get?_push, if_neg (Nat.ne_of_lt (hs.placed j x c hc).2.1), hs.stored j x c hc]
  injective := hs.injective
  covered := by
    intro j x hj hb
    rw [Heap.binds, Heap.get?_push] at hb
    split at hb
    · exact absurd hb (by simp)
    · exact hs.covered j x hj hb
  depth := by
    intro j x c hc hx
    rw [(Heap.extends_push h (some i) .empty).chain_eq (hs.placed j x c hc).2.1]
    exact hs.depth j x c hc hx
  supers := by
    intro j v hj hv
    rw [Heap.get?_push] at hv
    split at hv
    · exact absurd hv (by simp)
    · exact hs.supers j v hj hv

/-- A new variable, which has no value yet. -/
theorem declare (hs : Stores L W h cells globals) {i : Nat} {x : String} (hi : 0 < i)
    (hlt : i < h.size) (hfree : W i x = none)
    (hmay : IsPlain x → L.mayDeclare ((h.chain i).length - 1) x) :
    Stores L (W.place i x cells.size) h (cells.push none) globals where
  global := hs.global
  placed := by
    intro j y c hc
    rw [Array.size_push]
    by_cases hjy : j = i ∧ y = x
    · obtain ⟨rfl, rfl⟩ := hjy
      rw [place_self] at hc
      obtain rfl := Option.some.inj hc
      exact ⟨hi, hlt, Nat.lt_succ_self _⟩
    · rw [place_of_ne W _ hjy] at hc
      obtain ⟨hj, hjlt, hcell⟩ := hs.placed j y c hc
      exact ⟨hj, hjlt, Nat.lt_succ_of_lt hcell⟩
  stored := by
    intro j y c hc
    by_cases hjy : j = i ∧ y = x
    · obtain ⟨rfl, rfl⟩ := hjy
      rw [place_self] at hc
      obtain rfl := Option.some.inj hc
      have hunbound : h.binds j y = false := by
        cases hb : h.binds j y with
        | false => rfl
        | true =>
          obtain ⟨c, hc⟩ := hs.covered j y hi hb
          rw [hfree] at hc
          exact absurd hc (by simp)
      simpa [Heap.binds] using hunbound
    · rw [place_of_ne W _ hjy] at hc
      have hcell := (hs.placed j y c hc).2.2
      rw [hs.stored j y c hc, Array.getElem?_push, if_neg (Nat.ne_of_lt hcell)]
  injective := by
    intro j y j' y' c hc hc'
    -- The new cell is the only one that is not below the old number of cells.
    by_cases hjy : j = i ∧ y = x <;> by_cases hjy' : j' = i ∧ y' = x
    · exact ⟨hjy.1.trans hjy'.1.symm, hjy.2.trans hjy'.2.symm⟩
    · obtain ⟨rfl, rfl⟩ := hjy
      rw [place_self] at hc
      rw [place_of_ne W _ hjy', ← hc] at hc'
      exact absurd (hs.placed j' y' _ hc').2.2 (Nat.lt_irrefl _)
    · obtain ⟨rfl, rfl⟩ := hjy'
      rw [place_self] at hc'
      rw [place_of_ne W _ hjy, ← hc'] at hc
      exact absurd (hs.placed j y _ hc).2.2 (Nat.lt_irrefl _)
    · rw [place_of_ne W _ hjy] at hc
      rw [place_of_ne W _ hjy'] at hc'
      exact hs.injective j y j' y' c hc hc'
  covered := by
    intro j y hj hb
    obtain ⟨c, hc⟩ := hs.covered j y hj hb
    exact ⟨c, (Grows.place (S := fun _ _ => True) (h := h) _ hfree trivial).kept j y c hc⟩
  depth := by
    intro j y c hc hy
    by_cases hjy : j = i ∧ y = x
    · obtain ⟨rfl, rfl⟩ := hjy
      exact hmay hy
    · rw [place_of_ne W _ hjy] at hc
      exact hs.depth j y c hc hy
  supers := hs.supers

/-- A variable is given a value. -/
theorem write (hs : Stores L W h cells globals) {i c : Nat} {x : String} {v : Value}
    (hc : W i x = some c) (hsuper : x = superName → ∃ id, v = .cls id) :
    Stores L W (h.define i x v) (cells.modify c fun _ => some v) globals where
  global := by
    have hi : i ≠ Machine.globalScope := fun h0 => Nat.ne_of_gt (hs.placed i x c hc).1 h0
    rw [Heap.define, Array.getElem?_modify, if_neg hi, hs.global]
  placed := by
    intro j y d hd
    rw [Heap.size_define, Array.size_modify]
    exact hs.placed j y d hd
  stored := by
    intro j y d hd
    rw [Heap.get?_define, Array.getElem?_modify]
    by_cases hjy : j = i ∧ y = x
    · obtain ⟨rfl, rfl⟩ := hjy
      obtain rfl : c = d := Option.some.inj (hc.symm.trans hd)
      obtain ⟨-, hlt, hcell⟩ := hs.placed j y c hc
      rw [if_pos ⟨rfl, hlt, rfl⟩, if_pos rfl, Array.getElem?_eq_getElem hcell]
      rfl
    · -- Another variable has another cell, which keeps its value.
      have hne : c ≠ d := by
        rintro rfl
        exact hjy (hs.injective j y i x c hd hc)
      rw [if_neg fun hif => hjy ⟨hif.1, hif.2.2⟩, if_neg hne, hs.stored j y d hd]
  injective := hs.injective
  covered := by
    intro j y hj hb
    rw [Heap.binds, Heap.get?_define] at hb
    split at hb
    · rename_i hif
      obtain ⟨rfl, -, rfl⟩ := hif
      exact ⟨c, hc⟩
    · exact hs.covered j y hj hb
  depth := by
    intro j y d hd hy
    rw [(Heap.extends_define h i x v).chain_eq (hs.placed j y d hd).2.1]
    exact hs.depth j y d hd hy
  supers := by
    intro j w hj hw
    rw [Heap.get?_define] at hw
    split at hw
    · rename_i hif
      obtain rfl := Option.some.inj hw
      exact hsuper hif.2.2.symm
    · exact hs.supers j w hj hw

/-- A global is given a value. -/
theorem writeGlobal (hs : Stores L W h cells globals) (x : String) (v : Value) :
    Stores L W (h.define Machine.globalScope x v) cells (globals.set x v) where
  global := by
    rw [Heap.define, Array.getElem?_modify, if_pos rfl, hs.global]
    rfl
  placed := by
    intro j y c hc
    rw [Heap.size_define]
    exact hs.placed j y c hc
  stored := by
    intro j y c hc
    have hj := (hs.placed j y c hc).1
    rw [Heap.get?_define, if_neg fun hif => Nat.ne_of_gt hj hif.1, hs.stored j y c hc]
  injective := hs.injective
  covered := by
    intro j y hj hb
    rw [Heap.binds, Heap.get?_define, if_neg fun hif => Nat.ne_of_gt hj hif.1] at hb
    exact hs.covered j y hj hb
  depth := by
    intro j y c hc hy
    rw [(Heap.extends_define h _ x v).chain_eq (hs.placed j y c hc).2.1]
    exact hs.depth j y c hc hy
  supers := by
    intro j w hj hw
    rw [Heap.get?_define, if_neg fun hif => Nat.ne_of_gt hj hif.1] at hw
    exact hs.supers j w hj hw

/-- A new variable with its value. -/
theorem bind (hs : Stores L W h cells globals) {i : Nat} {x : String} {v : Value} (hi : 0 < i)
    (hlt : i < h.size) (hfree : W i x = none)
    (hmay : IsPlain x → L.mayDeclare ((h.chain i).length - 1) x)
    (hsuper : x = superName → ∃ id, v = .cls id) :
    Stores L (W.place i x cells.size) (h.define i x v) (cells.push (some v)) globals := by
  have hcells : (cells.push none).modify cells.size (fun _ => some v) = cells.push (some v) := by
    apply Array.ext_getElem?
    intro j
    rw [Array.getElem?_modify, Array.getElem?_push, Array.getElem?_push]
    by_cases hj : j = cells.size
    · subst hj
      simp
    · simp [hj, Ne.symm hj]
  rw [← hcells]
  exact (hs.declare hi hlt hfree hmay).write (place_self ..) hsuper

end Stores

/-! ### Entering scopes and declaring names -/

namespace Mirrors

variable {L : Ledger} {W W' : Placement} {h : Heap Value} {cells : Array (Option Value)}
  {globals : Bindings Value} {Γ : Scopes} {γ : Bindings Readiness} {i : Nat} {ρ : Lexical.Names}

/-- Variables of later scopes are of no consequence: scopes lie inside earlier ones. -/
theorem congr_below (hW : ∀ j, j ≤ i → W' j = W j) (hm : Mirrors W h Γ i ρ) :
    Mirrors W' h Γ i ρ := by
  induction Γ generalizing i ρ with
  | nil => exact hm
  | cons γ Γ ih =>
    obtain ⟨hlocal, hγ, p, σ, hp, hm, hρ⟩ := hm
    have hpi := Heap.enclosing?_lt hp
    have hWi := hW i (Nat.le_refl i)
    refine ⟨hlocal, ?_, p, σ, hp, ih (fun j hj => hW j (by omega)) hm, ?_⟩
    · exact ⟨fun x => hWi ▸ hγ.placed x, hγ.bound, fun x => hWi ▸ hγ.special x⟩
    · intro x
      rw [hρ x, hWi]

/-- The names inside a block are those around it. -/
theorem push (hs : Stores L W h cells globals) (hm : Mirrors W h Γ i ρ) :
    Mirrors W (h.push (some i) .empty) (.empty :: Γ) h.size ρ.inside := by
  have hi : i < h.size := hm.lt_size hs.size_pos
  refine ⟨rfl, ?_, i, ρ, Heap.enclosing?_push_self h .empty hi, ?_, fun x => by simp⟩
  · refine ⟨fun x hx => absurd hx (by simp), fun x hx => absurd hx (by simp), ?_⟩
    intro x c _ hc
    rw [hs.not_placed_of_le (Nat.le_refl _) x] at hc
    exact absurd hc (by simp)
  · exact hm.mono (.of_extends Nowhere W (Heap.extends_push ..)) fun _ _ hS => hS.elim

/-- A declared name is one more of the names in force. -/
theorem declare {x : String} {c : Nat} {state : Readiness}
    (hm : Mirrors W h (γ :: Γ) i ρ) (hstate : state = .defined → h.binds i x = true) :
    Mirrors (W.place i x c) h (γ.set x state :: Γ) i (ρ.bind x c) := by
  obtain ⟨hlocal, hγ, p, σ, hp, hm, hρ⟩ := hm
  have hpi := Heap.enclosing?_lt hp
  refine ⟨rfl, ⟨?_, ?_, ?_⟩, p, σ, hp, hm.congr_below ?_, ?_⟩
  · intro y hy
    by_cases hyx : y = x
    · exact ⟨c, by rw [hyx, place_self]⟩
    · rw [place_of_ne W c fun hh => hyx hh.2]
      exact hγ.placed y (by simpa [Bindings.binds_set, hyx] using hy)
  · intro y hy
    rw [Bindings.get?_set] at hy
    split at hy
    · rename_i hyx
      rw [hyx]
      exact hstate (Option.some.inj hy)
    · exact hγ.bound y hy
  · intro y d hy hd
    rw [Bindings.binds_set]
    by_cases hyx : y = x
    · simp [hyx]
    · rw [place_of_ne W c fun hh => hyx hh.2] at hd
      simp [hγ.special y d hy hd]
  · intro j hj
    funext y
    exact place_of_ne W c fun hh => by omega
  · intro y
    rw [Lexical.Names.cell?_bind, Bindings.binds_set]
    by_cases hyx : y = x
    · simp [hyx]
    · rw [if_neg hyx, hρ y, place_of_ne W c fun hh => hyx hh.2]
      simp [hyx]

/-- A declared name has its value. -/
theorem define {x : String} (hm : Mirrors W h (γ :: Γ) i ρ) (hx : γ.binds x = true)
    (hb : h.binds i x = true) : Mirrors W h (γ.set x .defined :: Γ) i ρ := by
  obtain ⟨hlocal, hγ, p, σ, hp, hm, hρ⟩ := hm
  have hsame : ∀ y, (γ.set x .defined).binds y = γ.binds y := by
    intro y
    rw [Bindings.binds_set]
    by_cases hyx : y = x <;> simp [hyx, hx]
  refine ⟨hlocal, ⟨fun y hy => hγ.placed y (hsame y ▸ hy), ?_, ?_⟩, p, σ, hp, hm, ?_⟩
  · intro y hy
    rw [Bindings.get?_set] at hy
    split at hy
    · rename_i hyx
      rw [hyx]
      exact hb
    · exact hγ.bound y hy
  · intro y c hy hc
    rw [hsame y]
    exact hγ.special y c hy hc
  · intro y
    rw [hρ y, hsame y]

end Mirrors

namespace Owned

variable {W : Placement} {γ : Bindings Readiness} {Γ : Scopes} {i : Nat}

theorem declare {x : String} {c : Nat} {state : Readiness} (ho : Owned W (γ :: Γ) i) :
    Owned (W.place i x c) (γ.set x state :: Γ) i := by
  intro y d hd
  rw [Bindings.binds_set]
  by_cases hyx : y = x
  · simp [hyx]
  · rw [place_of_ne W c fun hh => hyx hh.2] at hd
    simp [ho y d hd]

theorem define {x : String} (ho : Owned W (γ :: Γ) i) : Owned W (γ.set x .defined :: Γ) i := by
  intro y d hd
  rw [Bindings.binds_set]
  simp [ho y d hd]

theorem mono {S : Nat → String → Prop} {W' : Placement} {h h' : Heap Value}
    (hg : Grows S W h W' h') (hS : ∀ x, ¬ S i x) (hi : i < h.size) {Γ : Scopes}
    (ho : Owned W Γ i) : Owned W' Γ i := by
  cases Γ with
  | nil => trivial
  | cons γ Γ =>
    intro x c hc
    rw [hg.frame i x hi (hS x)] at hc
    exact ho x c hc

/-- A scope that is still to be made has no variables. -/
theorem fresh {L : Ledger} {h : Heap Value} {cells : Array (Option Value)}
    {globals : Bindings Value} (hs : Stores L W h cells globals) : Owned W (γ :: Γ) h.size := by
  intro x c hc
  rw [hs.not_placed_of_le (Nat.le_refl _) x] at hc
  exact absurd hc (by simp)

/-- A name that the innermost static scope does not hold has no variable there. -/
theorem free (ho : Owned W (γ :: Γ) i) {x : String} (hx : γ.get? x = none) : W i x = none := by
  cases hc : W i x with
  | none => rfl
  | some c =>
    have hb := ho x c hc
    rw [Bindings.binds, hx] at hb
    exact absurd hb (by simp)

end Owned

end Lox
