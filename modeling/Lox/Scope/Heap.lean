/-
**The heap of scopes.**

Scopes are numbered in the order in which they are made.  Each binds names to values and may lie
inside an earlier scope, so that the way outward from a scope always ends.  A name is looked up
either by searching that way, or at a given distance along it.

Main definitions:

* `Lox.Scope`, `Lox.Heap` — a scope, and all scopes; that a scope lies inside an earlier one is
  part of the type;
* `Lox.Heap.push`, `Lox.Heap.define` — a new scope, and a binding in a given scope;
* `Lox.Heap.chain` — **a scope and the ones around it**, from the inside out;
* `Lox.Heap.find`, `Lox.Heap.get`, `Lox.Heap.assign` — access by search;
* `Lox.Heap.ancestor`, `Lox.Heap.getAt`, `Lox.Heap.assignAt` — access by distance.

Main results:

* `Lox.Heap.chain_eq` — the chain of a scope goes on with the chain of the scope around it;
* `Lox.Heap.ancestor?_eq_getElem?` — the scope at a distance is that member of the chain;
* `Lox.Heap.get?_define` — what a scope binds after a binding.
-/

import Lox.Failure
import Lox.Scope.Bindings

set_option relaxedAutoImplicit false
set_option autoImplicit false

namespace Lox

/-- A **scope**: the names it binds, and the scope around it. -/
structure Scope (α : Type) where
  enclosing : Option Nat
  bindings : Bindings α
deriving DecidableEq

/-- All scopes, by their numbers.  A scope lies inside earlier ones only. -/
structure Heap (α : Type) where
  scopes : Array (Scope α)
  ordered : ∀ (i : Nat) (s : Scope α) (p : Nat),
    scopes[i]? = some s → s.enclosing = some p → p < i

namespace Heap

variable {α : Type}

/-! ### Making scopes -/

/-- No scopes. -/
def empty : Heap α where
  scopes := #[]
  ordered := by simp

instance : Inhabited (Heap α) := ⟨empty⟩

/-- How many scopes there are, which is the number of the next one. -/
def size (h : Heap α) : Nat := h.scopes.size

/-- A new scope inside the given one.  A scope that does not exist encloses nothing. -/
def push (h : Heap α) (enclosing : Option Nat) (bindings : Bindings α) : Heap α where
  scopes := h.scopes.push ⟨enclosing.filter (· < h.scopes.size), bindings⟩
  ordered := by
    intro i s p hs hp
    rw [Array.getElem?_push] at hs
    split at hs
    · rename_i hi
      obtain rfl := Option.some.inj hs
      have := Option.filter_eq_some_iff.1 hp
      simp_all
    · exact h.ordered i s p hs hp

/-- Gives a name a value in one scope. -/
def define (h : Heap α) (i : Nat) (name : String) (value : α) : Heap α where
  scopes := h.scopes.modify i fun s => { s with bindings := s.bindings.set name value }
  ordered := by
    intro j s p hs hp
    rw [Array.getElem?_modify] at hs
    split at hs
    · obtain ⟨s', hs', rfl⟩ := Option.map_eq_some_iff.1 hs
      exact h.ordered j s' p hs' hp
    · exact h.ordered j s p hs hp

/-- The scope around a scope. -/
def enclosing? (h : Heap α) (i : Nat) : Option Nat := h.scopes[i]?.bind (·.enclosing)

/-- The value of a name in one scope. -/
def get? (h : Heap α) (i : Nat) (name : String) : Option α :=
  h.scopes[i]?.bind (·.bindings.get? name)

/-- Whether one scope binds a name. -/
def binds (h : Heap α) (i : Nat) (name : String) : Bool := (h.get? i name).isSome

theorem enclosing?_lt {h : Heap α} {i p : Nat} (hp : h.enclosing? i = some p) : p < i := by
  obtain ⟨s, hs, hp⟩ := Option.bind_eq_some_iff.1 hp
  exact h.ordered i s p hs hp

/-- A binding leaves the scopes around a scope as they are. -/
@[simp] theorem enclosing?_define (h : Heap α) (i j : Nat) (name : String) (value : α) :
    (h.define i name value).enclosing? j = h.enclosing? j := by
  simp only [enclosing?, define, Array.getElem?_modify]
  split
  · cases h.scopes[j]? <;> rfl
  · rfl

@[simp] theorem size_define (h : Heap α) (i : Nat) (name : String) (value : α) :
    (h.define i name value).size = h.size := by
  simp [size, define]

/-- What a scope binds after a binding: one name in one scope is changed. -/
theorem get?_define (h : Heap α) (i j : Nat) (name other : String) (value : α) :
    (h.define i name value).get? j other =
      if j = i ∧ i < h.size ∧ other = name then some value else h.get? j other := by
  simp only [get?, define, size, Array.getElem?_modify]
  by_cases hij : i = j
  · subst hij
    by_cases hlt : i < h.scopes.size
    · simp [hlt, Bindings.get?_set]
    · simp [hlt]
  · simp [hij, Ne.symm hij]

/-! ### The way outward -/

/-- A scope and the ones around it, at most `n` of them. -/
def chainF (h : Heap α) : Nat → Nat → List Nat
  | 0, _ => []
  | n + 1, i => i :: (h.enclosing? i).elim [] (chainF h n)

/-- A scope and the ones around it, from the inside out.  Numbers fall on the way outward, so
that the number of a scope bounds its length. -/
def chain (h : Heap α) (i : Nat) : List Nat := chainF h (i + 1) i

/-- Fuel beyond the number of the scope makes no difference. -/
theorem chainF_congr (h : Heap α) (i : Nat) :
    ∀ n m, i < n → i < m → chainF h n i = chainF h m i := by
  induction i using Nat.strongRecOn with
  | ind i ih =>
    intro n m hn hm
    obtain ⟨n, rfl⟩ : ∃ k, n = k + 1 := ⟨n - 1, by omega⟩
    obtain ⟨m, rfl⟩ : ∃ k, m = k + 1 := ⟨m - 1, by omega⟩
    cases hp : h.enclosing? i with
    | none => simp [chainF, hp]
    | some p =>
      have hlt := enclosing?_lt hp
      simp only [chainF, hp, Option.elim_some]
      rw [ih p hlt n m (by omega) (by omega)]

/-- The chain of a scope goes on with the chain of the scope around it. -/
theorem chain_eq (h : Heap α) (i : Nat) :
    h.chain i = i :: (h.enclosing? i).elim [] h.chain := by
  cases hp : h.enclosing? i with
  | none => simp [chain, chainF, hp]
  | some p =>
    have hc : chainF h i p = h.chain p := chainF_congr h p i (p + 1) (enclosing?_lt hp) (by omega)
    change i :: (h.enclosing? i).elim [] (chainF h i) = i :: h.chain p
    rw [hp, Option.elim_some, hc]

/-! ### Access by search -/

/-- The innermost scope of a chain that binds a name. -/
def owner? (h : Heap α) (i : Nat) (name : String) : Option Nat :=
  (h.chain i).find? fun j => h.binds j name

/-- The error for a name that no scope of a chain binds. -/
def undefined (name : Token) : RuntimeError := ⟨some name, .undefinedVariable name.lexeme⟩

/-- The innermost scope that binds a name, which there must be. -/
def find (h : Heap α) (i : Nat) (name : Token) : Except RuntimeError Nat :=
  match h.owner? i name.lexeme with
  | some j => .ok j
  | none => .error (undefined name)

/-- The value of a name, in the innermost scope that binds it. -/
def get (h : Heap α) (i : Nat) (name : Token) : Except RuntimeError α := do
  let j ← h.find i name
  match h.get? j name.lexeme with
  | some v => .ok v
  | none => .error (undefined name)

/-- Gives a name a value in the innermost scope that binds it. -/
def assign (h : Heap α) (i : Nat) (name : Token) (value : α) : Except RuntimeError (Heap α) := do
  let j ← h.find i name
  return h.define j name.lexeme value

/-- The scope that is found binds the name. -/
theorem binds_of_owner? {h : Heap α} {i j : Nat} {name : String} (hj : h.owner? i name = some j) :
    h.binds j name = true := by
  simpa using List.find?_some hj

/-! ### Access by distance -/

/-- The scope that many steps outward.  The walk is over at the outermost scope, however many steps
are left. -/
def ancestor? (h : Heap α) : Nat → Nat → Option Nat
  | i, 0 => some i
  | i, d + 1 =>
    match h.enclosing? i with
    | none => none
    | some p => ancestor? h p d

theorem ancestor?_succ (h : Heap α) (i d : Nat) :
    h.ancestor? i (d + 1) = (h.enclosing? i).bind fun p => h.ancestor? p d := by
  rw [ancestor?]
  cases h.enclosing? i <;> rfl

/-- The scope at a distance is that member of the chain. -/
theorem ancestor?_eq_getElem? (h : Heap α) (i d : Nat) : h.ancestor? i d = (h.chain i)[d]? := by
  induction d generalizing i with
  | zero => rw [chain_eq]; rfl
  | succ d ih =>
    rw [ancestor?_succ, chain_eq]
    cases hp : h.enclosing? i with
    | none => simp
    | some p => simp [ih]

/-- The scope at a distance, which must not be negative or beyond the last scope. -/
def ancestor (h : Heap α) (i : Nat) (distance : Int) : Except Fault Nat :=
  match (if 0 ≤ distance then h.ancestor? i distance.toNat else none) with
  | some j => .ok j
  | none => .error (.badDistance distance)

/-- The value of a name in the scope at a distance. -/
def getAt (h : Heap α) (i : Nat) (distance : Int) (name : String) : Except Fault α := do
  let j ← h.ancestor i distance
  match h.get? j name with
  | some v => .ok v
  | none => .error (.unbound name distance)

/-- Gives a name a value in the scope at a distance, bound there before or not. -/
def assignAt (h : Heap α) (i : Nat) (distance : Int) (name : String) (value : α) :
    Except Fault (Heap α) := do
  let j ← h.ancestor i distance
  return h.define j name value

end Heap

end Lox
