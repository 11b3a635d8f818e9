/-
**The operations on scopes.**

Scopes lie inside each other as a tree, so that a scope may be on the way outward from many others.
Search and distance are two ways into this tree that agree: what is found by searching for a name
is what is at the least distance where the name is bound.  Whatever is done with the scopes, in any
order, the way outward from a scope ends and is fixed when the scope is made; an operation that
fails leaves all scopes as they were, and one that writes changes one binding of one scope.

Main definitions:

* `Lox.Heap.Operation`, `Lox.Heap.perform`, `Lox.Heap.after` — the operations, a single one and any
  sequence of them;
* `Lox.Heap.BindsAt` — a name is bound at a distance;
* `Lox.Heap.Lookups` — **what lookups from a scope give**, by its chain and bindings alone;
* `Lox.Heap.Rewritten`, `Lox.Heap.Framed` — **what an operation changes**.

Main results:

* `Lox.Heap.lookups` — search and distance agree;
* `Lox.Heap.framed` — an operation changes no more than it says;
* `Lox.Heap.operations_agree` — both after any sequence of operations.
-/

import Lox.Proofs.Machine.Shape
import Mathlib.Order.Bounds.Defs

set_option relaxedAutoImplicit false
set_option autoImplicit false

namespace Lox

namespace Heap

variable {α : Type}

/-! ### Operations -/

/-- The operations: a new scope, and what can be done from a scope that there is. -/
inductive Operation (α : Type) where
  | new (enclosing : Option Nat)
  | define (scope : Nat) (name : String) (value : α)
  | get (scope : Nat) (name : Token)
  | assign (scope : Nat) (name : Token) (value : α)
  | getAt (scope : Nat) (distance : Int) (name : String)
  | assignAt (scope : Nat) (distance : Int) (name : String) (value : α)
  | ancestor (scope : Nat) (distance : Int)
  | chain (scope : Nat)

/-- What an operation gives. -/
inductive Answer (α : Type) where
  | done
  | value (v : α)
  | scope (i : Nat)
  | scopes (is : List Nat)
deriving DecidableEq

/-- How an operation fails: by a runtime error, or by a fault. -/
inductive Failure where
  | error (e : RuntimeError)
  | fault (f : Fault)
deriving DecidableEq

/-- A read leaves the scopes as they are. -/
def read (h : Heap α) (r : Except Failure (Answer α)) : Except Failure (Answer α) × Heap α := (r, h)

/-- A write gives new scopes if it does not fail. -/
def write (h : Heap α) : Except Failure (Heap α) → Except Failure (Answer α) × Heap α
  | .ok h' => (.ok .done, h')
  | .error f => (.error f, h)

/-- **Performs an operation**: its answer or failure, and the scopes after it. -/
def perform (h : Heap α) : Operation α → Except Failure (Answer α) × Heap α
  | .new p => h.write (.ok (h.push p .empty))
  | .define i x v => h.write (.ok (h.define i x v))
  | .get i name => h.read (((h.get i name).mapError .error).map .value)
  | .assign i name v => h.write ((h.assign i name v).mapError .error)
  | .getAt i d x => h.read (((h.getAt i d x).mapError .fault).map .value)
  | .assignAt i d x v => h.write ((h.assignAt i d x v).mapError .fault)
  | .ancestor i d => h.read (((h.ancestor i d).mapError .fault).map .scope)
  | .chain i => h.read (.ok (.scopes (h.chain i)))

/-- The scopes **after** a sequence of operations, from none at all. -/
def after (ops : List (Operation α)) : Heap α := ops.foldl (fun h op => (h.perform op).2) .empty

/-- The scope that an operation is performed on, or inside which a new one is made. -/
def Operation.scope? : Operation α → Option Nat
  | .new p => p
  | .define i .. | .get i _ | .assign i .. | .getAt i .. | .assignAt i .. | .ancestor i _
  | .chain i => some i

/-- The name and the value that an operation writes. -/
def Operation.writes? : Operation α → Option (String × α)
  | .define _ x v | .assignAt _ _ x v => some (x, v)
  | .assign _ name v => some (name.lexeme, v)
  | .new _ | .get .. | .getAt .. | .ancestor .. | .chain _ => none

/-! ### The way outward -/

/-- Numbers fall on the way outward. -/
theorem chain_pairwise (h : Heap α) (i : Nat) : (h.chain i).Pairwise (· > ·) := by
  induction i using Nat.strongRecOn with
  | ind i ih =>
    rw [chain_eq]
    cases hp : h.enclosing? i with
    | none => simp
    | some p =>
      have hlt := enclosing?_lt hp
      have houter := ih p hlt
      rw [Option.elim_some, List.pairwise_cons]
      refine ⟨fun j hj => ?_, houter⟩
      rw [chain_eq] at hj houter
      rcases List.mem_cons.1 hj with rfl | hj
      · exact hlt
      · exact Nat.lt_trans ((List.pairwise_cons.1 houter).1 j hj) hlt

/-- No scope is met twice on the way outward. -/
theorem chain_nodup (h : Heap α) (i : Nat) : (h.chain i).Nodup :=
  (h.chain_pairwise i).imp fun hlt => (Nat.ne_of_lt hlt).symm

/-- The way outward goes through scopes that there are. -/
theorem lt_size_of_mem_chain {h : Heap α} {i j : Nat} (hi : i < h.size) (hj : j ∈ h.chain i) :
    j < h.size := by
  have hfall := h.chain_pairwise i
  rw [chain_eq] at hfall hj
  rcases List.mem_cons.1 hj with rfl | hj
  · exact hi
  · exact Nat.lt_trans ((List.pairwise_cons.1 hfall).1 j hj) hi

/-! ### Access by distance -/

/-- A scope is at a distance if it is that member of the chain. -/
theorem ancestor_eq_ok {h : Heap α} {i j : Nat} {d : Int} :
    h.ancestor i d = .ok j ↔ ∃ k : Nat, d = k ∧ (h.chain i)[k]? = some j := by
  constructor
  · intro hj
    by_cases hd : 0 ≤ d
    · refine ⟨d.toNat, by omega, ?_⟩
      rw [ancestor, if_pos hd, ancestor?_eq_getElem?] at hj
      cases hk : (h.chain i)[d.toNat]? with
      | none => rw [hk] at hj; cases hj
      | some k => rw [hk] at hj; cases hj; rfl
    · rw [ancestor, if_neg hd] at hj
      cases hj
  · rintro ⟨k, rfl, hk⟩
    simp [ancestor, ancestor?_eq_getElem?, hk]

/-- There is no scope at a distance that is negative, or not below the length of the chain. -/
theorem ancestor_eq_error {h : Heap α} {i : Nat} {d : Int} {f : Fault} :
    h.ancestor i d = .error f ↔ f = .badDistance d ∧ (d < 0 ∨ (h.chain i).length ≤ d) := by
  by_cases hd : 0 ≤ d
  · rw [ancestor, if_pos hd, ancestor?_eq_getElem?]
    by_cases hlen : d.toNat < (h.chain i).length
    · rw [List.getElem?_eq_getElem hlen]
      refine ⟨nofun, ?_⟩
      rintro ⟨-, hbad⟩
      omega
    · rw [List.getElem?_eq_none (Nat.le_of_not_lt hlen)]
      simp only [Except.error.injEq, eq_comm (a := Fault.badDistance d)]
      exact (and_iff_left (.inr (by omega))).symm
  · rw [ancestor, if_neg hd]
    simp only [Except.error.injEq, eq_comm (a := Fault.badDistance d)]
    exact (and_iff_left (.inl (by omega))).symm

/-- The value at a distance is missing if there is no such scope, or if this one scope does not
bind the name. -/
theorem getAt_eq_error {h : Heap α} {i : Nat} {d : Int} {x : String} {f : Fault} :
    h.getAt i d x = .error f ↔
      (f = .badDistance d ∧ (d < 0 ∨ (h.chain i).length ≤ d)) ∨
        (f = .unbound x d ∧ ∃ j, h.ancestor i d = .ok j ∧ h.binds j x = false) := by
  rw [← ancestor_eq_error, getAt]
  cases h.ancestor i d with
  | error g => simp [bind, Except.bind]
  | ok j =>
    cases hv : h.get? j x with
    | none =>
      simp only [bind, Except.bind, hv, binds, Except.error.injEq, reduceCtorEq, false_or,
        Except.ok.injEq, exists_eq_left', Option.isSome_none, and_true]
      exact eq_comm
    | some v => simp [bind, Except.bind, hv, binds]

theorem getAt_eq_ok {h : Heap α} {i : Nat} {d : Int} {x : String} {v : α} :
    h.getAt i d x = .ok v ↔ ∃ j, h.ancestor i d = .ok j ∧ h.get? j x = some v := by
  rw [getAt]
  cases h.ancestor i d with
  | error g => simp [bind, Except.bind]
  | ok j => cases hv : h.get? j x <;> simp [bind, Except.bind, hv]

/-- A write at a distance is a binding in that scope. -/
theorem assignAt_eq_ok {h h' : Heap α} {i : Nat} {d : Int} {x : String} {v : α} :
    h.assignAt i d x v = .ok h' ↔ ∃ j, h.ancestor i d = .ok j ∧ h' = h.define j x v := by
  rw [assignAt]
  cases h.ancestor i d <;> simp [bind, Except.bind, pure, Except.pure, eq_comm]

theorem assignAt_eq_error {h : Heap α} {i : Nat} {d : Int} {x : String} {v : α} {f : Fault} :
    h.assignAt i d x v = .error f ↔
      f = .badDistance d ∧ (d < 0 ∨ (h.chain i).length ≤ d) := by
  rw [← ancestor_eq_error, assignAt]
  cases h.ancestor i d <;> simp [bind, Except.bind, pure, Except.pure]

/-! ### Access by search -/

/-- A name is **bound at a distance**: in that one scope. -/
def BindsAt (h : Heap α) (i : Nat) (x : String) (k : Nat) : Prop :=
  ∃ j, (h.chain i)[k]? = some j ∧ h.binds j x = true

/-- The search for a name is over at the least distance at which it is bound. -/
theorem owner?_of_isLeast {h : Heap α} {i k : Nat} {x : String}
    (hk : IsLeast {k | h.BindsAt i x k} k) :
    ∃ j, (h.chain i)[k]? = some j ∧ h.owner? i x = some j := by
  obtain ⟨⟨j, hj, hbinds⟩, hleast⟩ := hk
  obtain ⟨hlt, hget⟩ := List.getElem?_eq_some_iff.1 hj
  refine ⟨j, hj, List.find?_eq_some_iff_getElem.2 ⟨hbinds, k, hlt, hget, fun l hl => ?_⟩⟩
  rw [Bool.not_eq_true', Bool.eq_false_iff]
  intro hl'
  have hle : k ≤ l := hleast ⟨_, List.getElem?_eq_getElem (Nat.lt_trans hl hlt), hl'⟩
  omega

/-- The search for a name finds nothing if it is bound at no distance. -/
theorem owner?_eq_none {h : Heap α} {i : Nat} {x : String} :
    h.owner? i x = none ↔ ¬ ∃ k, h.BindsAt i x k := by
  rw [owner?, List.find?_eq_none]
  constructor
  · rintro hnone ⟨k, j, hj, hbinds⟩
    exact hnone j (List.mem_iff_getElem?.2 ⟨k, hj⟩) hbinds
  · intro hnone j hj hbinds
    obtain ⟨k, hk⟩ := List.mem_iff_getElem?.1 hj
    exact hnone ⟨k, j, hk, hbinds⟩

theorem get_eq_error {h : Heap α} {i : Nat} {name : Token} {e : RuntimeError} :
    h.get i name = .error e ↔ e = undefined name ∧ ¬ ∃ k, h.BindsAt i name.lexeme k := by
  rw [← owner?_eq_none, get, find]
  cases ho : h.owner? i name.lexeme with
  | none => simp [bind, Except.bind, eq_comm]
  | some j =>
    obtain ⟨v, hv⟩ := Option.isSome_iff_exists.1 (binds_of_owner? ho)
    simp [bind, Except.bind, hv]

theorem assign_eq_error {h : Heap α} {i : Nat} {name : Token} {v : α} {e : RuntimeError} :
    h.assign i name v = .error e ↔ e = undefined name ∧ ¬ ∃ k, h.BindsAt i name.lexeme k := by
  rw [← owner?_eq_none, assign, find]
  cases ho : h.owner? i name.lexeme <;> simp [bind, Except.bind, pure, Except.pure, eq_comm]

/-- A write by search is a binding in a scope of the chain. -/
theorem assign_eq_ok {h h' : Heap α} {i : Nat} {name : Token} {v : α}
    (hok : h.assign i name v = .ok h') :
    ∃ j ∈ h.chain i, h' = h.define j name.lexeme v := by
  rw [assign, find] at hok
  cases ho : h.owner? i name.lexeme with
  | none => rw [ho] at hok; cases hok
  | some j =>
    rw [ho] at hok
    cases hok
    exact ⟨j, List.mem_of_find?_eq_some ho, rfl⟩

/-! ### What lookups give -/

/-- **What lookups from a scope give**: by search what there is at the least distance that binds the
name, by distance what there is in that one scope, and otherwise an error of the one kind that it
can be. -/
structure Lookups (h : Heap α) (i : Nat) : Prop where
  /-- The chain begins at the scope, goes on to the scope around as long as there is one, and
  ends. -/
  walk : h.Walk i (h.chain i)
  nodup : (h.chain i).Nodup
  existing : ∀ j ∈ h.chain i, j < h.size
  get_eq : ∀ (name : Token) (k : Nat), IsLeast {k | h.BindsAt i name.lexeme k} k →
    ∃ v, h.get i name = .ok v ∧ h.getAt i k name.lexeme = .ok v
  assign_eq : ∀ (name : Token) (v : α) (k : Nat), IsLeast {k | h.BindsAt i name.lexeme k} k →
    ∃ h', h.assign i name v = .ok h' ∧ h.assignAt i k name.lexeme v = .ok h'
  get_error : ∀ name e, h.get i name = .error e ↔
    e = undefined name ∧ ¬ ∃ k, h.BindsAt i name.lexeme k
  assign_error : ∀ name v e, h.assign i name v = .error e ↔
    e = undefined name ∧ ¬ ∃ k, h.BindsAt i name.lexeme k
  ancestor_ok : ∀ d j, h.ancestor i d = .ok j ↔ ∃ k : Nat, d = k ∧ (h.chain i)[k]? = some j
  ancestor_error : ∀ d f, h.ancestor i d = .error f ↔
    f = .badDistance d ∧ (d < 0 ∨ (h.chain i).length ≤ d)
  getAt_ok : ∀ d x v, h.getAt i d x = .ok v ↔ ∃ j, h.ancestor i d = .ok j ∧ h.get? j x = some v
  getAt_error : ∀ d x f, h.getAt i d x = .error f ↔
    (f = .badDistance d ∧ (d < 0 ∨ (h.chain i).length ≤ d)) ∨
      (f = .unbound x d ∧ ∃ j, h.ancestor i d = .ok j ∧ h.binds j x = false)
  assignAt_ok : ∀ d x v h', h.assignAt i d x v = .ok h' ↔
    ∃ j, h.ancestor i d = .ok j ∧ h' = h.define j x v
  assignAt_error : ∀ d x v f, h.assignAt i d x v = .error f ↔
    f = .badDistance d ∧ (d < 0 ∨ (h.chain i).length ≤ d)

/-- **Search and distance agree.** -/
theorem lookups {h : Heap α} {i : Nat} (hi : i < h.size) : h.Lookups i where
  walk := h.walk_chain i
  nodup := h.chain_nodup i
  existing := fun _ => lt_size_of_mem_chain hi
  get_eq := fun name k hk => by
    obtain ⟨j, hj, ho⟩ := owner?_of_isLeast hk
    obtain ⟨v, hv⟩ := Option.isSome_iff_exists.1 (binds_of_owner? ho)
    refine ⟨v, ?_, getAt_eq_ok.2 ⟨j, ancestor_eq_ok.2 ⟨k, rfl, hj⟩, hv⟩⟩
    simp [get, find, ho, bind, Except.bind, hv]
  assign_eq := fun name v k hk => by
    obtain ⟨j, hj, ho⟩ := owner?_of_isLeast hk
    have hj := ancestor_eq_ok.2 ⟨k, rfl, hj⟩
    refine ⟨h.define j name.lexeme v, ?_, assignAt_eq_ok.2 ⟨j, hj, rfl⟩⟩
    simp [assign, find, ho, bind, Except.bind, pure, Except.pure]
  get_error := fun _ _ => get_eq_error
  assign_error := fun _ _ _ => assign_eq_error
  ancestor_ok := fun _ _ => ancestor_eq_ok
  ancestor_error := fun _ _ => ancestor_eq_error
  getAt_ok := fun _ _ _ => getAt_eq_ok
  getAt_error := fun _ _ _ => getAt_eq_error
  assignAt_ok := fun _ _ _ _ => assignAt_eq_ok
  assignAt_error := fun _ _ _ _ => assignAt_eq_error

/-! ### What an operation changes -/

/-- **One binding of one scope is written**, and nothing else is changed. -/
structure Rewritten (h : Heap α) (i : Nat) (x : String) (v : α) (h' : Heap α) : Prop where
  existing : i < h.size
  written : h'.get? i x = some v
  others : ∀ j y, j ≠ i ∨ y ≠ x → h'.get? j y = h.get? j y
  size_eq : h'.size = h.size
  enclosing?_eq : ∀ j, h'.enclosing? j = h.enclosing? j

/-- **One scope is added**, which binds nothing, and nothing else is changed. -/
structure Added (h : Heap α) (p : Option Nat) (h' : Heap α) : Prop where
  size_eq : h'.size = h.size + 1
  enclosing?_new : h'.enclosing? h.size = p
  enclosing?_eq : ∀ j < h.size, h'.enclosing? j = h.enclosing? j
  get?_new : ∀ x, h'.get? h.size x = none
  get?_eq : ∀ j < h.size, ∀ x, h'.get? j x = h.get? j x

/-- A binding writes one binding. -/
theorem rewritten_define {h : Heap α} {i : Nat} (hi : i < h.size) (x : String) (v : α) :
    h.Rewritten i x v (h.define i x v) where
  existing := hi
  written := by rw [get?_define, if_pos ⟨rfl, hi, rfl⟩]
  others := fun j y hne => by
    rw [get?_define, if_neg]
    rintro ⟨rfl, -, rfl⟩
    rcases hne with hne | hne <;> exact hne rfl
  size_eq := size_define ..
  enclosing?_eq := fun _ => enclosing?_define ..

/-- **What an operation changes**: nothing if it fails or only reads, one binding if it writes, and
one scope is added if it makes a scope. -/
structure Framed (h : Heap α) (op : Operation α) : Prop where
  failed : ∀ f, (h.perform op).1 = .error f → (h.perform op).2 = h
  read : op.writes? = none → (∀ p, op ≠ .new p) → (h.perform op).2 = h
  written : ∀ x v, op.writes? = some (x, v) → ∀ a, (h.perform op).1 = .ok a →
    ∃ i, h.Rewritten i x v (h.perform op).2
  made : ∀ p, op = .new p → h.Added p (h.perform op).2

/-- A write that fails changes nothing. -/
theorem write_failed {h : Heap α} {r : Except Failure (Heap α)} {f : Failure}
    (hf : (h.write r).1 = .error f) : (h.write r).2 = h := by
  cases r with
  | ok h' => cases hf
  | error g => rfl

/-- A write that does not fail gives the new scopes. -/
theorem write_done {ε : Type} {h : Heap α} {r : Except ε (Heap α)} {k : ε → Failure} {a : Answer α}
    (ha : (h.write (r.mapError k)).1 = .ok a) : r = .ok (h.write (r.mapError k)).2 := by
  cases r with
  | ok h' => rfl
  | error g => cases ha

/-- **An operation changes no more than it says.** -/
theorem framed {h : Heap α} {op : Operation α} (hop : ∀ i, op.scope? = some i → i < h.size) :
    h.Framed op where
  failed := fun f hf => by
    cases op with
    | get | getAt | ancestor | chain => rfl
    | new | define | assign | assignAt => exact write_failed hf
  read := fun hread hnew => by
    cases op with
    | get | getAt | ancestor | chain => rfl
    | new p => exact absurd rfl (hnew p)
    | define | assign | assignAt => cases hread
  written := fun x v hwrites a ha => by
    cases op with
    | new | get | getAt | ancestor | chain => cases hwrites
    | define i =>
      cases hwrites
      exact ⟨i, rewritten_define (hop i rfl) x v⟩
    | assign i name =>
      cases hwrites
      obtain ⟨j, hj, heq⟩ := assign_eq_ok (write_done ha)
      refine ⟨j, ?_⟩
      rw [perform, heq]
      exact rewritten_define (lt_size_of_mem_chain (hop i rfl) hj) name.lexeme v
    | assignAt i d =>
      cases hwrites
      obtain ⟨j, hj, heq⟩ := assignAt_eq_ok.1 (write_done ha)
      obtain ⟨k, -, hk⟩ := ancestor_eq_ok.1 hj
      refine ⟨j, ?_⟩
      rw [perform, heq]
      exact rewritten_define (lt_size_of_mem_chain (hop i rfl) (List.mem_of_getElem? hk)) x v
  made := by
    rintro p rfl
    have hp : p.filter (· < h.size) = p := by
      cases p with
      | none => rfl
      | some i => simp [hop i rfl]
    refine ⟨size_push .., ?_, fun j hj => enclosing?_push_of_lt h p .empty hj, fun x => ?_,
      fun j hj x => ?_⟩
    · change (h.push p .empty).enclosing? h.size = p
      rw [enclosing?, getElem?_push, if_pos rfl]
      exact hp
    · change (h.push p .empty).get? h.size x = none
      rw [get?_push, if_pos rfl, Bindings.get?_empty]
    · change (h.push p .empty).get? j x = h.get? j x
      rw [get?_push, if_neg (Nat.ne_of_lt hj)]

/-! ### Any sequence of operations -/

theorem after_append (ops more : List (Operation α)) :
    after (ops ++ more) = more.foldl (fun h op => (h.perform op).2) (after ops) :=
  List.foldl_append ..

/-- The scopes after an operation have grown out of those before. -/
theorem extends_perform (h : Heap α) (op : Operation α) : h.Extends (h.perform op).2 := by
  cases op with
  | get | getAt | ancestor | chain => exact .refl h
  | new p => exact h.extends_push p .empty
  | define i x v => exact h.extends_define i x v
  | assign i name v =>
    rw [perform]
    cases ha : h.assign i name v with
    | error e => exact .refl h
    | ok h' =>
      obtain ⟨j, -, rfl⟩ := assign_eq_ok ha
      exact h.extends_define j name.lexeme v
  | assignAt i d x v =>
    rw [perform]
    cases ha : h.assignAt i d x v with
    | error f => exact .refl h
    | ok h' =>
      obtain ⟨j, -, rfl⟩ := assignAt_eq_ok.1 ha
      exact h.extends_define j x v

/-- The scopes after a longer sequence have grown out of those after its beginning. -/
theorem extends_after (ops more : List (Operation α)) :
    (after ops).Extends (after (ops ++ more)) := by
  rw [after_append]
  generalize after ops = h
  induction more generalizing h with
  | nil => exact .refl h
  | cons op more ih => exact (h.extends_perform op).trans (ih _)

/-- **The operations on scopes agree, whatever has been done before.**  After any sequence of
operations, lookups from any scope are as its chain and the bindings of the scopes on it say; the
next operation, on scopes that there are, changes no more than it says; and the chain of a scope
stays the same through all that follows. -/
theorem operations_agree (ops : List (Operation α)) :
    (∀ i < (after ops).size, (after ops).Lookups i) ∧
      (∀ op : Operation α, (∀ i, op.scope? = some i → i < (after ops).size) →
        (after ops).Framed op) ∧
      ∀ more, ∀ i < (after ops).size, (after (ops ++ more)).chain i = (after ops).chain i :=
  ⟨fun _ => lookups, fun _ => framed, fun more _ hi => (extends_after ops more).chain_eq hi⟩

/-- Two scopes inside one: what is written through the first is found from the second, at the same
distance by search and by distance, while a third scope binds the name itself. -/
theorem operations_agree_shared :
    let x : Token := ⟨.identifier, "x", 1, .none⟩
    let ops : List (Operation Nat) := [.new none, .define 0 "x" 1, .new (some 0), .new (some 0),
      .new (some 2), .define 3 "x" 7, .assign 1 x 5, .assignAt 3 4 "x" 9]
    IsLeast {k | (after ops).BindsAt 2 "x" k} 1 ∧
      (∃ v, (after ops).get 2 x = .ok v ∧ (after ops).getAt 2 1 "x" = .ok v) ∧
      (after ops).get 2 x = .ok 5 ∧ (after ops).get 3 x = .ok 7 := by
  intro x ops
  have hleast : IsLeast {k | (after ops).BindsAt 2 "x" k} 1 := by
    refine ⟨⟨0, by decide, by decide⟩, ?_⟩
    rintro k ⟨j, hj, hbinds⟩
    refine Nat.one_le_iff_ne_zero.2 ?_
    rintro rfl
    obtain rfl : j = 2 := Option.some.inj (hj.symm.trans (by decide))
    exact absurd hbinds (by decide)
  exact ⟨hleast, ((operations_agree ops).1 2 (by decide)).get_eq x 1 hleast, rfl, rfl⟩

end Heap

end Lox
