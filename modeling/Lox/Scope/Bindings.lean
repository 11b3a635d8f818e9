/-
**Bindings.**

A finite map from names to values, in the order in which the names were first bound.

Main definitions:

* `Lox.Bindings` — names with their values;
* `Lox.Bindings.get?`, `Lox.Bindings.binds`, `Lox.Bindings.set` — **looking up and binding**.

Main results:

* `Lox.Bindings.get?_set` — a name looked up after a binding;
* `Lox.Bindings.binds_set` — which names are bound after a binding.
-/

set_option relaxedAutoImplicit false
set_option autoImplicit false

namespace Lox

/-- Names with their values; no name has two. -/
structure Bindings (α : Type) where
  entries : List (String × α) := []
deriving DecidableEq

namespace Bindings

variable {α : Type}

/-- The value of a name in a list of entries. -/
def lookup (name : String) : List (String × α) → Option α
  | [] => none
  | (n, v) :: rest => if n = name then some v else lookup name rest

/-- The entries after a name is given a value: in its place if it has one, else at the end. -/
def update (name : String) (value : α) : List (String × α) → List (String × α)
  | [] => [(name, value)]
  | (n, v) :: rest => if n = name then (n, value) :: rest else (n, v) :: update name value rest

theorem lookup_update (name other : String) (value : α) (es : List (String × α)) :
    lookup other (update name value es) = if other = name then some value else lookup other es := by
  induction es with
  | nil => grind [lookup, update]
  | cons e es ih => grind [lookup, update]

/-- No names. -/
def empty : Bindings α := {}

/-- The value of a name. -/
def get? (b : Bindings α) (name : String) : Option α := lookup name b.entries

/-- Whether a name has a value. -/
def binds (b : Bindings α) (name : String) : Bool := (b.get? name).isSome

/-- Gives a name a value. -/
def set (b : Bindings α) (name : String) (value : α) : Bindings α := ⟨update name value b.entries⟩

/-- Gives names their values one after the other. -/
def ofList (es : List (String × α)) : Bindings α := es.foldl (fun b e => b.set e.1 e.2) empty

@[simp] theorem get?_empty (name : String) : (empty : Bindings α).get? name = none := rfl

/-- A name looked up after a binding. -/
theorem get?_set (b : Bindings α) (name other : String) (value : α) :
    (b.set name value).get? other = if other = name then some value else b.get? other :=
  lookup_update name other value b.entries

@[simp] theorem get?_set_self (b : Bindings α) (name : String) (value : α) :
    (b.set name value).get? name = some value := by
  simp [get?_set]

/-- A name once bound stays bound. -/
theorem binds_set (b : Bindings α) (name other : String) (value : α) :
    (b.set name value).binds other = (decide (other = name) || b.binds other) := by
  by_cases h : other = name <;> simp [binds, get?_set, h]

theorem get?_eq_none_iff {b : Bindings α} {name : String} :
    b.get? name = none ↔ b.binds name = false := by
  simp [binds]

@[simp] theorem binds_empty (name : String) : (empty : Bindings α).binds name = false := rfl

theorem update_update (name : String) (v w : α) (es : List (String × α)) :
    update name w (update name v es) = update name w es := by
  induction es with
  | nil => simp [update]
  | cons e es ih =>
    by_cases h : e.1 = name
    · simp [update, h]
    · simp [update, h, ih]

/-- Of two values given to a name, the later one counts. -/
@[simp] theorem set_set (b : Bindings α) (name : String) (v w : α) :
    (b.set name v).set name w = b.set name w := by
  simp only [set, update_update]

end Bindings

end Lox
