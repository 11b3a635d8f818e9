/-
**The state of a running program.**

The machine holds the heap of scopes, the scope in force, the distances of the references, the
tables of functions, classes and objects, and what has been printed.  Tables only grow; a class is
made after the class it inherits from, so that the search for a method ends.

Main definitions:

* `Lox.Closure`, `Lox.Native`, `Lox.ClassInfo`, `Lox.ObjectInfo` — what the tables hold;
* `Lox.Classes`, `Lox.Classes.findMethod` — the classes, and **the search for a method**;
* `Lox.Machine`, `Lox.Machine.initial` — the state, and the one every session begins with;
* `Lox.Machine.text` — how a value is printed;
* `Lox.Run` — steps of a machine, and the basic ones among them.

Main results:

* `Lox.Classes.findMethod_eq` — a method is the class's own, or else the superclass's;
* `Lox.Run.within_current` — **the scope in force is the same after a step inside another one**.
-/

import Lox.Machine.Value
import Lox.Scope.Distance
import Lox.Scope.Heap

set_option relaxedAutoImplicit false
set_option autoImplicit false

namespace Lox

/-! ### Functions -/

/-- A function or a method together with the scope it was declared in. -/
structure Closure where
  routine : Routine
  scope : Nat
  isInitializer : Bool := false

/-- What a native function does. -/
inductive NativeAction where
  /-- Tells the time. -/
  | clock
  /-- Writes out the call. -/
  | echo
  /-- Fails with a message. -/
  | fail (message : String)
  /-- Makes a value or an error out of its arguments alone. -/
  | compute (f : List Value → Except RuntimeError Value)

/-- A function that is not written in the language.  One with a negative arity can be named and
passed on, but no call of it has the right number of arguments. -/
structure Native where
  name : String
  arity : Int
  action : NativeAction

/-! ### Classes and objects -/

/-- A class: its name, the class it inherits from, and its own methods. -/
structure ClassInfo where
  name : String
  superclass : Option Nat
  methods : Bindings Closure

/-- An object: its class and its fields. -/
structure ObjectInfo where
  cls : Nat
  fields : Bindings Value
deriving DecidableEq

/-- All classes, by their numbers.  A class inherits from earlier ones only. -/
structure Classes where
  entries : Array ClassInfo
  ordered : ∀ (i : Nat) (c : ClassInfo) (p : Nat),
    entries[i]? = some c → c.superclass = some p → p < i

namespace Classes

/-- No classes. -/
def empty : Classes where
  entries := #[]
  ordered := by simp

instance : Inhabited Classes := ⟨empty⟩

/-- A new class.  A class that does not exist has nothing to inherit. -/
def push (cs : Classes) (c : ClassInfo) : Classes where
  entries := cs.entries.push { c with superclass := c.superclass.filter (· < cs.entries.size) }
  ordered := by
    intro i s p hs hp
    rw [Array.getElem?_push] at hs
    split at hs
    · rename_i hi
      obtain rfl := Option.some.inj hs
      have := Option.filter_eq_some_iff.1 hp
      simp_all
    · exact cs.ordered i s p hs hp

/-- The search for a method through at most `n` classes. -/
def findMethodF (cs : Classes) (name : String) : Nat → Nat → Option Closure
  | 0, _ => none
  | n + 1, i =>
    match cs.entries[i]? with
    | none => none
    | some c =>
      match c.methods.get? name with
      | some m => some m
      | none => c.superclass.bind (findMethodF cs name n)

/-- The **search for a method**: the nearest one, from the given class on. -/
def findMethod (cs : Classes) (i : Nat) (name : String) : Option Closure :=
  findMethodF cs name (i + 1) i

theorem findMethodF_congr (cs : Classes) (name : String) (i : Nat) :
    ∀ n m, i < n → i < m → findMethodF cs name n i = findMethodF cs name m i := by
  induction i using Nat.strongRecOn with
  | ind i ih =>
    intro n m hn hm
    obtain ⟨n, rfl⟩ : ∃ k, n = k + 1 := ⟨n - 1, by omega⟩
    obtain ⟨m, rfl⟩ : ∃ k, m = k + 1 := ⟨m - 1, by omega⟩
    cases hc : cs.entries[i]? with
    | none => simp only [findMethodF, hc]
    | some c =>
      have hs : c.superclass.bind (findMethodF cs name n) =
          c.superclass.bind (findMethodF cs name m) := by
        cases hp : c.superclass with
        | none => rfl
        | some p =>
          have hlt := cs.ordered i c p hc hp
          exact ih p hlt n m (by omega) (by omega)
      simp only [findMethodF, hc, hs]

/-- A method is the class's own, or else the one that the superclass has. -/
theorem findMethod_eq (cs : Classes) (i : Nat) (name : String) (c : ClassInfo)
    (hc : cs.entries[i]? = some c) :
    cs.findMethod i name =
      (c.methods.get? name).or (c.superclass.bind fun p => cs.findMethod p name) := by
  unfold findMethod
  simp only [findMethodF, hc]
  cases c.methods.get? name with
  | some m => rfl
  | none =>
    cases hp : c.superclass with
    | none => rfl
    | some p =>
      have hlt := cs.ordered i c p hc hp
      exact findMethodF_congr cs name p i (p + 1) hlt (by omega)

end Classes

/-! ### The machine -/

/-- The state of a running program. -/
structure Machine where
  heap : Heap Value
  /-- The scope in force. -/
  current : Nat
  distances : Distances
  closures : Array Closure
  natives : Array Native
  classes : Classes
  objects : Array ObjectInfo
  /-- The lines printed so far. -/
  printed : Array String
  /-- What the clock shows. -/
  time : Number

namespace Machine

/-- The number of the global scope. -/
def globalScope : Nat := 0

/-- The function that tells the time. -/
def clock : Native where
  name := "clock"
  arity := 0
  action := .clock

/-- Makes a native function known by a global name.  Every registration makes a value of its own,
which is equal to itself alone: a function that the host registers under two names is two values
here, where on the host it is one.  No result depends on this. -/
def register (m : Machine) (name : String) (f : Native) : Machine :=
  { m with
    natives := m.natives.push f
    heap := m.heap.define globalScope name (.native m.natives.size) }

/-- The machine every session begins with: its one global is the clock. -/
def initial (time : Number) : Machine :=
  register
    { heap := Heap.empty.push none .empty
      current := globalScope
      distances := {}
      closures := #[]
      natives := #[]
      classes := .empty
      objects := #[]
      printed := #[]
      time := time }
    clock.name clock

/-- The name of a class. -/
def className (m : Machine) (id : Nat) : String := (m.classes.entries[id]?).elim "" (·.name)

/-- How a value is printed. -/
def text (m : Machine) : Value → String
  | .nil => "nil"
  | .bool b => if b then "true" else "false"
  | .number x => x.text
  | .string s => s
  | .closure id => "<fn " ++ (m.closures[id]?).elim "" (·.routine.name.lexeme) ++ ">"
  | .native _ => "<native fn>"
  | .cls id => m.className id
  | .object id => (m.objects[id]?).elim "" (fun o => m.className o.cls) ++ " instance"

/-- The global names with their values. -/
def globals (m : Machine) : List (String × Value) :=
  (m.heap.scopes[globalScope]?).elim [] (·.bindings.entries)

/-- What can be called; a class with its initializer, if it has one. -/
inductive Callable where
  | closure (c : Closure)
  | native (f : Native)
  | cls (id : Nat) (initializer : Option Closure)

/-- What a value stands for when it is called. -/
def callable? (m : Machine) : Value → Option Callable
  | .closure id => (m.closures[id]?).map .closure
  | .native id => (m.natives[id]?).map .native
  | .cls id => some (.cls id (m.classes.findMethod id Routine.initializerName))
  | _ => none

/-- How many arguments a call takes; a class takes those of its initializer. -/
def Callable.arity : Callable → Int
  | .closure c => c.routine.params.length
  | .native f => f.arity
  | .cls _ initializer => initializer.elim 0 (·.routine.params.length)

end Machine

/-! ### Steps -/

/-- A step of a machine: the machine goes on also where no value is given. -/
abbrev Run := EStateM Interrupt Machine

namespace Run

/-- The machine that a step leaves behind. -/
def after {α : Type} (step : Run α) (m : Machine) : Machine :=
  match step m with
  | .ok _ m => m
  | .error _ m => m

/-- The result of an operator. -/
def ofOperator {α : Type} : Except Interrupt α → Run α
  | .ok a => pure a
  | .error i => throw i

/-- The result of an access by search, or of a computation that can only fail as a program does. -/
def ofSearch {α : Type} : Except RuntimeError α → Run α
  | .ok a => pure a
  | .error e => throw (.error e)

/-- The result of an access by distance. -/
def ofDistance {α : Type} : Except Fault α → Run α
  | .ok a => pure a
  | .error f => throw (.fault f)

/-- Prints a line. -/
def print (line : String) : Run Unit :=
  modify fun m => { m with printed := m.printed.push line }

/-- A new scope inside the given one. -/
def newScope (enclosing : Nat) (bindings : Bindings Value) : Run Nat :=
  modifyGet fun m => (m.heap.size, { m with heap := m.heap.push (some enclosing) bindings })

/-- Gives a name a value in one scope. -/
def store (scope : Nat) (name : String) (value : Value) : Run Unit :=
  modify fun m => { m with heap := m.heap.define scope name value }

/-- Gives a name a value in the scope in force. -/
def define (name : String) (value : Value) : Run Unit := do
  store (← get).current name value

/-- A new function. -/
def newClosure (c : Closure) : Run Value :=
  modifyGet fun m => (.closure m.closures.size, { m with closures := m.closures.push c })

/-- A new class. -/
def newClass (c : ClassInfo) : Run Value :=
  modifyGet fun m => (.cls m.classes.entries.size, { m with classes := m.classes.push c })

/-- A new object of a class, without fields. -/
def newObject (cls : Nat) : Run Value :=
  modifyGet fun m =>
    (.object m.objects.size, { m with objects := m.objects.push ⟨cls, .empty⟩ })

/-- Gives a field of an object a value. -/
def setField (object : Nat) (name : String) (value : Value) : Run Unit :=
  modify fun m =>
    { m with objects := m.objects.modify object fun o =>
      { o with fields := o.fields.set name value } }

/-- A method of an object: a new function whose scope binds `this`. -/
def bindMethod (method : Closure) (object : Value) : Run Closure := do
  let scope ← newScope method.scope (Bindings.empty.set thisName object)
  return { method with scope := scope }

/-- A step inside the given scope; after it the scope in force is the one before, however the step
ended. -/
def within {α : Type} (scope : Nat) (step : Run α) : Run α := fun m =>
  let previous := m.current
  match step { m with current := scope } with
  | .ok a m => .ok a { m with current := previous }
  | .error i m => .error i { m with current := previous }

/-- A `return` ends the step and gives its value; without one the value is `nil`. -/
def catchReturn (step : Run Unit) : Run Value := fun m =>
  match step m with
  | .ok _ m => .ok .nil m
  | .error (.returned v) m => .ok v m
  | .error i m => .error i m

/-- The scope in force is the same after a step inside another one. -/
@[simp] theorem within_current {α : Type} (scope : Nat) (step : Run α) (m : Machine) :
    (after (within scope step) m).current = m.current := by
  unfold after within
  cases step { m with current := scope } <;> rfl

end Run

end Lox
