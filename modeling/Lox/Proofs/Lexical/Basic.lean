/-
**Names and cells.**

A second machine for the same programs, which knows no distances and no scopes that change.  Every
local variable is a *cell*.  The names in force at a place are an immutable map from names to
cells: a declaration makes a new cell and goes on with a larger map, and whoever holds the old map
never sees the new name.  A name that the map does not hold is global, and is looked up in the one
table of globals when it is used.

Values are the values of the other machine, and the tables of functions, classes and objects are
filled in the same order, so that two values are the same exactly when the other machine says so.

Main definitions:

* `Lox.Lexical.Names` — **the names in force**;
* `Lox.Lexical.Closure`, `Lox.Lexical.Class` — functions with the names in force at their
  declaration, and classes;
* `Lox.Lexical.State`, `Lox.Lexical.State.initial` — the state of a run, and how it begins;
* `Lox.Lexical.Run` — steps, and the basic ones among them.
-/

import Lox.Machine.Basic

set_option relaxedAutoImplicit false
set_option autoImplicit false

namespace Lox

namespace Lexical

/-! ### Names -/

/-- The **names in force**: the cells of the local ones, and whether the place is local, so that
what is declared there is local as well. -/
structure Names where
  cells : Bindings Nat
  isLocal : Bool

namespace Names

/-- The names at the top of a program: all are global. -/
def top : Names := ⟨.empty, false⟩

/-- The cell of a local name. -/
def cell? (ρ : Names) (x : String) : Option Nat := ρ.cells.get? x

/-- The same names inside a block. -/
def inside (ρ : Names) : Names := { ρ with isLocal := true }

/-- One more local name. -/
def bind (ρ : Names) (x : String) (cell : Nat) : Names := ⟨ρ.cells.set x cell, true⟩

@[simp] theorem cell?_inside (ρ : Names) (x : String) : ρ.inside.cell? x = ρ.cell? x := rfl

theorem cell?_bind (ρ : Names) (x y : String) (cell : Nat) :
    (ρ.bind x cell).cell? y = if y = x then some cell else ρ.cell? y :=
  Bindings.get?_set ρ.cells x y cell

end Names

/-! ### Functions and classes -/

/-- A function or a method together with the names in force at its declaration. -/
structure Closure where
  routine : Routine
  names : Names
  isInitializer : Bool

/-- A class: its name, the class it inherits from, and its own methods. -/
inductive Class where
  | mk (name : String) (superclass : Option Class) (methods : Bindings Closure)

namespace Class

def name : Class → String
  | mk name _ _ => name

/-- The search for a method: the nearest one, from the given class on. -/
def findMethod : Class → String → Option Closure
  | mk _ none methods, x => methods.get? x
  | mk _ (some superclass) methods, x => (methods.get? x).or (superclass.findMethod x)

end Class

/-! ### The state of a run -/

/-- The state of a run.  A cell is empty until its variable has its first value. -/
structure State where
  cells : Array (Option Value)
  globals : Bindings Value
  closures : Array Closure
  classes : Array Class
  natives : Array Native
  objects : Array ObjectInfo
  /-- The lines printed so far. -/
  printed : Array String
  /-- What the clock shows. -/
  time : Number

namespace State

/-- Makes a native function known by a global name. -/
def register (s : State) (name : String) (f : Native) : State :=
  { s with
    natives := s.natives.push f
    globals := s.globals.set name (.native s.natives.size) }

/-- The state every run begins with: its one global is the clock. -/
def initial (time : Number) : State :=
  register
    { cells := #[]
      globals := .empty
      closures := #[]
      classes := #[]
      natives := #[]
      objects := #[]
      printed := #[]
      time := time }
    Machine.clock.name Machine.clock

/-- What a cell holds. -/
def cell? (s : State) (c : Nat) : Option Value := (s.cells[c]?).join

/-- The name of a class. -/
def className (s : State) (id : Nat) : String := (s.classes[id]?).elim "" Class.name

/-- How a value is printed. -/
def text (s : State) : Value → String
  | .nil => "nil"
  | .bool b => if b then "true" else "false"
  | .number x => x.text
  | .string t => t
  | .closure id => "<fn " ++ (s.closures[id]?).elim "" (·.routine.name.lexeme) ++ ">"
  | .native _ => "<native fn>"
  | .cls id => s.className id
  | .object id => (s.objects[id]?).elim "" (fun o => s.className o.cls) ++ " instance"

/-- A method that objects of a class have. -/
def findMethod (s : State) (cls : Nat) (name : String) : Option Closure :=
  (s.classes[cls]?).bind (·.findMethod name)

/-- What can be called; a class with its initializer, if it has one. -/
inductive Callable where
  | closure (c : Closure)
  | native (f : Native)
  | cls (id : Nat) (initializer : Option Closure)

/-- What a value stands for when it is called. -/
def callable? (s : State) : Value → Option Callable
  | .closure id => (s.closures[id]?).map .closure
  | .native id => (s.natives[id]?).map .native
  | .cls id => some (.cls id (s.findMethod id Routine.initializerName))
  | _ => none

/-- How many arguments a call takes; a class takes those of its initializer. -/
def Callable.arity : Callable → Int
  | .closure c => c.routine.params.length
  | .native f => f.arity
  | .cls _ initializer => initializer.elim 0 (·.routine.params.length)

end State

/-! ### Steps -/

/-- A step of a run. -/
abbrev Run := EStateM Interrupt State

namespace Run

/-- Prints a line. -/
def print (line : String) : Run Unit := modify fun s => { s with printed := s.printed.push line }

/-- A new cell. -/
def newCell (content : Option Value) : Run Nat :=
  modifyGet fun s => (s.cells.size, { s with cells := s.cells.push content })

/-- Gives a cell a value. -/
def setCell (cell : Nat) (v : Value) : Run Unit :=
  modify fun s => { s with cells := s.cells.modify cell fun _ => some v }

/-- Gives a global name a value. -/
def setGlobal (x : String) (v : Value) : Run Unit :=
  modify fun s => { s with globals := s.globals.set x v }

/-- What a cell holds; an empty one has nothing to give. -/
def readCell (x : String) (cell : Nat) : Run Value := do
  match (← get).cell? cell with
  | some v => return v
  | none => throw (.fault (.unbound x 0))

/-- A new function. -/
def newClosure (c : Closure) : Run Value :=
  modifyGet fun s => (.closure s.closures.size, { s with closures := s.closures.push c })

/-- A new class. -/
def newClass (c : Class) : Run Value :=
  modifyGet fun s => (.cls s.classes.size, { s with classes := s.classes.push c })

/-- A new object of a class, without fields. -/
def newObject (cls : Nat) : Run Value :=
  modifyGet fun s =>
    (.object s.objects.size, { s with objects := s.objects.push ⟨cls, .empty⟩ })

/-- Gives a field of an object a value. -/
def setField (object : Nat) (name : String) (value : Value) : Run Unit :=
  modify fun s =>
    { s with objects := s.objects.modify object fun o =>
      { o with fields := o.fields.set name value } }

/-- A method of an object: `this` is one more of its names. -/
def bindMethod (method : Closure) (object : Value) : Run Closure := do
  let cell ← newCell (some object)
  return { method with names := method.names.bind thisName cell }

/-- New local names with their values, in their order. -/
def bindAll : Names → List (String × Value) → Run Names
  | ρ, [] => return ρ
  | ρ, (x, v) :: rest => do
    let cell ← newCell (some v)
    bindAll (ρ.bind x cell) rest

/-- The names behind the declaration of a name, and the cell that waits for its value; at the top
of a program the name is global. -/
def declare (ρ : Names) (x : String) : Run (Names × Option Nat) :=
  if ρ.isLocal then do
    let cell ← newCell none
    return (ρ.bind x cell, some cell)
  else
    return (ρ, none)

/-- Gives a declared name its value. -/
def fill (x : String) (v : Value) : Option Nat → Run Unit
  | some cell => setCell cell v
  | none => setGlobal x v

/-- A `return` ends the step and gives its value; without one the value is `nil`. -/
def catchReturn (step : Run Names) : Run Value := fun s =>
  match step s with
  | .ok _ s => .ok .nil s
  | .error (.returned v) s => .ok v s
  | .error i s => .error i s

end Run

end Lexical

end Lox
