/-
**Declarations and bodies.**

What a program does to its names: a declared name comes into force and is given its value, a block
and a body open a scope of their own, and a class makes its methods known.  Each is shown to end
alike over scopes and over cells.

A function is made before its name has a value, and a class after its name has one that does not
count yet.  Both orders lead to the same heap, so that the name can be taken to have its value
first.

Main definitions:

* `Lox.InForce` — **the scope in force** mirrors the names, and has no variables but those declared;
* `Lox.Awaits` — the cell that a declared name waits in;
* `Lox.CallableMirrors` — what is called and its counterpart.

Main results:

* `Lox.declare_alike`, `Lox.fill_alike` — a name is declared, and given its value;
* `Lox.function_alike`, `Lox.declareClass_alike` — **functions and classes**;
* `Lox.EndsAlike.within` — a step inside a new scope;
* `Lox.bindAll_alike` — the parameters of a body.
-/

import Lox.Proofs.Lexical.Steps

set_option relaxedAutoImplicit false
set_option autoImplicit false

namespace Lox

open Placement

/-! ### The scope in force -/

/-- The **scope in force** mirrors the names, and has no variables but those of the innermost static
scope. -/
structure InForce (W : Placement) (m : Machine) (Γ : Scopes) (ρ : Lexical.Names) : Prop where
  mirrors : Mirrors W m.heap Γ m.current ρ
  owned : Owned W Γ m.current

section

variable {L : Ledger} {W W' : Placement} {m m' : Machine} {μ : Lexical.State} {Γ : Scopes}
  {ρ : Lexical.Names} {x : String}

/-- What is in force stays so over steps that declare nothing in the scope. -/
theorem InForce.mono (hin : InForce W m Γ ρ) (hc : Corresponds L W m μ)
    (hg : Grows Nowhere W m.heap W' m'.heap) (hcur : m'.current = m.current) :
    InForce W' m' Γ ρ := by
  have hlt := hin.mirrors.lt_size hc.stores.size_pos
  refine ⟨?_, ?_⟩
  · rw [hcur]
    exact hin.mirrors.mono hg fun _ _ hS => hS.elim
  · rw [hcur]
    exact hin.owned.mono hg (fun _ hS => hS.elim) hlt

/-! ### Names and their values -/

/-- The cell in which a declared name waits for its value; a global has none. -/
def Awaits (W : Placement) (m : Machine) (Γ : Scopes) (x : String) (cell? : Option Nat) : Prop :=
  (Γ = [] → cell? = none) ∧ (Γ ≠ [] → cell?.isSome = true ∧ W m.current x = cell?)

theorem Awaits.mono {cell? : Option Nat} {S : Nat → String → Prop} (haw : Awaits W m Γ x cell?)
    (hg : Grows S W m.heap W' m'.heap) (hcur : m'.current = m.current) :
    Awaits W' m' Γ x cell? := by
  refine ⟨haw.1, fun hΓ => ?_⟩
  obtain ⟨hsome, hplace⟩ := haw.2 hΓ
  obtain ⟨c, rfl⟩ := Option.isSome_iff_exists.1 hsome
  exact ⟨hsome, by rw [hcur, hg.kept _ _ _ hplace]⟩

/-- A name is declared; nothing is to be done for it over scopes. -/
theorem declare_alike {name : Token} {inBody : Bool} (hc : Corresponds L W m μ)
    (hin : InForce W m Γ ρ) (hd : L.Declares Γ name) :
    EndsAlike L (Here m.current) inBody W m
      (fun W' m' _ b => InForce W' m' (Γ.mark name.lexeme .declared) b.1 ∧
        Awaits W' m' Γ name.lexeme b.2)
      ((Pure.pure () : Run Unit) m) (Lexical.Run.declare ρ name.lexeme μ) := by
  obtain ⟨hm, ho⟩ := hin
  have hlocal := hm.isLocal_eq
  cases Γ with
  | nil =>
    have hstep : Lexical.Run.declare ρ name.lexeme μ = .ok (ρ, none) μ := by
      rw [Lexical.Run.declare, if_neg (by simp [hlocal])]
      rfl
    rw [hstep]
    exact .ok (.refl ..) rfl hc ⟨⟨hm, trivial⟩, fun _ => rfl, fun h => absurd rfl h⟩
  | cons γ Γ =>
    obtain ⟨hplain, hscope⟩ := hd
    obtain ⟨hfree, hmay⟩ := hscope γ Γ rfl
    have hstep : Lexical.Run.declare ρ name.lexeme μ =
        .ok (ρ.bind name.lexeme μ.cells.size, some μ.cells.size)
          { μ with cells := μ.cells.push none } := by
      rw [Lexical.Run.declare, if_pos (by simp [hlocal])]
      rfl
    have hlt := hm.lt_size hc.stores.size_pos
    -- The scope in force lies inside another one, so that it is not the global one.
    have hpos : 0 < m.current := by
      obtain ⟨-, -, p, σ, hp, -⟩ := hm
      exact Nat.lt_of_le_of_lt (Nat.zero_le p) (Heap.enclosing?_lt hp)
    have hplace := ho.free hfree
    have hs := hc.stores.declare hpos hlt hplace fun _ => by
      rw [hm.length_chain hc.stores.enclosing?_global]
      exact hmay
    have hg := Grows.place (S := Here m.current) (h := m.heap) μ.cells.size hplace ⟨rfl, hplain⟩
    rw [hstep]
    refine .ok hg rfl (hc.withHeap hg (fun _ _ hS => hS.2) hs) ⟨⟨?_, ho.declare⟩, ?_⟩
    · exact hm.declare fun h => absurd h (by simp)
    · exact ⟨fun h => absurd h (by simp), fun _ => ⟨rfl, place_self ..⟩⟩

/-- The state after a declared name is given its value. -/
def Lexical.State.filled (s : Lexical.State) (x : String) (v : Value) :
    Option Nat → Lexical.State
  | some cell => { s with cells := s.cells.modify cell fun _ => some v }
  | none => { s with globals := s.globals.set x v }

theorem Lexical.Run.fill_eq (x : String) (v : Value) (cell? : Option Nat) (μ : Lexical.State) :
    Lexical.Run.fill x v cell? μ = .ok () (μ.filled x v cell?) := by
  cases cell? <;> rfl

/-- A declared name is given its value: nothing else changes. -/
theorem Corresponds.define {cell? : Option Nat} (hc : Corresponds L W m μ)
    (hin : InForce W m (Γ.mark x .declared) ρ) (haw : Awaits W m Γ x cell?) (hx : IsPlain x)
    (v : Value) :
    Corresponds L W { m with heap := m.heap.define m.current x v } (μ.filled x v cell?) ∧
      InForce W { m with heap := m.heap.define m.current x v } (Γ.mark x .defined) ρ := by
  obtain ⟨hm, ho⟩ := hin
  have hext : m.heap.Extends (m.heap.define m.current x v) := Heap.extends_define ..
  have hg : Grows Nowhere W m.heap W (m.heap.define m.current x v) := .of_extends _ W hext
  have hlt := hm.lt_size hc.stores.size_pos
  cases Γ with
  | nil =>
    obtain ⟨hcur, hrest⟩ := hm
    obtain rfl : cell? = none := haw.1 rfl
    have hs := hc.stores.writeGlobal x v
    rw [← hcur] at hs
    exact ⟨hc.withHeap hg (fun _ _ hS => hS.elim) hs, ⟨⟨hcur, hrest⟩, trivial⟩⟩
  | cons γ Γ =>
    obtain ⟨hsome, hplace⟩ := haw.2 (by simp)
    obtain ⟨c, rfl⟩ := Option.isSome_iff_exists.1 hsome
    -- The cell was made when the name was declared; now it gets its value.
    have hs := hc.stores.write (v := v) hplace fun h => absurd h hx.2
    refine ⟨hc.withHeap hg (fun _ _ hS => hS.elim) hs, ⟨?_, ?_⟩⟩
    · have hb : (m.heap.define m.current x v).binds m.current x = true := by
        rw [Heap.binds, Heap.get?_define, if_pos ⟨rfl, hlt, rfl⟩]
        rfl
      have hm' := hm.mono hg fun _ _ hS => hS.elim
      have hdef := hm'.define (x := x) (by simp [Bindings.binds_set]) hb
      rw [Bindings.set_set] at hdef
      exact hdef
    · have hdef := ho.define (x := x)
      rw [Bindings.set_set] at hdef
      exact hdef

/-- A declared name is given its value. -/
theorem fill_alike {cell? : Option Nat} {inBody : Bool} (hc : Corresponds L W m μ)
    (hin : InForce W m (Γ.mark x .declared) ρ) (haw : Awaits W m Γ x cell?) (hx : IsPlain x)
    (v : Value) :
    EndsAlike L (Here m.current) inBody W m
      (fun W' m' _ _ => InForce W' m' (Γ.mark x .defined) ρ)
      (Run.define x v m) (Lexical.Run.fill x v cell? μ) := by
  obtain ⟨hc', hin'⟩ := hc.define hin haw hx v
  rw [Lexical.Run.fill_eq]
  exact .ok (.of_extends _ W (Heap.extends_define ..)) rfl hc' hin'

/-! ### Functions -/

/-- A function is declared.  Its body knows its name with its value, so that the name is given the
value first; the machine does so last. -/
theorem function_alike {routine : Routine} {inBody : Bool} (hc : Corresponds L W m μ)
    (hin : InForce W m Γ ρ) (hd : L.Declares Γ routine.name)
    (hr : routine.Scoped L (Γ.mark routine.name.lexeme .defined)) :
    EndsAlike L (Here m.current) inBody W m
      (fun W' m' _ ρ' => InForce W' m' (Γ.mark routine.name.lexeme .defined) ρ')
      ((do
        let f ← Run.newClosure ⟨routine, (← get).current, false⟩
        Run.define routine.name.lexeme f : Run Unit) m)
      ((do
        let (ρ, cell?) ← Lexical.Run.declare ρ routine.name.lexeme
        let f ← Lexical.Run.newClosure ⟨routine, ρ, false⟩
        Lexical.Run.fill routine.name.lexeme f cell?
        return ρ : Lexical.Run Lexical.Names) μ) := by
  refine EndsAlike.bind (x := Pure.pure ()) (f := fun _ => do
    let f ← Run.newClosure ⟨routine, (← get).current, false⟩
    Run.define routine.name.lexeme f) (declare_alike hc hin hd) ?_
  rintro - ⟨ρ', cell?⟩ W' m' μ' - hcur hc' ⟨hin', haw⟩
  rw [← hcur]
  -- The number of the function is known before the function is made.
  obtain ⟨hc'', hin''⟩ := hc'.define hin' haw hd.1 (.closure m'.closures.size)
  have hcl : ClosureMirrors L W' (m'.heap.define m'.current routine.name.lexeme
      (.closure m'.closures.size)) ⟨routine, m'.current, false⟩ ⟨routine, ρ', false⟩ :=
    ⟨rfl, rfl, _, hin''.mirrors, hr, fun h => absurd h (by simp)⟩
  have hright : (do
      let f ← Lexical.Run.newClosure ⟨routine, ρ', false⟩
      Lexical.Run.fill routine.name.lexeme f cell?
      return ρ' : Lexical.Run Lexical.Names) μ' =
        .ok ρ'
          { μ'.filled routine.name.lexeme (.closure m'.closures.size) cell? with
            closures :=
              (μ'.filled routine.name.lexeme (.closure m'.closures.size) cell?).closures.push
                ⟨routine, ρ', false⟩ } := by
    rw [hc'.closures_size]
    cases cell? <;> rfl
  dsimp only
  rw [hright]
  exact .ok (.of_extends _ W' (Heap.extends_define ..)) rfl (hc''.newClosure hcl)
    ⟨hin''.mirrors, hin''.owned⟩

/-! ### Classes -/

theorem Heap.find_self {α : Type} {h : Heap α} {i : Nat} {name : Token}
    (hb : h.binds i name.lexeme = true) : h.find i name = .ok i := by
  have howner : h.owner? i name.lexeme = some i := by
    rw [Heap.owner?, Heap.chain_eq, List.find?_cons_of_pos (by simpa using hb)]
  rw [Heap.find, howner]

/-- Two tables of methods, made of the same declarations. -/
theorem ofList_rel {α β γ : Type} {P : β → γ → Prop} {f : α → String × β} {g : α → String × γ}
    (as : List α) (hfg : ∀ a ∈ as, (f a).1 = (g a).1 ∧ P (f a).2 (g a).2) (x : String) :
    Option.Rel P ((Bindings.ofList (as.map f)).get? x) ((Bindings.ofList (as.map g)).get? x) := by
  suffices hgen : ∀ (b : Bindings β) (c : Bindings γ), Option.Rel P (b.get? x) (c.get? x) →
      Option.Rel P (((as.map f).foldl (fun b e => b.set e.1 e.2) b).get? x)
        (((as.map g).foldl (fun b e => b.set e.1 e.2) c).get? x) from hgen _ _ .none
  induction as with
  | nil => exact fun _ _ h => h
  | cons a as ih =>
    intro b c hbc
    obtain ⟨hname, hp⟩ := hfg a List.mem_cons_self
    apply ih fun a ha => hfg a (List.mem_cons_of_mem _ ha)
    rw [Bindings.get?_set, Bindings.get?_set, hname]
    split
    · exact .some hp
    · exact hbc

theorem methodTable_rel {scope : Nat} {h : Heap Value} {methods : List Routine}
    (hm : Mirrors W h Γ scope ρ) (hms : methodsScoped L (thisScope :: Γ) methods) (x : String) :
    Option.Rel (MethodMirrors L W h) ((methodTable scope methods).get? x)
      ((Lexical.methodTable ρ methods).get? x) := by
  refine ofList_rel methods ?_ x
  intro r hr
  exact ⟨rfl, rfl, rfl, Γ, hm, (methodsScoped_iff ..).1 hms r hr⟩

/-- The scopes that the methods of a class are declared inside, by what the class inherits from. -/
def methodScopes {α : Type} (Γ : Scopes) : Option α → Scopes
  | none => Γ
  | some _ => superScope :: Γ

theorem methodScope_alike (hc : Corresponds L W m μ) (hm : Mirrors W m.heap Γ m.current ρ)
    (superclass? : Option Nat) :
    EndsAlike L Nowhere false W m
      (fun W' m' scope names => Mirrors W' m'.heap (methodScopes Γ superclass?) scope names)
      (methodScope superclass? m) (Lexical.methodNames ρ superclass? μ) := by
  cases superclass? with
  | none => exact .ok (.refl ..) rfl hc hm
  | some id =>
    obtain ⟨W', hg, hc', hm'⟩ := hc.special hm (v := .cls id) not_isPlain_super fun _ => ⟨id, rfl⟩
    exact .ok hg rfl hc' hm'

/-- A class is made, which its name stands for already. -/
theorem newClass_alike {methods : List Routine} (hc : Corresponds L W m μ)
    (hin : InForce W m Γ ρ) (superclass? : Option Nat)
    (hms : methodsScoped L (thisScope :: methodScopes Γ superclass?) methods) :
    EndsAlike L Nowhere false W m (fun W' m' _ ρ' => InForce W' m' Γ ρ')
      ((do
        let scope ← methodScope superclass?
        let _ ← Run.newClass ⟨x, superclass?, methodTable scope methods⟩ : Run Unit) m)
      ((do
        let names ← Lexical.methodNames ρ superclass?
        let s ← get
        let _ ← Lexical.Run.newClass
          (.mk x (superclass?.bind (s.classes[·]?)) (Lexical.methodTable names methods))
        return ρ : Lexical.Run Lexical.Names) μ) := by
  refine (methodScope_alike hc hin.mirrors superclass?).bind ?_
  intro scope names W' m' μ' hg hcur hc' hm'
  have hin' := hin.mono hc hg hcur
  exact .ok (.refl ..) rfl (hc'.newClass (methodTable_rel hm' hms)) ⟨hin'.mirrors, hin'.owned⟩

/-- The end of a class declaration: the name may be taken to stand for the class from the start. -/
theorem closeClass_eq {name : Token} {methods : List Routine} (hlt : m.current < m.heap.size)
    (superclass? : Option Nat) :
    (do
      Run.define name.lexeme .nil
      let scope ← methodScope superclass?
      let cls ← Run.newClass ⟨name.lexeme, superclass?, methodTable scope methods⟩
      let m ← get
      Run.store (← Run.ofSearch (m.heap.find m.current name)) name.lexeme cls : Run Unit) m =
    (do
      let scope ← methodScope superclass?
      let _ ← Run.newClass ⟨name.lexeme, superclass?, methodTable scope methods⟩ : Run Unit)
      { m with heap := m.heap.define m.current name.lexeme (.cls m.classes.entries.size) } := by
  have hb : (m.heap.define m.current name.lexeme .nil).binds m.current name.lexeme = true := by
    rw [Heap.binds, Heap.get?_define, if_pos ⟨rfl, hlt, rfl⟩]
    rfl
  cases superclass? with
  | none =>
    change EStateM.bind
      (Run.ofSearch ((m.heap.define m.current name.lexeme .nil).find m.current name))
      (fun j => Run.store j name.lexeme (.cls m.classes.entries.size)) _ = _
    rw [Heap.find_self hb]
    change EStateM.Result.ok () _ = EStateM.Result.ok () _
    simp only [Heap.define_define]
  | some id =>
    have hb' := (Heap.extends_push _ (some m.current)
      (Bindings.empty.set superName (.cls id))).binds_of _ _ hb
    change EStateM.bind (Run.ofSearch (((m.heap.define m.current name.lexeme .nil).push
      (some m.current) (Bindings.empty.set superName (.cls id))).find m.current name))
      (fun j => Run.store j name.lexeme (.cls m.classes.entries.size)) _ = _
    rw [Heap.find_self hb']
    change EStateM.Result.ok () _ = EStateM.Result.ok () _
    have hlt' : m.current < (m.heap.define m.current name.lexeme .nil).size := by simpa using hlt
    simp only [Heap.define_push _ hlt', Heap.define_define, Heap.size_define]

/-- The end of a class declaration over cells. -/
theorem Lexical.closeClass_eq {methods : List Routine} {cell? : Option Nat}
    (hcell : ∀ c, cell? = some c → c < μ.cells.size) (superclass? : Option Nat) :
    (do
      let names ← Lexical.methodNames ρ superclass?
      let s ← get
      let cls ← Lexical.Run.newClass
        (.mk x (superclass?.bind (s.classes[·]?)) (Lexical.methodTable names methods))
      Lexical.Run.fill x cls cell?
      return ρ : Lexical.Run Lexical.Names) μ =
    (do
      let names ← Lexical.methodNames ρ superclass?
      let s ← get
      let _ ← Lexical.Run.newClass
        (.mk x (superclass?.bind (s.classes[·]?)) (Lexical.methodTable names methods))
      return ρ : Lexical.Run Lexical.Names) (μ.filled x (.cls μ.classes.size) cell?) := by
  cases superclass? with
  | none => cases cell? <;> rfl
  | some id =>
    cases cell? with
    | none => rfl
    | some c =>
      have hcells : ∀ (v w : Value), (μ.cells.push (some v)).modify c (fun _ => some w) =
          (μ.cells.modify c fun _ => some w).push (some v) := by
        intro v w
        apply Array.ext_getElem?
        intro j
        simp only [Array.getElem?_modify, Array.getElem?_push, Array.size_modify]
        have hlt := hcell c rfl
        by_cases hj : j = μ.cells.size
        · simp [hj, Nat.ne_of_lt hlt]
        · simp [hj]
      change EStateM.Result.ok ρ _ = EStateM.Result.ok ρ _
      simp only [hcells, Lexical.State.filled, Array.size_modify]

theorem superclassOf_alike {superclass : Option Reference} (hc : Corresponds L W m μ)
    (hm : Mirrors W m.heap Γ m.current ρ)
    (hr : ∀ ref, superclass = some ref → ref.ReadScoped L Γ) :
    EndsAlike L Nowhere false W m (fun _ _ a b => b = a ∧ a.isSome = superclass.isSome)
      (superclassOf superclass m) (Lexical.superclassOf ρ superclass μ) := by
  cases superclass with
  | none => exact .pure hc ⟨rfl, rfl⟩
  | some ref =>
    refine (lookUp_alike hc hm (hr ref rfl)).bind ?_
    rintro _ v W' m' μ' - - hc' rfl
    cases v with
    | cls id => exact .pure hc' ⟨rfl, rfl⟩
    | _ => exact .throw hc' trivial

/-- A class is declared. -/
theorem declareClass_alike {name : Token} {superclass : Option Reference} {methods : List Routine}
    {inBody : Bool} (hc : Corresponds L W m μ) (hin : InForce W m Γ ρ) (hd : L.Declares Γ name)
    (hr : ∀ ref, superclass = some ref → ref.ReadScoped L (Γ.mark name.lexeme .declared))
    (hms : methodsScoped L
      (thisScope :: methodScopes (Γ.mark name.lexeme .defined) superclass) methods) :
    EndsAlike L (Here m.current) inBody W m
      (fun W' m' _ ρ' => InForce W' m' (Γ.mark name.lexeme .defined) ρ')
      (declareClass name superclass methods m)
      (Lexical.declareClass ρ name superclass methods μ) := by
  refine EndsAlike.bind (x := Pure.pure ()) (f := fun _ => declareClass name superclass methods)
    (declare_alike hc hin hd) ?_
  rintro - ⟨ρ', cell?⟩ W₁ m₁ μ₁ - hcur hc₁ ⟨hin₁, haw₁⟩
  rw [← hcur]
  refine (superclassOf_alike hc₁ hin₁.mirrors hr).bindEval ?_
  rintro _ superclass? W₂ m₂ μ₂ hg hcur₂ hc₂ ⟨rfl, hsome⟩
  have hin₂ := hin₁.mono hc₁ hg hcur₂
  have haw₂ := haw₁.mono hg hcur₂
  have hlt := hin₂.mirrors.lt_size hc₂.stores.size_pos
  -- The cell of the class is older than the one that its superclass gets.
  have hcell : ∀ c, cell? = some c → c < μ₂.cells.size := by
    rintro c rfl
    have hΓ : Γ ≠ [] := fun h => absurd (haw₂.1 h) (by simp)
    exact (hc₂.stores.placed _ _ c (haw₂.2 hΓ).2).2.2
  have hscopes : methodScopes (Γ.mark name.lexeme .defined) superclass? =
      methodScopes (Γ.mark name.lexeme .defined) superclass := by
    cases superclass? <;> cases superclass <;> first | rfl | exact absurd hsome (by simp)
  -- Both sides are put into one order: the name has its value before the class is made.
  obtain ⟨hc₃, hin₃⟩ := hc₂.define hin₂ haw₂ hd.1 (.cls m₂.classes.entries.size)
  have hclass : EndsAlike L (Here m₁.current) inBody W₂ _ _ _ _ :=
    (newClass_alike (x := name.lexeme) hc₃ hin₃ superclass? (hscopes ▸ hms)).anywhere
  rw [closeClass_eq hlt, Lexical.closeClass_eq hcell, ← hc₂.classes_size]
  refine EndsAlike.after ?_ ?_ ?_ hclass
  · exact .of_extends _ W₂ (Heap.extends_define ..)
  · rfl
  · exact fun _ _ _ h => h

/-! ### Blocks and bodies -/

/-- A step inside a scope that is new; what is declared there is of no consequence outside. -/
theorem EndsAlike.within {β : Type} {inBody : Bool} {W₁ : Placement} (m₁ : Machine) {scope : Nat}
    {step : Run Unit} {r' : EStateM.Result Interrupt Lexical.State β}
    (hg : Grows Nowhere W m.heap W₁ m₁.heap) (hcur : m₁.current = m.current)
    (hscope : m.heap.size ≤ scope)
    (h : EndsAlike L (Here scope) inBody W₁ { m₁ with current := scope } Whatever
      (step { m₁ with current := scope }) r') :
    EndsAlike L Nowhere inBody W m Whatever (Run.within scope step m₁) r' := by
  have hnew : ∀ j x, j < m.heap.size → Here scope j x → Nowhere j x := by
    rintro j x hj ⟨rfl, -⟩
    exact absurd hj (Nat.not_lt.2 hscope)
  unfold Run.within
  dsimp only
  generalize step { m₁ with current := scope } = r at h ⊢
  cases h with
  | ok hg' _ hc' _ => exact .ok (hg.trans hg' hnew) hcur (hc'.atScope _) trivial
  | error hi hg' _ hc' => exact .error hi (hg.trans hg' hnew) hcur (hc'.atScope _)

/-- A `return` ends a body. -/
theorem EndsAlike.catchReturn {S : Nat → String → Prop} {step : Run Unit}
    {step' : Lexical.Run Lexical.Names} {m₁ : Machine}
    (h : EndsAlike L S true W m Whatever (step m₁) (step' μ)) :
    EndsAlike L S false W m Same (Run.catchReturn step m₁) (Lexical.Run.catchReturn step' μ) := by
  unfold Run.catchReturn Lexical.Run.catchReturn
  generalize step m₁ = r at h ⊢
  generalize step' μ = r' at h ⊢
  cases h with
  | ok hg hcur hc _ => exact .ok hg hcur hc rfl
  | @error i _ _ _ hi hg hcur hc =>
    cases i with
    | returned v => exact .ok hg hcur hc rfl
    | error e => exact .error trivial hg hcur hc
    | outOfFuel => exact .error trivial hg hcur hc
    | fault f => exact hi.elim

/-- One more name of a new scope, with its value. -/
theorem Corresponds.bindName {h : Heap Value} {i : Nat} {γ : Bindings Readiness}
    {b : Bindings Value} (hc : Corresponds L W { m with heap := h.push (some i) b } μ)
    (hm : Mirrors W (h.push (some i) b) (γ :: Γ) h.size ρ) (ho : Owned W (γ :: Γ) h.size)
    (hfree : γ.get? x = none) (hx : IsPlain x) (hmay : L.mayDeclare (Γ.length + 1) x) (v : Value) :
    Grows (Here h.size) W (h.push (some i) b) (W.place h.size x μ.cells.size)
        (h.push (some i) (b.set x v)) ∧
      Corresponds L (W.place h.size x μ.cells.size)
        { m with heap := h.push (some i) (b.set x v) }
        { μ with cells := μ.cells.push (some v) } ∧
      Mirrors (W.place h.size x μ.cells.size) (h.push (some i) (b.set x v))
        (γ.set x .defined :: Γ) h.size (ρ.bind x μ.cells.size) := by
  have hpos : 0 < h.size := by
    obtain ⟨-, -, p, σ, hp, -⟩ := hm
    exact Nat.lt_of_le_of_lt (Nat.zero_le p) (Heap.enclosing?_lt hp)
  have hlt : h.size < (h.push (some i) b).size := by simp
  have hplace := ho.free hfree
  have hdepth : IsPlain x → L.mayDeclare (((h.push (some i) b).chain h.size).length - 1) x := by
    intro _
    rw [hm.length_chain hc.stores.enclosing?_global]
    exact hmay
  have hs := hc.stores.bind (v := v) hpos hlt hplace hdepth fun h => absurd h hx.2
  have hext := Heap.extends_define (h.push (some i) b) h.size x v
  have hb : ((h.push (some i) b).define h.size x v).binds h.size x = true := by
    rw [Heap.binds, Heap.get?_define, if_pos ⟨rfl, hlt, rfl⟩]
    rfl
  have hg := (Grows.of_extends (Here h.size) W hext).trans
    (Grows.place (S := Here h.size) μ.cells.size hplace ⟨rfl, hx⟩) fun _ _ _ hS => hS
  have hm' := (hm.mono (.of_extends Nowhere W hext) fun _ _ hS => hS.elim).declare
    (c := μ.cells.size) fun (_ : Readiness.defined = .defined) => hb
  rw [Heap.push_define] at hs hg hm'
  exact ⟨hg, hc.withHeap hg (fun _ _ hS => hS.2) hs, hm'⟩

/-- Names that can be bound in a scope one after the other, inside the given static scopes. -/
structure Bindable (L : Ledger) (depth : Nat) (γ : Bindings Readiness)
    (es : List (String × Value)) : Prop where
  nodup : (es.map Prod.fst).Nodup
  free : ∀ e ∈ es, γ.get? e.1 = none
  plain : ∀ e ∈ es, IsPlain e.1
  mayDeclare : ∀ e ∈ es, L.mayDeclare depth e.1

theorem Bindable.tail {depth : Nat} {γ : Bindings Readiness} {e : String × Value}
    {es : List (String × Value)} (h : Bindable L depth γ (e :: es)) :
    Bindable L depth (γ.set e.1 .defined) es where
  nodup := (List.nodup_cons.1 h.nodup).2
  free := by
    intro e' he'
    have hne : e'.1 ≠ e.1 := fun heq =>
      (List.nodup_cons.1 h.nodup).1 (heq ▸ List.mem_map_of_mem he')
    rw [Bindings.get?_set, if_neg hne]
    exact h.free e' (List.mem_cons_of_mem _ he')
  plain := fun e' he' => h.plain e' (List.mem_cons_of_mem _ he')
  mayDeclare := fun e' he' => h.mayDeclare e' (List.mem_cons_of_mem _ he')

/-- The names of a body's scope, bound in their order. -/
theorem bindAll_alike {h : Heap Value} {i : Nat} (es : List (String × Value)) :
    ∀ {W : Placement} {γ : Bindings Readiness} {ρ : Lexical.Names} {μ : Lexical.State}
      {b : Bindings Value}, Corresponds L W { m with heap := h.push (some i) b } μ →
      Mirrors W (h.push (some i) b) (γ :: Γ) h.size ρ → Owned W (γ :: Γ) h.size →
      Bindable L (Γ.length + 1) γ es →
      ∃ W' ρ' μ', Lexical.Run.bindAll ρ es μ = .ok ρ' μ' ∧
        Grows (Here h.size) W (h.push (some i) b) W'
          (h.push (some i) (es.foldl (fun b e => b.set e.1 e.2) b)) ∧
        Corresponds L W'
          { m with heap := h.push (some i) (es.foldl (fun b e => b.set e.1 e.2) b) } μ' ∧
        Mirrors W' (h.push (some i) (es.foldl (fun b e => b.set e.1 e.2) b))
          ((es.map Prod.fst).foldl (fun γ x => γ.set x .defined) γ :: Γ) h.size ρ' ∧
        Owned W' ((es.map Prod.fst).foldl (fun γ x => γ.set x .defined) γ :: Γ) h.size := by
  induction es with
  | nil =>
    intro W γ ρ μ b hc hm ho _
    exact ⟨W, ρ, μ, rfl, .refl .., hc, hm, ho⟩
  | cons e es ih =>
    intro W γ ρ μ b hc hm ho hes
    obtain ⟨hg, hc', hm'⟩ := hc.bindName hm ho (hes.free e List.mem_cons_self)
      (hes.plain e List.mem_cons_self) (hes.mayDeclare e List.mem_cons_self) e.2
    obtain ⟨W', ρ', μ', hstep, hg', hc'', hm'', ho''⟩ := ih hc' hm' ho.declare hes.tail
    exact ⟨W', ρ', μ', hstep, hg.trans hg' fun _ _ _ hS => hS, hc'', hm'', ho''⟩

/-- The scope of a body: its parameters have the values of the arguments. -/
theorem enterBody_alike {i : Nat} {params : List Token} {arguments : List Value}
    (hc : Corresponds L W m μ) (hm : Mirrors W m.heap Γ i ρ) (hp : ParametersScoped L Γ params)
    (hlen : arguments.length = params.length) :
    ∃ W' ρ' μ',
      Lexical.Run.bindAll ρ.inside ((params.map (·.lexeme)).zip arguments) μ = .ok ρ' μ' ∧
      Grows Nowhere W m.heap W'
        (m.heap.push (some i) (Bindings.ofList ((params.map (·.lexeme)).zip arguments))) ∧
      Corresponds L W'
        { m with
          heap := m.heap.push (some i) (Bindings.ofList ((params.map (·.lexeme)).zip arguments)) }
        μ' ∧
      Mirrors W' (m.heap.push (some i) (Bindings.ofList ((params.map (·.lexeme)).zip arguments)))
        (parameterScope params :: Γ) m.heap.size ρ' ∧
      Owned W' (parameterScope params :: Γ) m.heap.size := by
  have hnames : (((params.map (·.lexeme)).zip arguments).map Prod.fst) = params.map (·.lexeme) :=
    List.map_fst_zip (by simp [hlen])
  have hmem : ∀ e ∈ (params.map (·.lexeme)).zip arguments, ∃ p ∈ params, p.lexeme = e.1 := by
    intro e he
    have hfst := List.mem_map_of_mem (f := Prod.fst) he
    rw [hnames] at hfst
    exact List.mem_map.1 hfst
  have hes : Bindable L (Γ.length + 1) .empty ((params.map (·.lexeme)).zip arguments) := by
    refine ⟨by rw [hnames]; exact hp.nodup, fun _ _ => rfl, ?_, ?_⟩
    · intro e he
      obtain ⟨p, hmem, heq⟩ := hmem e he
      exact heq ▸ hp.plain p hmem
    · intro e he
      obtain ⟨p, hmem, heq⟩ := hmem e he
      exact heq ▸ hp.mayDeclare p hmem
  have hext := Heap.extends_push m.heap (some i) .empty
  have hpush := Grows.of_extends Nowhere W hext
  have ho : Owned W (.empty :: Γ) m.heap.size := .fresh hc.stores
  obtain ⟨W', ρ', μ', hstep, hg, hc', hm', ho'⟩ :=
    bindAll_alike _ (hc.withHeap hpush (fun _ _ hS => hS.elim) hc.stores.push)
      (hm.push hc.stores) ho hes
  have hscope : ((params.map (·.lexeme)).foldl (fun γ x => γ.set x .defined) .empty) =
      parameterScope params := by
    simp [parameterScope, Resolve.newScope, Bindings.ofList, List.foldl_map]
  rw [hnames, hscope] at hm' ho'
  refine ⟨W', ρ', μ', hstep, hpush.trans hg ?_, hc', hm', ho'⟩
  rintro j x hj ⟨rfl, -⟩
  exact absurd hj (Nat.lt_irrefl _)

end

end Lox
