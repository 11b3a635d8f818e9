/-
**Steps that end alike.**

Two runs over names and cells are compared whose trees differ in what local variables are called
and in braces, and in nothing else.  Both make the same cells and the same objects and print the
same; what differs is only the trees that functions and classes keep.  Two steps end alike if, from
states that differ in this way, they give the same and leave such states again.

Main definitions:

* `Lox.Lexical.Names.Match` — the names in force on both sides, under a pairing;
* `Lox.Lexical.State.Variant`, `Lox.Interrupt.Variant` — states and interrupts that differ as the
  trees do;
* `Lox.Lexical.Alike` — **steps that end alike**.

Main results:

* `Lox.Lexical.State.Variant.text_eq` — values are printed the same;
* `Lox.Lexical.Alike.bind` — **steps put together**;
* `Lox.Lexical.lookUp_alike`, `Lox.Lexical.assign_alike`, `Lox.Lexical.declare_alike` — names that
  are read, assigned and declared.
-/

import Lox.Proofs.Lexical.Relabel
import Lox.Proofs.Tree.Variant

set_option relaxedAutoImplicit false
set_option autoImplicit false

namespace Lox

/-! ### Tables whose entries are related -/

/-- Arrays of the same size whose entries are related one by one. -/
structure Tables {α β : Type} (R : α → β → Prop) (xs : Array α) (ys : Array β) : Prop where
  size_eq : ys.size = xs.size
  get : ∀ i : Nat, Option.Rel R xs[i]? ys[i]?

namespace Tables

variable {α β : Type} {R : α → β → Prop} {xs : Array α} {ys : Array β}

theorem refl {R : α → α → Prop} {xs : Array α} (h : ∀ (i : Nat) a, xs[i]? = some a → R a a) :
    Tables R xs xs := by
  refine ⟨rfl, fun i => ?_⟩
  cases ha : xs[i]? with
  | none => exact .none
  | some a => exact .some (h i a ha)

theorem push (h : Tables R xs ys) {x : α} {y : β} (hxy : R x y) :
    Tables R (xs.push x) (ys.push y) := by
  refine ⟨by simp [h.size_eq], fun i => ?_⟩
  rw [Array.getElem?_push, Array.getElem?_push, h.size_eq]
  split
  · exact .some hxy
  · exact h.get i

end Tables

/-- Tables filled with related values under the same names. -/
theorem Bindings.ofList_rel {α β : Type} {R : α → β → Prop} {es : List (String × α)}
    {es' : List (String × β)} (h : List.Forall₂ (fun e e' => e'.1 = e.1 ∧ R e.2 e'.2) es es')
    (x : String) : Option.Rel R ((ofList es).get? x) ((ofList es').get? x) := by
  have hfold : ∀ (b : Bindings α) (b' : Bindings β), (∀ y, Option.Rel R (b.get? y) (b'.get? y)) →
      Option.Rel R ((es.foldl (fun b e => b.set e.1 e.2) b).get? x)
        ((es'.foldl (fun b e => b.set e.1 e.2) b').get? x) := by
    induction h with
    | nil => exact fun _ _ hb => hb x
    | cons he _ ih =>
      intro b b' hb
      refine ih _ _ fun y => ?_
      rw [get?_set, get?_set, he.1]
      split
      · exact .some he.2
      · exact hb y
  exact hfold empty empty fun _ => .none

/-! ### Interrupts -/

/-- Interrupts that are the same, but for what a variable is called: an error is due to the same and
in the same line, and a variable without a value may have another name. -/
inductive Interrupt.Variant : Interrupt → Interrupt → Prop
  | same (i : Interrupt) : Variant i i
  | error {t t' : Token} (cause : RuntimeCause) (hline : t'.line = t.line) :
      Variant (.at t cause) (.at t' cause)
  | unbound (x x' : String) : Variant (.fault (.unbound x 0)) (.fault (.unbound x' 0))

namespace Lexical

variable {braces : Prop}

/-! ### Names in force -/

/-- Under a pairing the **names in force** have the same cells on both sides, and what has none
keeps its name. -/
def Names.Match (Δ : Pairing) (ρ ρ' : Names) : Prop :=
  ∀ a a', Δ a a' → ρ.cell? a = ρ'.cell? a' ∧ (ρ.cell? a = none → a = a')

namespace Names.Match

variable {Δ : Pairing} {ρ ρ' : Names}

theorem inside (h : Match Δ ρ ρ') : Match Δ ρ.inside ρ'.inside := h

/-- Two names are declared, with the same cell. -/
theorem bind (h : Match Δ ρ ρ') (y y' : String) (cell : Nat) :
    Match (Δ.bind y y') (ρ.bind y cell) (ρ'.bind y' cell) := by
  intro a a' ha
  rw [Names.cell?_bind, Names.cell?_bind]
  rcases ha with ⟨rfl, rfl⟩ | ⟨hne, hne', hΔ⟩
  · rw [if_pos rfl, if_pos rfl]
    exact ⟨rfl, nofun⟩
  · rw [if_neg hne, if_neg hne']
    exact h a a' hΔ

/-- At the top of a program all names are global. -/
theorem top : Match .same Names.top Names.top :=
  fun _ _ h => ⟨rfl, fun _ => h⟩

end Names.Match

/-! ### Functions, classes and states -/

/-- Functions whose bodies are variants of each other. -/
def Closure.Variant (braces : Prop) (c c' : Closure) : Prop :=
  ∃ Δ, Names.Match Δ c.names c'.names ∧ Routine.Variant braces Δ c.routine c'.routine ∧
    c'.isInitializer = c.isInitializer ∧ (c.isInitializer = true → Δ thisName thisName)

/-- Methods whose bodies are variants of each other, once they are bound to an object. -/
def Closure.MethodVariant (braces : Prop) (c c' : Closure) : Prop :=
  ∃ Δ, Names.Match Δ c.names c'.names ∧
    Routine.Variant braces (Δ.bind thisName thisName) c.routine c'.routine ∧
    c'.isInitializer = c.isInitializer

theorem Closure.MethodVariant.bind {c c' : Closure} (h : c.MethodVariant braces c') (cell : Nat) :
    Closure.Variant braces { c with names := c.names.bind thisName cell }
      { c' with names := c'.names.bind thisName cell } := by
  obtain ⟨Δ, hnames, hroutine, hinit⟩ := h
  exact ⟨_, hnames.bind thisName thisName cell, hroutine, hinit, fun _ => .inl ⟨rfl, rfl⟩⟩

/-- Classes of the same name whose methods are variants of each other. -/
inductive Class.Variant (braces : Prop) : Class → Class → Prop
  | base (name : String) {methods methods' : Bindings Closure}
      (h : ∀ x, Option.Rel (Closure.MethodVariant braces) (methods.get? x) (methods'.get? x)) :
      Class.Variant braces (.mk name none methods) (.mk name none methods')
  | derived (name : String) {superclass superclass' : Class} {methods methods' : Bindings Closure}
      (hsuper : Class.Variant braces superclass superclass')
      (h : ∀ x, Option.Rel (Closure.MethodVariant braces) (methods.get? x) (methods'.get? x)) :
      Class.Variant braces (.mk name (some superclass) methods)
        (.mk name (some superclass') methods')

theorem Class.Variant.name_eq {c c' : Class} (h : c.Variant braces c') : c'.name = c.name := by
  cases h <;> rfl

theorem Class.Variant.findMethod {c c' : Class} (h : c.Variant braces c') (x : String) :
    Option.Rel (Closure.MethodVariant braces) (c.findMethod x) (c'.findMethod x) := by
  induction h with
  | base name h => exact h x
  | @derived name superclass superclass' methods methods' _ h ih =>
    simp only [Class.findMethod]
    have hx := h x
    generalize methods.get? x = m at hx ⊢
    generalize methods'.get? x = m' at hx ⊢
    cases hx with
    | none => exact ih
    | some hm => exact .some hm

/-- **States** that differ in nothing but the trees of functions and classes. -/
structure State.Variant (braces : Prop) (μ μ' : State) : Prop where
  cells : μ'.cells = μ.cells
  globals : μ'.globals = μ.globals
  closures : Tables (Closure.Variant braces) μ.closures μ'.closures
  classes : Tables (Class.Variant braces) μ.classes μ'.classes
  natives : μ'.natives = μ.natives
  objects : μ'.objects = μ.objects
  printed : μ'.printed = μ.printed
  time : μ'.time = μ.time

namespace State.Variant

variable {μ μ' : State}

theorem cell?_eq (h : μ.Variant braces μ') (cell : Nat) : μ'.cell? cell = μ.cell? cell := by
  rw [State.cell?, State.cell?, h.cells]

theorem className_eq (h : μ.Variant braces μ') (id : Nat) : μ'.className id = μ.className id := by
  have hc := h.classes.get id
  unfold State.className
  generalize μ.classes[id]? = c at hc ⊢
  generalize μ'.classes[id]? = c' at hc ⊢
  cases hc with
  | none => rfl
  | some hc => exact hc.name_eq

/-- A value is printed the same. -/
theorem text_eq (h : μ.Variant braces μ') (v : Value) : μ'.text v = μ.text v := by
  cases v with
  | closure id =>
    have hc := h.closures.get id
    simp only [State.text]
    generalize μ.closures[id]? = c at hc ⊢
    generalize μ'.closures[id]? = c' at hc ⊢
    cases hc with
    | none => rfl
    | some hc =>
      obtain ⟨Δ, -, hroutine, -⟩ := hc
      simp only [Option.elim_some, hroutine.name_eq]
  | cls id => exact h.className_eq id
  | object id =>
    have hname : μ'.className = μ.className := funext h.className_eq
    simp only [State.text, h.objects, hname]
  | _ => rfl

theorem findMethod (h : μ.Variant braces μ') (cls : Nat) (x : String) :
    Option.Rel (Closure.MethodVariant braces) (μ.findMethod cls x) (μ'.findMethod cls x) := by
  have hc := h.classes.get cls
  unfold State.findMethod
  generalize μ.classes[cls]? = c at hc ⊢
  generalize μ'.classes[cls]? = c' at hc ⊢
  cases hc with
  | none => exact .none
  | some hc => exact hc.findMethod x

end State.Variant

namespace State

/-- What can be called, on both sides. -/
inductive Callable.Variant (braces : Prop) : Callable → Callable → Prop
  | closure {c c' : Closure} (h : c.Variant braces c') : Variant braces (.closure c) (.closure c')
  | native (f : Native) : Variant braces (.native f) (.native f)
  | cls (id : Nat) {c? c'? : Option Closure}
      (h : Option.Rel (Closure.MethodVariant braces) c? c'?) :
      Variant braces (.cls id c?) (.cls id c'?)

theorem Variant.callable? {μ μ' : State} (h : μ.Variant braces μ') (v : Value) :
    Option.Rel (Callable.Variant braces) (μ.callable? v) (μ'.callable? v) := by
  cases v with
  | closure id =>
    have hc := h.closures.get id
    simp only [State.callable?]
    generalize μ.closures[id]? = c at hc ⊢
    generalize μ'.closures[id]? = c' at hc ⊢
    cases hc with
    | none => exact .none
    | some hc => exact .some (.closure hc)
  | native id =>
    simp only [State.callable?, h.natives]
    cases μ.natives[id]? with
    | none => exact .none
    | some f => exact .some (.native f)
  | cls id => exact .some (.cls id (h.findMethod id _))
  | _ => exact .none

theorem Callable.Variant.arity_eq {f f' : Callable} (h : f.Variant braces f') :
    f'.arity = f.arity := by
  cases h with
  | closure h =>
    obtain ⟨Δ, -, hroutine, -⟩ := h
    simp only [Callable.arity, hroutine.params_length_eq]
  | native f => rfl
  | cls id h =>
    cases h with
    | none => rfl
    | some h =>
      obtain ⟨Δ, -, hroutine, -⟩ := h
      simp only [Callable.arity, Option.elim_some, hroutine.params_length_eq]

end State

/-! ### Steps -/

section

variable {α β γ δ : Type} {short short' : Prop}

/-- How two steps **end**: alike, unless one of them uses up its allowance and is the one that
may fall short. -/
inductive EndsVariant (braces short short' : Prop) (R : α → β → Prop) :
    EStateM.Result Interrupt State α → EStateM.Result Interrupt State β → Prop
  | ok {a : α} {b : β} {μ μ' : State} (hμ : μ.Variant braces μ') (h : R a b) :
      EndsVariant braces short short' R (.ok a μ) (.ok b μ')
  | error {i i' : Interrupt} {μ μ' : State} (hμ : μ.Variant braces μ') (hi : i.Variant i') :
      EndsVariant braces short short' R (.error i μ) (.error i' μ')
  | left {r : EStateM.Result Interrupt State α} {r' : EStateM.Result Interrupt State β}
      (hshort : short) (h : UsedUp r) : EndsVariant braces short short' R r r'
  | right {r : EStateM.Result Interrupt State α} {r' : EStateM.Result Interrupt State β}
      (hshort : short') (h : UsedUp r') : EndsVariant braces short short' R r r'

/-- Steps that **end alike** on states that are variants of each other. -/
def Alike (braces short short' : Prop) (R : α → β → Prop) (step : Run α) (step' : Run β) : Prop :=
  ∀ μ μ', State.Variant braces μ μ' → EndsVariant braces short short' R (step μ) (step' μ')

namespace Alike

variable {R : α → β → Prop} {S : γ → δ → Prop}

theorem pure {a : α} {b : β} (h : R a b) :
    Alike braces short short' R (Pure.pure a) (Pure.pure b) :=
  fun _ _ hμ => .ok hμ h

theorem throw {i i' : Interrupt} (hi : i.Variant i') :
    Alike braces short short' R (throw i) (throw i') :=
  fun _ _ hμ => .error hμ hi

theorem throwSame (i : Interrupt) : Alike braces short short' R (MonadExcept.throw i)
    (MonadExcept.throw i) :=
  throw (.same i)

/-- Steps put together. -/
theorem bind {step : Run α} {step' : Run β} {k : α → Run γ} {k' : β → Run δ}
    (hs : Alike braces short short' R step step')
    (hk : ∀ a b, R a b → Alike braces short short' S (k a) (k' b)) :
    Alike braces short short' S (step >>= k) (step' >>= k') := by
  intro μ μ' hμ
  have h := hs μ μ' hμ
  generalize hr : step μ = r at h
  generalize hr' : step' μ' = r' at h
  cases h with
  | ok hμ₁ hab =>
    rw [bind_ok hr, bind_ok hr']
    exact hk _ _ hab _ _ hμ₁
  | error hμ₁ hi =>
    rw [bind_error hr, bind_error hr']
    exact .error hμ₁ hi
  | left hshort h =>
    obtain ⟨μ₁, rfl⟩ := h
    rw [bind_error hr]
    exact .left hshort ⟨μ₁, rfl⟩
  | right hshort h =>
    obtain ⟨μ₁, rfl⟩ := h
    rw [bind_error hr']
    exact .right hshort ⟨μ₁, rfl⟩

theorem imp {R' : α → β → Prop} {step : Run α} {step' : Run β}
    (hs : Alike braces short short' R step step') (h : ∀ a b, R a b → R' a b) :
    Alike braces short short' R' step step' := by
  intro μ μ' hμ
  have hends := hs μ μ' hμ
  generalize step μ = r at hends ⊢
  generalize step' μ' = r' at hends ⊢
  cases hends with
  | ok hμ₁ hab => exact .ok hμ₁ (h _ _ hab)
  | error hμ₁ hi => exact .error hμ₁ hi
  | left hshort h => exact .left hshort h
  | right hshort h => exact .right hshort h

/-- A step before that gives the same value on both sides. -/
theorem value {step step' : Run α} {k : α → Run γ} {k' : α → Run δ}
    (hs : Alike braces short short' Eq step step')
    (hk : ∀ a, Alike braces short short' S (k a) (k' a)) :
    Alike braces short short' S (step >>= k) (step' >>= k') :=
  hs.bind fun a _ h => h ▸ hk a

/-- A step that looks at the state. -/
theorem inspect {k k' : State → Run γ} {S : γ → γ → Prop}
    (hk : ∀ μ μ', State.Variant braces μ μ' → Alike braces short short' S (k μ) (k' μ')) :
    Alike braces short short' S (get >>= k) (get >>= k') :=
  fun μ μ' hμ => hk μ μ' hμ μ μ' hμ

/-- A step that changes the state and gives a value. -/
theorem changeGet {f f' : State → α × State}
    (hf : ∀ μ μ', State.Variant braces μ μ' →
      (f μ).1 = (f' μ').1 ∧ State.Variant braces (f μ).2 (f' μ').2) :
    Alike braces short short' Eq (modifyGet f) (modifyGet f') :=
  fun μ μ' hμ => .ok (hf μ μ' hμ).2 (hf μ μ' hμ).1

theorem change {f f' : State → State}
    (hf : ∀ μ μ', State.Variant braces μ μ' → State.Variant braces (f μ) (f' μ')) :
    Alike braces short short' Eq (modify f) (modify f') :=
  fun μ μ' hμ => .ok (hf μ μ' hμ) rfl

theorem catchReturn {R : Names → Names → Prop} {step step' : Run Names}
    (hs : Alike braces short short' R step step') :
    Alike braces short short' Eq (Run.catchReturn step) (Run.catchReturn step') := by
  intro μ μ' hμ
  have h := hs μ μ' hμ
  unfold Run.catchReturn
  generalize step μ = r at h ⊢
  generalize step' μ' = r' at h ⊢
  cases h with
  | ok hμ₁ _ => exact .ok hμ₁ rfl
  | error hμ₁ hi =>
    cases hi with
    | same =>
      rename_i i _ _
      cases i with
      | returned v => exact .ok hμ₁ rfl
      | _ => exact .error hμ₁ (.same _)
    | error cause hline => exact .error hμ₁ (.error cause hline)
    | unbound x x' => exact .error hμ₁ (.unbound x x')
  | left hshort h =>
    obtain ⟨μ₁, rfl⟩ := h
    exact .left hshort ⟨μ₁, rfl⟩
  | right hshort h =>
    obtain ⟨μ₁, rfl⟩ := h
    exact .right hshort ⟨μ₁, rfl⟩

end Alike

/-! ### Cells, tables and names -/

theorem print_alike (line : String) :
    Alike braces short short' Eq (Run.print line) (Run.print line) :=
  .change fun _ _ h => { h with printed := by rw [h.printed] }

theorem newCell_alike (content : Option Value) :
    Alike braces short short' Eq (Run.newCell content) (Run.newCell content) :=
  .changeGet fun _ _ h => ⟨by rw [h.cells], { h with cells := by rw [h.cells] }⟩

theorem setCell_alike (cell : Nat) (v : Value) :
    Alike braces short short' Eq (Run.setCell cell v) (Run.setCell cell v) :=
  .change fun _ _ h => { h with cells := by rw [h.cells] }

theorem setGlobal_alike (x : String) (v : Value) :
    Alike braces short short' Eq (Run.setGlobal x v) (Run.setGlobal x v) :=
  .change fun _ _ h => { h with globals := by rw [h.globals] }

theorem setField_alike (object : Nat) (name : String) (v : Value) :
    Alike braces short short' Eq (Run.setField object name v) (Run.setField object name v) :=
  .change fun _ _ h => { h with objects := by rw [h.objects] }

theorem newObject_alike (cls : Nat) :
    Alike braces short short' Eq (Run.newObject cls) (Run.newObject cls) :=
  .changeGet fun _ _ h => ⟨by rw [h.objects], { h with objects := by rw [h.objects] }⟩

theorem newClosure_alike {c c' : Closure} (hc : c.Variant braces c') :
    Alike braces short short' Eq (Run.newClosure c) (Run.newClosure c') :=
  .changeGet fun _ _ h =>
    ⟨by rw [h.closures.size_eq], { h with closures := h.closures.push hc }⟩

theorem newClass_alike {c c' : Class} (hc : c.Variant braces c') :
    Alike braces short short' Eq (Run.newClass c) (Run.newClass c') :=
  .changeGet fun _ _ h => ⟨by rw [h.classes.size_eq], { h with classes := h.classes.push hc }⟩

theorem readCell_alike (x x' : String) (cell : Nat) :
    Alike braces short short' Eq (Run.readCell x cell) (Run.readCell x' cell) := by
  refine .inspect fun μ μ' hμ => ?_
  rw [hμ.cell?_eq]
  cases μ.cell? cell with
  | none => exact .throw (.unbound x x')
  | some v => exact .pure rfl

theorem bindMethod_alike {c c' : Closure} (hc : c.MethodVariant braces c') (object : Value) :
    Alike braces short short' (fun b b' => b.Variant braces b' ∧ b.routine = c.routine)
      (Run.bindMethod c object) (Run.bindMethod c' object) :=
  (newCell_alike _).value fun cell => .pure ⟨hc.bind cell, rfl⟩

end

section

variable {short short' : Prop} {Δ : Pairing} {ρ ρ' : Names}

/-- Names of parameters, with the values of as many arguments. -/
theorem bindAll_alike {ys ys' : List String} {vs : List Value} (hρ : Names.Match Δ ρ ρ')
    (hlength : ys'.length = ys.length) (harity : vs.length = ys.length) (hlocal : ρ.isLocal = true)
    (hlocal' : ρ'.isLocal = true) :
    Alike braces short short'
      (fun ρ₁ ρ₁' => Names.Match (Δ.bindAll ys ys') ρ₁ ρ₁' ∧ ρ₁.isLocal = true ∧
        ρ₁'.isLocal = true)
      (Run.bindAll ρ (ys.zip vs)) (Run.bindAll ρ' (ys'.zip vs)) := by
  induction ys generalizing ys' vs Δ ρ ρ' with
  | nil =>
    obtain rfl := List.eq_nil_of_length_eq_zero hlength
    exact .pure ⟨hρ, hlocal, hlocal'⟩
  | cons y ys ih =>
    obtain ⟨y', ys', rfl⟩ := List.exists_cons_of_length_eq_add_one hlength
    obtain ⟨v, vs, rfl⟩ := List.exists_cons_of_length_eq_add_one harity
    refine (newCell_alike _).value fun cell => ?_
    exact ih (hρ.bind y y' cell) (Nat.succ.inj hlength) (Nat.succ.inj harity) rfl rfl

/-- What two declarations give: names that go on in step, and the same cell. -/
structure Declared (isLocal : Bool) (Δ : Pairing) (y y' : String) (p p' : Names × Option Nat) :
    Prop where
  names : Names.Match (Δ.declare isLocal y y') p.1 p'.1
  isLocal_eq : p.1.isLocal = isLocal
  isLocal_eq' : p'.1.isLocal = isLocal
  cell_eq : p'.2 = p.2
  same : p.2 = none → y = y'

theorem declare_alike {isLocal : Bool} {y y' : String} (hρ : Names.Match Δ ρ ρ')
    (hlocal : ρ.isLocal = isLocal) (hlocal' : ρ'.isLocal = isLocal)
    (hname : isLocal = false → y = y') :
    Alike braces short short' (Declared isLocal Δ y y') (Run.declare ρ y) (Run.declare ρ' y') := by
  unfold Run.declare
  rw [hlocal, hlocal']
  cases isLocal with
  | true =>
    exact (newCell_alike _).value fun cell => .pure ⟨hρ.bind y y' cell, rfl, rfl, rfl, nofun⟩
  | false => exact .pure ⟨hρ, hlocal, hlocal', rfl, fun _ => hname rfl⟩

theorem fill_alike {isLocal : Bool} {y y' : String} {p p' : Names × Option Nat}
    (h : Declared isLocal Δ y y' p p') (v : Value) :
    Alike braces short short' Eq (Run.fill y v p.2) (Run.fill y' v p'.2) := by
  rw [h.cell_eq]
  cases hcell : p.2 with
  | none =>
    rw [h.same hcell]
    exact setGlobal_alike y' v
  | some cell => exact setCell_alike cell v

theorem lookUp_alike {ref ref' : Reference} (hρ : Names.Match Δ ρ ρ') (h : ref.Variant Δ ref') :
    Alike braces short short' Eq (lookUp ρ ref.name) (lookUp ρ' ref'.name) := by
  obtain ⟨hcell, hglobal⟩ := hρ _ _ h.paired
  unfold lookUp
  rw [← hcell]
  cases hc : ρ.cell? ref.name.lexeme with
  | some cell => exact readCell_alike _ _ cell
  | none =>
    rw [h.name_eq (hglobal hc)]
    refine .inspect fun μ μ' hμ => ?_
    rw [hμ.globals]
    cases μ.globals.get? ref.name.lexeme with
    | some v => exact .pure rfl
    | none => exact .throwSame _

theorem assign_alike {ref ref' : Reference} (hρ : Names.Match Δ ρ ρ') (h : ref.Variant Δ ref')
    (v : Value) : Alike braces short short' Eq (assign ρ ref.name v) (assign ρ' ref'.name v) := by
  obtain ⟨hcell, hglobal⟩ := hρ _ _ h.paired
  unfold assign
  rw [← hcell]
  cases hc : ρ.cell? ref.name.lexeme with
  | some cell => exact setCell_alike cell v
  | none =>
    rw [h.name_eq (hglobal hc)]
    refine .inspect fun μ μ' hμ => ?_
    rw [hμ.globals]
    split
    · exact setGlobal_alike _ v
    · exact .throwSame _

theorem lookUpLocal_alike {x : String} (hρ : Names.Match Δ ρ ρ') (hx : Δ x x) :
    Alike braces short short' Eq (lookUpLocal ρ x) (lookUpLocal ρ' x) := by
  unfold lookUpLocal
  rw [← (hρ x x hx).1]
  cases ρ.cell? x with
  | some cell => exact readCell_alike x x cell
  | none => exact .throwSame _

/-! ### Objects and classes -/

theorem getProperty_alike (object : Nat) (name : Token) :
    Alike braces short short' Eq (getProperty object name) (getProperty object name) := by
  refine .inspect fun μ μ' hμ => ?_
  rw [hμ.objects]
  cases μ.objects[object]? with
  | none => exact .throwSame _
  | some o =>
    simp only [Option.bind_some]
    cases o.fields.get? name.lexeme with
    | some v => exact .pure rfl
    | none =>
      have hm := hμ.findMethod o.cls name.lexeme
      generalize μ.findMethod o.cls name.lexeme = m at hm ⊢
      generalize μ'.findMethod o.cls name.lexeme = m' at hm ⊢
      cases hm with
      | none => exact .throwSame _
      | some hm => exact (bindMethod_alike hm _).bind fun _ _ hc => newClosure_alike hc.1

theorem superMethod_alike (hρ : Names.Match Δ ρ ρ') (hsuper : Δ superName superName)
    (hthis : Δ thisName thisName) (method : Token) :
    Alike braces short short' Eq (superMethod ρ method) (superMethod ρ' method) := by
  refine (lookUpLocal_alike hρ hsuper).value fun superclass => ?_
  refine (lookUpLocal_alike hρ hthis).value fun object => ?_
  cases superclass with
  | cls cls =>
    refine .inspect fun μ μ' hμ => ?_
    have hm := hμ.findMethod cls method.lexeme
    generalize μ.findMethod cls method.lexeme = m at hm ⊢
    generalize μ'.findMethod cls method.lexeme = m' at hm ⊢
    cases hm with
    | none => exact .throwSame _
    | some hm => exact (bindMethod_alike hm _).bind fun _ _ hc => newClosure_alike hc.1
  | _ => exact .throwSame _

theorem callNative_alike (f : Native) (arguments : List Value) :
    Alike braces short short' Eq (callNative f arguments) (callNative f arguments) := by
  refine .inspect fun μ μ' hμ => ?_
  obtain ⟨name, arity, action⟩ := f
  cases action with
  | clock => exact .pure (by rw [hμ.time])
  | echo =>
    have htext : μ'.text = μ.text := funext hμ.text_eq
    exact .pure (by rw [htext])
  | fail message => exact .throwSame _
  | compute g =>
    dsimp only
    cases g arguments with
    | ok v => exact .pure rfl
    | error e => exact .throwSame _

theorem ofOperator_alike (r : Except Interrupt Value) :
    Alike braces short short' Eq (ofOperator r) (ofOperator r) := by
  cases r with
  | ok v => exact .pure rfl
  | error i => exact .throwSame i

/-- The methods of two classes. -/
theorem methodTable_variant (hρ : Names.Match Δ ρ ρ') {methods methods' : List Routine}
    (h : MethodsVariant braces (Δ.bind thisName thisName) methods methods') (x : String) :
    Option.Rel (Closure.MethodVariant braces) ((methodTable ρ methods).get? x)
      ((methodTable ρ' methods').get? x) := by
  refine Bindings.ofList_rel ?_ x
  induction methods generalizing methods' with
  | nil =>
    cases h
    exact .nil
  | cons m ms ih =>
    cases h with
    | @cons _ _ m' _ ms' hm hms =>
      have hinit : m'.isInitializer = m.isInitializer := by
        simp only [Routine.isInitializer, hm.name_eq]
      exact .cons ⟨congrArg Token.lexeme hm.name_eq, Δ, hρ, hm, hinit⟩ (ih hms)

theorem Class.variant_mk (name : String) {superclass superclass' : Option Class}
    (hsuper : Option.Rel (Class.Variant braces) superclass superclass')
    {methods methods' : Bindings Closure}
    (h : ∀ x, Option.Rel (Closure.MethodVariant braces) (methods.get? x) (methods'.get? x)) :
    Class.Variant braces (.mk name superclass methods) (.mk name superclass' methods') := by
  cases hsuper with
  | none => exact .base name h
  | some hsuper => exact .derived name hsuper h

/-- The class that a declaration inherits from is a class, and the same on both sides. -/
theorem superclassOf_alike {ref ref' : Reference} (hρ : Names.Match Δ ρ ρ')
    (h : ref.Variant Δ ref') :
    Alike braces short short' (fun a b => ∃ id, a = some id ∧ b = some id)
      (superclassOf ρ (some ref)) (superclassOf ρ' (some ref')) := by
  refine (lookUp_alike hρ h).value fun v => ?_
  cases v with
  | cls id => exact .pure ⟨id, rfl, rfl⟩
  | _ => exact .throw (.error _ (by rw [h.token.eq_respell]; rfl))

theorem base_alike {isLocal : Bool} {name : Token} {methods methods' : List Routine}
    (hρ : Names.Match Δ ρ ρ') (hlocal : ρ.isLocal = isLocal) (hlocal' : ρ'.isLocal = isLocal)
    (h : MethodsVariant braces
      ((Δ.declare isLocal name.lexeme name.lexeme).bind thisName thisName) methods methods') :
    Alike braces short short'
      (fun ρ₁ ρ₁' => Names.Match (Δ.declare isLocal name.lexeme name.lexeme) ρ₁ ρ₁' ∧
        ρ₁.isLocal = isLocal ∧ ρ₁'.isLocal = isLocal)
      (declareClass ρ name none methods) (declareClass ρ' name none methods') := by
  refine (declare_alike hρ hlocal hlocal' fun _ => rfl).bind fun p p' hp => ?_
  simp only [superclassOf, methodNames, pure_bind]
  refine .inspect fun μ μ' hμ => ?_
  refine (newClass_alike (.base _ (methodTable_variant hp.names h))).value fun cls => ?_
  exact (fill_alike hp cls).value fun _ => .pure ⟨hp.names, hp.isLocal_eq, hp.isLocal_eq'⟩

theorem derived_alike {isLocal : Bool} {name : Token} {ref ref' : Reference}
    {methods methods' : List Routine} (hρ : Names.Match Δ ρ ρ') (hlocal : ρ.isLocal = isLocal)
    (hlocal' : ρ'.isLocal = isLocal)
    (href : ref.Variant (Δ.declare isLocal name.lexeme name.lexeme) ref')
    (h : MethodsVariant braces (((Δ.declare isLocal name.lexeme name.lexeme).bind
      superName superName).bind thisName thisName) methods methods') :
    Alike braces short short'
      (fun ρ₁ ρ₁' => Names.Match (Δ.declare isLocal name.lexeme name.lexeme) ρ₁ ρ₁' ∧
        ρ₁.isLocal = isLocal ∧ ρ₁'.isLocal = isLocal)
      (declareClass ρ name (some ref) methods) (declareClass ρ' name (some ref') methods') := by
  refine (declare_alike hρ hlocal hlocal' fun _ => rfl).bind fun p p' hp => ?_
  refine (superclassOf_alike hp.names href).bind ?_
  rintro _ _ ⟨id, rfl, rfl⟩
  simp only [methodNames, bind_assoc, pure_bind]
  refine (newCell_alike _).value fun cell => .inspect fun μ μ' hμ => ?_
  have hmethods := methodTable_variant (hp.names.bind superName superName cell) h
  refine (newClass_alike (Class.variant_mk _ (hμ.classes.get id) hmethods)).value fun cls => ?_
  exact (fill_alike hp cls).value fun _ => .pure ⟨hp.names, hp.isLocal_eq, hp.isLocal_eq'⟩

end

end Lexical

end Lox
