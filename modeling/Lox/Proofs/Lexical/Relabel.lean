/-
**Runs on other lines, and with more steps and deeper calls.**

Over names and cells nothing depends on the numbers of references, and lines are only carried along
to the error that a run may end with.  So a relabelled tree, run from a relabelled state, does what
the tree itself does, and ends with the relabelled result.  The same holds if the second run is
allowed more steps than the first, or calls that are nested deeper, unless that is what the first
one ends for.

Main definitions:

* `Lox.Lexical.State.relabel`, `Lox.Interrupt.relabel` — states and interrupts with other lines and
  numbers;
* `Lox.Lexical.UsedUp`, `Lox.Lexical.Overflows` — runs that end for want of steps, or of room for
  calls;
* `Lox.Lexical.More` — what a second run has more of, steps or room or both;
* `Lox.Lexical.Carries` — **a step that does on relabelled states what another one does**;
* `Lox.Lexical.Carried` — the same of everything within given allowances.

Main results:

* `Lox.Lexical.Carries.bind` — steps put together;
* `Lox.Lexical.carried` — **relabelled trees run alike**, with more steps and deeper calls as well;
* `Lox.Lexical.execAll_relabel`, `Lox.Lexical.execAll_mono`, `Lox.Lexical.execAll_deeper` — the same
  for whole programs.
-/

import Lox.Proofs.Lexical.Eval
import Lox.Proofs.Sequence
import Lox.Proofs.Tree.Relabel

set_option relaxedAutoImplicit false
set_option autoImplicit false

namespace Lox

/-! ### Tables with other values -/

namespace Bindings

variable {α β : Type}

/-- The same names with other values. -/
def map (g : α → β) (b : Bindings α) : Bindings β := ⟨b.entries.map fun e => (e.1, g e.2)⟩

theorem get?_map (g : α → β) (b : Bindings α) (x : String) :
    (b.map g).get? x = (b.get? x).map g := by
  obtain ⟨es⟩ := b
  induction es with
  | nil => rfl
  | cons e es ih =>
    simp only [get?, map, List.map_cons, lookup] at ih ⊢
    split
    · rfl
    · exact ih

theorem map_set (g : α → β) (b : Bindings α) (x : String) (v : α) :
    (b.set x v).map g = (b.map g).set x (g v) := by
  obtain ⟨es⟩ := b
  have hupdate : (update x v es).map (fun e => (e.1, g e.2)) =
      update x (g v) (es.map fun e => (e.1, g e.2)) := by
    induction es with
    | nil => rfl
    | cons e es ih =>
      simp only [update, List.map_cons]
      split
      · rfl
      · rw [List.map_cons, ih]
  simp only [map, set, hupdate]

theorem map_ofList (g : α → β) (es : List (String × α)) :
    (ofList es).map g = ofList (es.map fun e => (e.1, g e.2)) := by
  have hfold : ∀ b : Bindings α,
      (es.foldl (fun b e => b.set e.1 e.2) b).map g =
        (es.map fun e => (e.1, g e.2)).foldl (fun b e => b.set e.1 e.2) (b.map g) := by
    induction es with
    | nil => exact fun _ => rfl
    | cons e es ih =>
      intro b
      rw [List.foldl_cons, ih, List.map_cons, List.foldl_cons, map_set]
  exact hfold empty

theorem map_id (b : Bindings α) : b.map (fun v => v) = b := by
  simp [map]

end Bindings

/-! ### Relabelled states -/

/-- The relabelled error. -/
def RuntimeError.relabel (σ : Relabeling) (e : RuntimeError) : RuntimeError :=
  { e with token := e.token.map σ.token }

/-- The relabelled interrupt. -/
def Interrupt.relabel (σ : Relabeling) : Interrupt → Interrupt
  | .error e => .error (e.relabel σ)
  | .returned v => .returned v
  | .fault f => .fault f
  | .outOfFuel => .outOfFuel

/-- A native function whose errors are relabelled. -/
def Native.relabel (σ : Relabeling) (f : Native) : Native :=
  { f with action :=
      match f.action with
      | .compute g => .compute fun vs => (g vs).mapError (RuntimeError.relabel σ)
      | .clock => .clock
      | .echo => .echo
      | .fail message => .fail message }

namespace Lexical

/-- The relabelled function. -/
def Closure.relabel (σ : Relabeling) (c : Closure) : Closure :=
  { c with routine := c.routine.relabel σ }

/-- The relabelled class. -/
def Class.relabel (σ : Relabeling) : Class → Class
  | .mk name none methods => .mk name none (methods.map (Closure.relabel σ))
  | .mk name (some superclass) methods =>
    .mk name (some (superclass.relabel σ)) (methods.map (Closure.relabel σ))

@[simp] theorem Class.name_relabel (σ : Relabeling) : ∀ c : Class, (c.relabel σ).name = c.name
  | .mk _ none _ | .mk _ (some _) _ => rfl

theorem Class.relabel_mk (σ : Relabeling) (name : String) (superclass : Option Class)
    (methods : Bindings Closure) :
    (Class.mk name superclass methods).relabel σ =
      .mk name (superclass.map (Class.relabel σ)) (methods.map (Closure.relabel σ)) := by
  cases superclass <;> rfl

theorem Class.findMethod_relabel (σ : Relabeling) (x : String) : ∀ c : Class,
    (c.relabel σ).findMethod x = (c.findMethod x).map (Closure.relabel σ)
  | .mk _ none methods => Bindings.get?_map _ methods x
  | .mk _ (some superclass) methods => by
    simp only [Class.relabel, Class.findMethod, Bindings.get?_map,
      Class.findMethod_relabel σ x superclass, Option.map_or]

namespace State

/-- The relabelled state. -/
def relabel (σ : Relabeling) (μ : State) : State :=
  { μ with
    closures := μ.closures.map (Closure.relabel σ)
    classes := μ.classes.map (Class.relabel σ)
    natives := μ.natives.map (Native.relabel σ) }

section

variable (σ : Relabeling) (μ : State)

@[simp] theorem cell?_relabel (cell : Nat) : (μ.relabel σ).cell? cell = μ.cell? cell := rfl

@[simp] theorem globals_relabel : (μ.relabel σ).globals = μ.globals := rfl

@[simp] theorem objects_relabel : (μ.relabel σ).objects = μ.objects := rfl

@[simp] theorem className_relabel (id : Nat) : (μ.relabel σ).className id = μ.className id := by
  simp only [className, relabel, Array.getElem?_map]
  cases μ.classes[id]? with
  | none => rfl
  | some c => exact c.name_relabel σ

/-- A value is printed the same. -/
@[simp] theorem text_relabel (v : Value) : (μ.relabel σ).text v = μ.text v := by
  cases v with
  | closure id =>
    simp only [text, relabel, Array.getElem?_map]
    cases μ.closures[id]? with
    | none => rfl
    | some c => simp [Closure.relabel]
  | cls id => exact className_relabel σ μ id
  | object id =>
    simp only [text, className_relabel]
    rfl
  | _ => rfl

theorem findMethod_relabel (cls : Nat) (x : String) :
    (μ.relabel σ).findMethod cls x = (μ.findMethod cls x).map (Closure.relabel σ) := by
  simp only [findMethod, relabel, Array.getElem?_map]
  cases μ.classes[cls]? with
  | none => rfl
  | some c => exact c.findMethod_relabel σ x

/-- What can be called, relabelled. -/
def Callable.relabel (σ : Relabeling) : Callable → Callable
  | .closure c => .closure (c.relabel σ)
  | .native f => .native (f.relabel σ)
  | .cls id initializer => .cls id (initializer.map (Closure.relabel σ))

theorem callable?_relabel (v : Value) :
    (μ.relabel σ).callable? v = (μ.callable? v).map (Callable.relabel σ) := by
  cases v with
  | closure id =>
    simp only [callable?, relabel, Array.getElem?_map, Option.map_map]
    rfl
  | native id =>
    simp only [callable?, relabel, Array.getElem?_map, Option.map_map]
    rfl
  | cls id =>
    simp only [callable?, findMethod_relabel]
    rfl
  | _ => rfl

theorem Callable.arity_relabel (f : Callable) : (f.relabel σ).arity = f.arity := by
  cases f with
  | closure c => simp [Callable.relabel, Callable.arity, Closure.relabel]
  | native f => rfl
  | cls id initializer =>
    cases initializer with
    | none => rfl
    | some c => simp [Callable.relabel, Callable.arity, Closure.relabel]

end

end State

/-! ### Steps -/

/-- The relabelled result. -/
def relabelResult {α β : Type} (σ : Relabeling) (g : α → β) :
    EStateM.Result Interrupt State α → EStateM.Result Interrupt State β
  | .ok a μ => .ok (g a) (μ.relabel σ)
  | .error i μ => .error (i.relabel σ) (μ.relabel σ)

/-- The allowance of a run is used up. -/
def UsedUp {α : Type} (r : EStateM.Result Interrupt State α) : Prop := ∃ μ, r = .error .outOfFuel μ

/-- There is no room for a call that is nested so deep. -/
def Overflows {α : Type} (r : EStateM.Result Interrupt State α) : Prop :=
  ∃ paren μ, r = .error (.at paren .stackOverflow) μ

/-- What a second run has more of than a first one. -/
structure More where
  steps : Prop
  room : Prop

/-- The first run ends for want of something that the second one has more of. -/
def More.Missed {α : Type} (more : More) (r : EStateM.Result Interrupt State α) : Prop :=
  more.steps ∧ UsedUp r ∨ more.room ∧ Overflows r

namespace More

variable {α β : Type} {more : More} {r : EStateM.Result Interrupt State α}

/-- What was missed ends every way to go on. -/
theorem Missed.error (h : more.Missed r) :
    ∃ i μ, r = .error i μ ∧ (∀ v, i ≠ .returned v) ∧
      more.Missed (.error i μ : EStateM.Result Interrupt State β) := by
  rcases h with ⟨hsteps, μ, rfl⟩ | ⟨hroom, paren, μ, rfl⟩
  · exact ⟨_, μ, rfl, nofun, .inl ⟨hsteps, μ, rfl⟩⟩
  · exact ⟨_, μ, rfl, nofun, .inr ⟨hroom, paren, μ, rfl⟩⟩

theorem not_missed : ¬ More.Missed ⟨False, False⟩ r := by
  rintro (h | h)
  · exact h.1
  · exact h.1

theorem usedUp_of_missed (h : More.Missed ⟨True, False⟩ r) : UsedUp r :=
  (h.resolve_right fun h => h.1).2

theorem overflows_of_missed (h : More.Missed ⟨False, True⟩ r) : Overflows r :=
  (h.resolve_left fun h => h.1).2

end More

/-- The second step does **on relabelled states** what the first one does, unless the first one ends
for want of something that the second one has more of. -/
def Carries {α β : Type} (σ : Relabeling) (more : More) (g : α → β) (step : Run α)
    (step' : Run β) : Prop :=
  ∀ μ, step' (μ.relabel σ) = relabelResult σ g (step μ) ∨ more.Missed (step μ)

namespace Carries

variable {α β γ δ : Type} {σ : Relabeling} {more : More} {g : α → β} {h : γ → δ}

theorem pure {a : α} {b : β} (hab : b = g a) :
    Carries σ more g (Pure.pure a) (Pure.pure b) := by
  subst hab
  exact fun _ => .inl rfl

theorem throw {i i' : Interrupt} (hi : i' = i.relabel σ) :
    Carries σ more g (throw i) (throw i') := by
  subst hi
  exact fun _ => .inl rfl

/-- A step without an allowance, beside one that has one. -/
theorem usedUp (hmore : more.steps) (step : Run β) :
    Carries σ more g (MonadExcept.throw .outOfFuel) step :=
  fun μ => .inr (.inl ⟨hmore, μ, rfl⟩)

/-- A call for which there is no room, beside one for which there is. -/
theorem overflow (hmore : more.room) (paren : Token) (step : Run β) :
    Carries σ more g (MonadExcept.throw (.at paren .stackOverflow)) step :=
  fun μ => .inr (.inr ⟨hmore, paren, μ, rfl⟩)

/-- Steps put together. -/
theorem bind {step : Run α} {step' : Run β} {k : α → Run γ} {k' : β → Run δ}
    (hs : Carries σ more g step step') (hk : ∀ a, Carries σ more h (k a) (k' (g a))) :
    Carries σ more h (step >>= k) (step' >>= k') := by
  intro μ
  cases hstep : step μ with
  | error i μ₁ =>
    rw [bind_error hstep]
    rcases hs μ with heq | hmissed
    · rw [hstep] at heq
      exact .inl (bind_error heq)
    · obtain ⟨_, _, heq, -, hmissed⟩ := hmissed.error (β := γ)
      obtain ⟨rfl, rfl⟩ := EStateM.Result.error.inj (hstep.symm.trans heq)
      exact .inr hmissed
  | ok a μ₁ =>
    rw [bind_ok hstep]
    rcases hs μ with heq | hmissed
    · rw [hstep] at heq
      rw [bind_ok heq]
      exact hk a μ₁
    · obtain ⟨_, _, heq, -⟩ := hmissed.error (β := γ)
      cases hstep.symm.trans heq

/-- A step that looks at the state. -/
theorem inspect {k : State → Run γ} {k' : State → Run δ}
    (hk : ∀ μ, Carries σ more h (k μ) (k' (μ.relabel σ))) :
    Carries σ more h (get >>= k) (get >>= k') :=
  fun μ => hk μ μ

/-- A step that changes the state and gives a value. -/
theorem changeGet {f : State → α × State} {f' : State → β × State}
    (hf : ∀ μ, f' (μ.relabel σ) = (g (f μ).1, (f μ).2.relabel σ)) :
    Carries σ more g (modifyGet f) (modifyGet f') := by
  intro μ
  refine .inl ?_
  change EStateM.Result.ok (f' (μ.relabel σ)).1 (f' (μ.relabel σ)).2 = _
  rw [hf]
  rfl

theorem change {f : State → State} (hf : ∀ μ, f (μ.relabel σ) = (f μ).relabel σ) :
    Carries σ more id (modify f) (modify f) :=
  fun μ => .inl (congrArg (EStateM.Result.ok ()) (hf μ))

theorem catchReturn {step step' : Run Names} (hs : Carries σ more id step step') :
    Carries σ more id (Run.catchReturn step) (Run.catchReturn step') := by
  intro μ
  unfold Run.catchReturn
  rcases hs μ with heq | hmissed
  · rw [heq]
    cases step μ with
    | ok ρ μ₁ => exact .inl rfl
    | error i μ₁ => cases i <;> exact .inl rfl
  · obtain ⟨i, μ', heq, hreturned, hmissed⟩ := hmissed.error (β := Value)
    rw [heq]
    cases i with
    | returned v => exact absurd rfl (hreturned v)
    | _ => exact .inr hmissed

end Carries

section

variable {σ : Relabeling} {more : More}

/-! ### Cells, tables and names -/

theorem print_carries (line : String) : Carries σ more id (Run.print line) (Run.print line) :=
  .change fun _ => rfl

theorem newCell_carries (content : Option Value) :
    Carries σ more id (Run.newCell content) (Run.newCell content) :=
  .changeGet fun _ => rfl

theorem setCell_carries (cell : Nat) (v : Value) :
    Carries σ more id (Run.setCell cell v) (Run.setCell cell v) :=
  .change fun _ => rfl

theorem setGlobal_carries (x : String) (v : Value) :
    Carries σ more id (Run.setGlobal x v) (Run.setGlobal x v) :=
  .change fun _ => rfl

theorem setField_carries (object : Nat) (name : String) (v : Value) :
    Carries σ more id (Run.setField object name v) (Run.setField object name v) :=
  .change fun _ => rfl

theorem newObject_carries (cls : Nat) :
    Carries σ more id (Run.newObject cls) (Run.newObject cls) :=
  .changeGet fun _ => rfl

theorem newClosure_carries (c : Closure) :
    Carries σ more id (Run.newClosure c) (Run.newClosure (c.relabel σ)) :=
  .changeGet fun μ => by simp [State.relabel]

theorem newClass_carries (c : Class) :
    Carries σ more id (Run.newClass c) (Run.newClass (c.relabel σ)) :=
  .changeGet fun μ => by simp [State.relabel]

theorem readCell_carries (x : String) (cell : Nat) :
    Carries σ more id (Run.readCell x cell) (Run.readCell x cell) := by
  refine .inspect fun μ => ?_
  rw [State.cell?_relabel]
  cases μ.cell? cell with
  | none => exact .throw rfl
  | some v => exact .pure rfl

theorem bindMethod_carries (c : Closure) (object : Value) :
    Carries σ more (Closure.relabel σ) (Run.bindMethod c object)
      (Run.bindMethod (c.relabel σ) object) :=
  (newCell_carries _).bind fun _ => .pure rfl

theorem bindAll_carries (es : List (String × Value)) (ρ : Names) :
    Carries σ more id (Run.bindAll ρ es) (Run.bindAll ρ es) := by
  induction es generalizing ρ with
  | nil => exact .pure rfl
  | cons e es ih => exact (newCell_carries _).bind fun cell => ih (ρ.bind e.1 cell)

theorem declare_carries (ρ : Names) (x : String) :
    Carries σ more id (Run.declare ρ x) (Run.declare ρ x) := by
  unfold Run.declare
  split
  · exact (newCell_carries _).bind fun _ => .pure rfl
  · exact .pure rfl

theorem fill_carries (x : String) (v : Value) (cell? : Option Nat) :
    Carries σ more id (Run.fill x v cell?) (Run.fill x v cell?) := by
  cases cell? with
  | none => exact setGlobal_carries x v
  | some cell => exact setCell_carries cell v

theorem lookUp_carries (ρ : Names) (name : Token) :
    Carries σ more id (lookUp ρ name) (lookUp ρ (σ.token name)) := by
  simp only [lookUp, Relabeling.lexeme_token]
  cases ρ.cell? name.lexeme with
  | some cell => exact readCell_carries _ cell
  | none =>
    refine .inspect fun μ => ?_
    rw [State.globals_relabel]
    cases μ.globals.get? name.lexeme with
    | some v => exact .pure rfl
    | none => exact .throw rfl

theorem assign_carries (ρ : Names) (name : Token) (v : Value) :
    Carries σ more id (assign ρ name v) (assign ρ (σ.token name) v) := by
  simp only [assign, Relabeling.lexeme_token]
  cases ρ.cell? name.lexeme with
  | some cell => exact setCell_carries cell v
  | none =>
    refine .inspect fun μ => ?_
    change Carries σ more id _ (if μ.globals.binds name.lexeme then _ else _)
    split
    · exact setGlobal_carries _ v
    · exact .throw rfl

theorem lookUpLocal_carries (ρ : Names) (x : String) :
    Carries σ more id (lookUpLocal ρ x) (lookUpLocal ρ x) := by
  unfold lookUpLocal
  split
  · exact readCell_carries x _
  · exact .throw rfl

/-! ### Objects, classes and operators -/

theorem getProperty_carries (object : Nat) (name : Token) :
    Carries σ more id (getProperty object name) (getProperty object (σ.token name)) := by
  refine .inspect fun μ => ?_
  simp only [State.objects_relabel, Relabeling.lexeme_token, State.findMethod_relabel]
  cases μ.objects[object]? with
  | none => exact .throw rfl
  | some o =>
    simp only [Option.bind_some]
    cases o.fields.get? name.lexeme with
    | some v => exact .pure rfl
    | none =>
      cases μ.findMethod o.cls name.lexeme with
      | some method => exact (bindMethod_carries method _).bind newClosure_carries
      | none => exact .throw rfl

theorem superMethod_carries (ρ : Names) (method : Token) :
    Carries σ more id (superMethod ρ method) (superMethod ρ (σ.token method)) := by
  refine (lookUpLocal_carries ρ superName).bind fun superclass => ?_
  refine (lookUpLocal_carries ρ thisName).bind fun object => ?_
  cases superclass with
  | cls cls =>
    refine .inspect fun μ => ?_
    simp only [Relabeling.lexeme_token, State.findMethod_relabel]
    cases μ.findMethod cls method.lexeme with
    | some found => exact (bindMethod_carries found object).bind newClosure_carries
    | none => exact .throw rfl
  | _ => exact .throw rfl

theorem methodTable_relabel (ρ : Names) (methods : List Routine) :
    methodTable ρ (relabelMethods σ methods) =
      (methodTable ρ methods).map (Closure.relabel σ) := by
  simp only [methodTable, Bindings.map_ofList, relabelMethods_eq_map, List.map_map]
  congr 1
  refine List.map_congr_left fun r _ => ?_
  simp [Closure.relabel]

theorem superclassOf_carries (ρ : Names) (superclass : Option Reference) :
    Carries σ more id (superclassOf ρ superclass)
      (superclassOf ρ (superclass.map (Reference.relabel σ))) := by
  cases superclass with
  | none => exact .pure rfl
  | some ref =>
    refine (lookUp_carries ρ ref.name).bind fun v => ?_
    cases v with
    | cls cls => exact .pure rfl
    | _ => exact .throw rfl

theorem methodNames_carries (ρ : Names) (superclass? : Option Nat) :
    Carries σ more id (methodNames ρ superclass?) (methodNames ρ superclass?) := by
  cases superclass? with
  | none => exact .pure rfl
  | some cls => exact (newCell_carries _).bind fun _ => .pure rfl

theorem declareClass_carries (ρ : Names) (name : Token) (superclass : Option Reference)
    (methods : List Routine) :
    Carries σ more id (declareClass ρ name superclass methods)
      (declareClass ρ (σ.token name) (superclass.map (Reference.relabel σ))
        (relabelMethods σ methods)) := by
  refine (declare_carries ρ name.lexeme).bind fun ⟨ρ', cell?⟩ => ?_
  refine (superclassOf_carries ρ' superclass).bind fun superclass? => ?_
  refine (methodNames_carries ρ' superclass?).bind fun names => .inspect fun μ => ?_
  have hclass : Class.mk (σ.token name).lexeme (superclass?.bind ((μ.relabel σ).classes[·]?))
      (methodTable names (relabelMethods σ methods)) =
      (Class.mk name.lexeme (superclass?.bind (μ.classes[·]?)) (methodTable names methods)).relabel
        σ := by
    rw [Class.relabel_mk, methodTable_relabel, Option.map_bind]
    simp only [State.relabel, Array.getElem?_map]
    rfl
  dsimp only [id_eq]
  rw [hclass]
  exact (newClass_carries _).bind fun cls => (fill_carries _ cls cell?).bind fun _ => .pure rfl

theorem callNative_carries (f : Native) (arguments : List Value) :
    Carries σ more id (callNative f arguments) (callNative (f.relabel σ) arguments) := by
  refine .inspect fun μ => ?_
  obtain ⟨name, arity, action⟩ := f
  cases action with
  | clock => exact .pure rfl
  | echo =>
    have htext : (μ.relabel σ).text = μ.text := funext fun v => μ.text_relabel σ v
    refine .pure ?_
    rw [htext]
    rfl
  | fail message => exact .throw rfl
  | compute g =>
    simp only [Native.relabel]
    cases g arguments with
    | ok v => exact .pure rfl
    | error e => exact .throw rfl

/-- The relabelled result of an operator. -/
def relabelOutcome (σ : Relabeling) (r : Except Interrupt Value) : Except Interrupt Value :=
  r.mapError (Interrupt.relabel σ)

theorem ofOperator_carries {r r' : Except Interrupt Value} (h : r' = relabelOutcome σ r) :
    Carries σ more id (ofOperator r) (ofOperator r') := by
  subst h
  cases r with
  | ok v => exact .pure rfl
  | error i => exact .throw rfl

theorem applyUnary_relabel (operator : Token) (v : Value) :
    applyUnary (σ.token operator) v = relabelOutcome σ (applyUnary operator v) := by
  simp only [applyUnary, Relabeling.kind_token]
  split
  · rfl
  · cases v <;> rfl
  · rfl

/-- An operator on two numbers, whose own mistakes are relabelled. -/
theorem onNumbers_relabel (operator : Token) {f f' : Number → Number → Except Interrupt Value}
    (hf : ∀ x y, f' x y = relabelOutcome σ (f x y)) (v w : Value) :
    onNumbers (σ.token operator) f' v w = relabelOutcome σ (onNumbers operator f v w) := by
  cases v <;> cases w <;> first | exact hf _ _ | rfl

theorem applyBinary_relabel (v w : Value) (operator : Token) :
    applyBinary v (σ.token operator) w = relabelOutcome σ (applyBinary v operator w) := by
  simp only [applyBinary, Relabeling.kind_token]
  split
  case h_9 =>
    refine onNumbers_relabel operator (fun x y => ?_) v w
    split <;> rfl
  case h_10 => cases v <;> cases w <;> rfl
  all_goals first
    | rfl
    | refine onNumbers_relabel operator ?_ v w
      exact fun _ _ => rfl

end

/-! ### Everything within an allowance -/

/-- The room for calls is the same in both runs, or there is more of it in the second one. -/
def More.Allows (more : More) (room room' : Nat) : Prop := room = room' ∨ more.room ∧ room ≤ room'

theorem More.Allows.refl (more : More) (room : Nat) : more.Allows room room := .inl rfl

/-- Where there is room for one more call in the first run, there is in the second one. -/
theorem More.Allows.succ {more : More} {room room' : Nat} (h : more.Allows (room + 1) room') :
    ∃ room'', room' = room'' + 1 ∧ more.Allows room room'' := by
  rcases h with rfl | ⟨hmore, hle⟩
  · exact ⟨room, rfl, .refl more room⟩
  · obtain ⟨d, rfl⟩ := Nat.exists_eq_add_of_le hle
    exact ⟨room + d, by omega, .inr ⟨hmore, by omega⟩⟩

/-- Within `n'` steps the relabelled trees do what the trees themselves do **within `n` steps**. -/
structure Carried (σ : Relabeling) (more : More) (n n' : Nat) : Prop where
  eval : ∀ {room room'}, more.Allows room room' → ∀ ρ e,
    Carries σ more id (eval n room ρ e) (eval n' room' ρ (e.relabel σ))
  evalAll : ∀ {room room'}, more.Allows room room' → ∀ ρ es,
    Carries σ more id (evalAll n room ρ es) (evalAll n' room' ρ (relabelArguments σ es))
  call : ∀ {room room'}, more.Allows room room' → ∀ paren callee arguments,
    Carries σ more id (call n room paren callee arguments)
      (call n' room' (σ.token paren) callee arguments)
  runClosure : ∀ {room room'}, more.Allows room room' → ∀ c arguments,
    Carries σ more id (runClosure n room c arguments) (runClosure n' room' (c.relabel σ) arguments)
  exec : ∀ {room room'}, more.Allows room room' → ∀ ρ s,
    Carries σ more id (exec n room ρ s) (exec n' room' ρ (s.relabel σ))
  execAll : ∀ {room room'}, more.Allows room room' → ∀ ρ ss,
    Carries σ more id (execAll n room ρ ss) (execAll n' room' ρ (relabelBody σ ss))
  execLoop : ∀ {room room'}, more.Allows room room' → ∀ ρ c body,
    Carries σ more id (execLoop n room ρ c body)
      (execLoop n' room' ρ (c.relabel σ) (body.relabel σ))

section

variable {σ : Relabeling} {more : More} {n n' room room' : Nat}
  (ih : Carried σ more n n') (hroom : more.Allows room room')

include ih hroom

theorem eval_carries (ρ : Names) (e : Expr) :
    Carries σ more id (eval (n + 1) room ρ e) (eval (n' + 1) room' ρ (e.relabel σ)) := by
  cases e with
  | literal value => exact .pure rfl
  | grouping e => exact ih.eval hroom ρ e
  | unary operator e =>
    exact (ih.eval hroom ρ e).bind fun v => ofOperator_carries (applyUnary_relabel operator v)
  | binary left operator right =>
    refine (ih.eval hroom ρ left).bind fun v => (ih.eval hroom ρ right).bind fun w => ?_
    exact ofOperator_carries (applyBinary_relabel v w operator)
  | logical left operator right =>
    refine (ih.eval hroom ρ left).bind fun v => ?_
    rw [Relabeling.kind_token]
    change Carries σ more id _ (if (v.isTruthy == _) = true then _ else _)
    cases v.isTruthy == (operator.kind == .keyword .or) with
    | true => exact .pure rfl
    | false => exact ih.eval hroom ρ right
  | «variable» ref => exact lookUp_carries ρ ref.name
  | assign ref e =>
    refine (ih.eval hroom ρ e).bind fun v => ?_
    exact (assign_carries ρ ref.name v).bind fun _ => .pure rfl
  | call callee paren arguments =>
    refine (ih.eval hroom ρ callee).bind fun f => (ih.evalAll hroom ρ arguments).bind fun vs => ?_
    exact ih.call hroom paren f vs
  | get object name =>
    refine (ih.eval hroom ρ object).bind fun v => ?_
    cases v with
    | object id => exact getProperty_carries id name
    | _ => exact .throw rfl
  | set object name e =>
    refine (ih.eval hroom ρ object).bind fun v => ?_
    cases v with
    | object id =>
      refine (ih.eval hroom ρ e).bind fun w => ?_
      exact (setField_carries id name.lexeme w).bind fun _ => .pure rfl
    | _ => exact .throw rfl
  | this ref => exact lookUpLocal_carries ρ thisName
  | super ref method => exact superMethod_carries ρ method
  | hole h => exact .throw rfl

theorem evalAll_carries (ρ : Names) (es : List Expr) :
    Carries σ more id (evalAll (n + 1) room ρ es)
      (evalAll (n' + 1) room' ρ (relabelArguments σ es)) := by
  cases es with
  | nil => exact .pure rfl
  | cons e es =>
    refine (ih.eval hroom ρ e).bind fun v => (ih.evalAll hroom ρ es).bind fun vs => ?_
    exact .pure rfl

theorem call_carries (paren : Token) (callee : Value) (arguments : List Value) :
    Carries σ more id (call (n + 1) room paren callee arguments)
      (call (n' + 1) room' (σ.token paren) callee arguments) := by
  refine .inspect fun μ => ?_
  rw [State.callable?_relabel]
  cases μ.callable? callee with
  | none => exact .throw rfl
  | some f =>
    simp only [Option.map_some, State.Callable.arity_relabel]
    by_cases harity : (arguments.length : Int) = f.arity
    · simp only [if_pos harity]
      cases room with
      | zero =>
        rcases hroom with rfl | ⟨hmore, -⟩
        · exact .throw rfl
        · exact .overflow hmore paren _
      | succ room =>
        obtain ⟨room', rfl, hrest⟩ := hroom.succ
        cases f with
        | native f => exact callNative_carries f arguments
        | closure c => exact ih.runClosure hrest c arguments
        | cls id initializer =>
          cases initializer with
          | none => exact newObject_carries id
          | some c =>
            refine (newObject_carries id).bind fun object => ?_
            refine (bindMethod_carries c object).bind fun c' => ?_
            exact (ih.runClosure hrest c' arguments).bind fun _ => .pure rfl
    · simp only [if_neg harity]
      exact .throw rfl

theorem runClosure_carries (c : Closure) (arguments : List Value) :
    Carries σ more id (runClosure (n + 1) room c arguments)
      (runClosure (n' + 1) room' (c.relabel σ) arguments) := by
  have hparams : (c.relabel σ).routine.params.map (·.lexeme) = c.routine.params.map (·.lexeme) := by
    simp [Closure.relabel]
  simp only [runClosure, hparams]
  refine (bindAll_carries _ c.names.inside).bind fun ρ => ?_
  have hbody : (c.relabel σ).routine.body = relabelBody σ c.routine.body :=
    Routine.body_relabel σ c.routine
  rw [hbody]
  refine (ih.execAll hroom ρ c.routine.body).catchReturn.bind fun v => ?_
  change Carries σ more id _ (if c.isInitializer = true then lookUpLocal c.names thisName else _)
  cases c.isInitializer with
  | true => exact lookUpLocal_carries c.names thisName
  | false => exact .pure rfl

theorem exec_carries (ρ : Names) (s : Stmt) :
    Carries σ more id (exec (n + 1) room ρ s) (exec (n' + 1) room' ρ (s.relabel σ)) := by
  cases s with
  | expression e => exact (ih.eval hroom ρ e).bind fun _ => .pure rfl
  | print e =>
    refine (ih.eval hroom ρ e).bind fun v => .inspect fun μ => ?_
    rw [State.text_relabel]
    exact (print_carries _).bind fun _ => .pure rfl
  | var name initializer =>
    cases initializer with
    | none =>
      refine (declare_carries ρ name.lexeme).bind fun ⟨ρ', cell?⟩ => ?_
      exact (fill_carries _ _ cell?).bind fun _ => .pure rfl
    | some e =>
      refine (declare_carries ρ name.lexeme).bind fun ⟨ρ', cell?⟩ => ?_
      refine (ih.eval hroom ρ' e).bind fun v => ?_
      exact (fill_carries _ v cell?).bind fun _ => .pure rfl
  | block body => exact (ih.execAll hroom ρ.inside body).bind fun _ => .pure rfl
  | cond condition thenBranch elseBranch =>
    have hcondition : ∀ {k k' : Value → Run Names},
        (∀ v, Carries σ more id (k v) (k' v)) →
        Carries σ more id (eval n room ρ condition >>= k)
          (eval n' room' ρ (condition.relabel σ) >>= k') := (ih.eval hroom ρ condition).bind
    cases elseBranch with
    | none =>
      refine hcondition fun v => ?_
      cases v.isTruthy with
      | true => exact (ih.exec hroom ρ thenBranch).bind fun _ => .pure rfl
      | false => exact .pure rfl
    | some s =>
      refine hcondition fun v => ?_
      cases v.isTruthy with
      | true => exact (ih.exec hroom ρ thenBranch).bind fun _ => .pure rfl
      | false => exact (ih.exec hroom ρ s).bind fun _ => .pure rfl
  | loop condition body => exact ih.execLoop hroom ρ condition body
  | function routine =>
    simp only [Stmt.relabel, exec, Routine.name_relabel, Relabeling.lexeme_token]
    refine (declare_carries ρ routine.name.lexeme).bind fun ⟨ρ', cell?⟩ => ?_
    refine (newClosure_carries ⟨routine, ρ', false⟩).bind fun f => ?_
    exact (fill_carries _ f cell?).bind fun _ => .pure rfl
  | ret keyword value =>
    cases value with
    | none => exact .throw rfl
    | some e => exact (ih.eval hroom ρ e).bind fun v => .throw rfl
  | classDecl name superclass methods => exact declareClass_carries ρ name superclass methods

theorem execAll_carries (ρ : Names) (ss : List Stmt) :
    Carries σ more id (execAll (n + 1) room ρ ss)
      (execAll (n' + 1) room' ρ (relabelBody σ ss)) := by
  cases ss with
  | nil => exact .pure rfl
  | cons s ss => exact (ih.exec hroom ρ s).bind fun ρ' => ih.execAll hroom ρ' ss

theorem execLoop_carries (ρ : Names) (c : Expr) (body : Stmt) :
    Carries σ more id (execLoop (n + 1) room ρ c body)
      (execLoop (n' + 1) room' ρ (c.relabel σ) (body.relabel σ)) := by
  refine (ih.eval hroom ρ c).bind fun v => ?_
  change Carries σ more id _ (if v.isTruthy = true then _ else _)
  cases v.isTruthy with
  | true => exact (ih.exec hroom ρ body).bind fun _ => ih.execLoop hroom ρ c body
  | false => exact .pure rfl

end

/-- **Relabelled trees run alike**, with the same allowance or with a larger one, and with the same
room for calls or with more. -/
theorem carried (σ : Relabeling) {more : More} {n n' : Nat} (hle : n ≤ n')
    (hmore : n < n' → more.steps) : Carried σ more n n' := by
  induction n generalizing n' with
  | zero =>
    cases n' with
    | zero =>
      exact
        { eval := fun _ _ _ => .throw rfl
          evalAll := fun _ _ _ => .throw rfl
          call := fun _ _ _ _ => .throw rfl
          runClosure := fun _ _ _ => .throw rfl
          exec := fun _ _ _ => .throw rfl
          execAll := fun _ _ _ => .throw rfl
          execLoop := fun _ _ _ _ => .throw rfl }
    | succ n' =>
      have hmore := hmore (Nat.zero_lt_succ n')
      exact
        { eval := fun _ _ _ => .usedUp hmore _
          evalAll := fun _ _ _ => .usedUp hmore _
          call := fun _ _ _ _ => .usedUp hmore _
          runClosure := fun _ _ _ => .usedUp hmore _
          exec := fun _ _ _ => .usedUp hmore _
          execAll := fun _ _ _ => .usedUp hmore _
          execLoop := fun _ _ _ _ => .usedUp hmore _ }
  | succ n ih =>
    cases n' with
    | zero => exact absurd hle (Nat.not_succ_le_zero n)
    | succ n' =>
      have ih := ih (Nat.le_of_succ_le_succ hle) fun hlt => hmore (Nat.succ_lt_succ hlt)
      exact
        { eval := eval_carries ih
          evalAll := evalAll_carries ih
          call := call_carries ih
          runClosure := runClosure_carries ih
          exec := exec_carries ih
          execAll := execAll_carries ih
          execLoop := execLoop_carries ih }

/-- Relabelled trees run alike with more steps. -/
theorem carried_steps (σ : Relabeling) {n n' : Nat} (hle : n ≤ n') :
    Carried σ ⟨True, False⟩ n n' := carried σ hle fun _ => trivial

/-! ### Whole programs -/

/-- A relabelled program ends with the relabelled result. -/
theorem execAll_relabel (σ : Relabeling) (n room : Nat) (ρ : Names) (program : List Stmt)
    (μ : State) :
    execAll n room ρ (relabelBody σ program) (μ.relabel σ) =
      relabelResult σ id (execAll n room ρ program μ) :=
  have h : Carried σ ⟨False, False⟩ n n := carried σ (Nat.le_refl n) (Nat.lt_irrefl n)
  (h.execAll (.refl _ room) ρ program μ).resolve_right More.not_missed

/-- The machine of names and cells at its beginning has nothing to relabel. -/
theorem State.initial_relabel (σ : Relabeling) (time : Number) :
    (State.initial time).relabel σ = .initial time := by
  simp [State.initial, State.register, State.relabel, Native.relabel, Machine.clock]

/-! ### More steps and deeper calls -/

theorem Closure.relabel_plain (c : Closure) : c.relabel .plain = c := by
  rw [Closure.relabel, Routine.relabel_plain]

theorem Class.relabel_plain : ∀ c : Class, c.relabel .plain = c
  | .mk _ none methods => by
    simp only [Class.relabel, funext Closure.relabel_plain, Bindings.map_id]
  | .mk _ (some superclass) methods => by
    simp only [Class.relabel, funext Closure.relabel_plain, Bindings.map_id,
      Class.relabel_plain superclass]

end Lexical

/-- Errors have lines and no numbers. -/
theorem RuntimeError.relabel_of_line {σ : Relabeling} (hσ : σ.line = Token.line)
    (e : RuntimeError) : e.relabel σ = e := by
  obtain ⟨token, cause⟩ := e
  cases token with
  | none => rfl
  | some t => simp only [RuntimeError.relabel, Option.map_some, Relabeling.token, hσ]

theorem Interrupt.relabel_of_line {σ : Relabeling} (hσ : σ.line = Token.line) (i : Interrupt) :
    i.relabel σ = i := by
  cases i with
  | error e => rw [Interrupt.relabel, RuntimeError.relabel_of_line hσ]
  | _ => rfl

theorem Native.relabel_plain (f : Native) : f.relabel .plain = f := by
  obtain ⟨name, arity, action⟩ := f
  cases action with
  | compute g =>
    have hplain : (fun vs => (g vs).mapError (RuntimeError.relabel .plain)) = g := by
      funext vs
      cases g vs with
      | ok v => rfl
      | error e => exact congrArg Except.error (e.relabel_of_line rfl)
    simp only [Native.relabel, hplain]
  | _ => rfl

namespace Lexical

theorem State.relabel_plain (μ : State) : μ.relabel .plain = μ := by
  simp only [State.relabel, funext Closure.relabel_plain, funext Class.relabel_plain,
    funext Native.relabel_plain, Array.map_id']

theorem relabelResult_plain {α : Type} (r : EStateM.Result Interrupt State α) :
    relabelResult .plain id r = r := by
  cases r with
  | ok a μ => rw [relabelResult, State.relabel_plain, id_eq]
  | error i μ => rw [relabelResult, State.relabel_plain, Interrupt.relabel_of_line rfl]

/-- A larger allowance makes no difference to a program that does not use up a smaller one. -/
theorem execAll_mono {n n' : Nat} (hle : n ≤ n') {room : Nat} {ρ : Names} {program : List Stmt}
    {μ : State} (hends : ¬ UsedUp (execAll n room ρ program μ)) :
    execAll n' room ρ program μ = execAll n room ρ program μ := by
  have h := (carried_steps .plain hle).execAll (.refl _ room) ρ program μ
  rw [relabelBody_plain, State.relabel_plain, relabelResult_plain] at h
  exact h.resolve_right fun h => hends (More.usedUp_of_missed h)

/-- Room for more calls makes no difference to a program whose calls have room enough. -/
theorem execAll_deeper {room room' : Nat} (hle : room ≤ room') {n : Nat} {ρ : Names}
    {program : List Stmt} {μ : State} (hends : ¬ Overflows (execAll n room ρ program μ)) :
    execAll n room' ρ program μ = execAll n room ρ program μ := by
  have hcarried : Carried .plain ⟨False, True⟩ n n :=
    carried .plain (Nat.le_refl n) (Nat.lt_irrefl n)
  have h := hcarried.execAll (.inr ⟨trivial, hle⟩) ρ program μ
  rw [relabelBody_plain, State.relabel_plain, relabelResult_plain] at h
  exact h.resolve_right fun h => hends (More.overflows_of_missed h)

end Lexical

end Lox
