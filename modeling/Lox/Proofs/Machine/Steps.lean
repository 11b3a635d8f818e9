/-
**Steps that keep the shape of a machine.**

Every step that is not a run of its own — an access, a new scope, a function, a class or an object —
keeps the shape of a machine that has one, whatever tree it belongs to and whatever distances are
noted, and also where it ends in an error.  Values that are found or made stand for something that
is there.

Main definitions:

* `Lox.Keeps` — **a step that has kept the shape**, however it ended.

Main results:

* `Lox.Keeps.bind`, `Lox.Keeps.after_bind` — steps put together;
* `Lox.Keeps.within`, `Lox.Keeps.catchReturn` — steps inside another scope, and bodies;
* `Lox.Keeps.getProperty`, `Lox.Keeps.superMethod`, `Lox.Keeps.declareClass` — **the steps that add
  scopes, functions and classes**.
-/

import Lox.Proofs.Machine.Shape
import Lox.Proofs.Sequence

set_option relaxedAutoImplicit false
set_option autoImplicit false

namespace Lox

/-- What is left behind by steps of which the first one gives its result. -/
theorem Run.after_bind_ok {α β : Type} {step : Run α} {next : α → Run β} {m m' : Machine} {a : α}
    (h : step m = .ok a m') : Run.after (step >>= next) m = Run.after (next a) m' := by
  unfold Run.after
  rw [bind_ok h]

/-! ### Steps that keep the shape -/

/-- A step **keeps the shape** of a machine, however it ends, and its result is as `Q` says. -/
def Keeps {α : Type} (Q : Machine → α → Prop) (step : Run α) (m : Machine) : Prop :=
  match step m with
  | .ok a m' => m.LeadsTo m' ∧ Q m' a
  | .error i m' => m.LeadsTo m' ∧ i.Exists m'

/-- A value that is there. -/
def There (m : Machine) (v : Value) : Prop := v.Exists m

/-- Values that are there. -/
def AllThere (m : Machine) (vs : List Value) : Prop := ∀ v ∈ vs, v.Exists m

/-- Nothing is asked of a result. -/
def Regardless {α : Type} (_ : Machine) (_ : α) : Prop := True

theorem AllThere.mono {m m' : Machine} {vs : List Value} (h : AllThere m vs) (he : m.Extends m') :
    AllThere m' vs := fun v hv => (h v hv).mono he

namespace Keeps

variable {α β : Type} {P Q : Machine → α → Prop} {R : Machine → β → Prop} {m : Machine}
  {step : Run α}

theorem of_ok (h : Keeps Q step m) {a : α} {m' : Machine} (hstep : step m = .ok a m') :
    m.LeadsTo m' ∧ Q m' a := by
  unfold Keeps at h
  rw [hstep] at h
  exact h

theorem of_error (h : Keeps Q step m) {i : Interrupt} {m' : Machine}
    (hstep : step m = .error i m') : m.LeadsTo m' ∧ i.Exists m' := by
  unfold Keeps at h
  rw [hstep] at h
  exact h

theorem leadsTo (h : Keeps Q step m) : m.LeadsTo (Run.after step m) := by
  unfold Run.after
  cases hstep : step m with
  | ok a m' => exact (h.of_ok hstep).1
  | error i m' => exact (h.of_error hstep).1

theorem pure (hm : m.WellShaped) {a : α} (ha : Q m a) : Keeps Q (Pure.pure a : Run α) m :=
  ⟨.refl hm, ha⟩

theorem throw (hm : m.WellShaped) {i : Interrupt} (hi : i.Exists m) :
    Keeps Q (MonadExcept.throw i : Run α) m := ⟨.refl hm, hi⟩

/-- Steps put together. -/
theorem bind {next : α → Run β} (h : Keeps P step m)
    (hnext : ∀ a m', m.LeadsTo m' → P m' a → Keeps R (next a) m') :
    Keeps R (step >>= next) m := by
  cases hstep : step m with
  | ok a m' =>
    obtain ⟨hm', ha⟩ := h.of_ok hstep
    have hrest := hnext a m' hm' ha
    unfold Keeps
    rw [bind_ok hstep]
    cases hstep' : next a m' with
    | ok b m'' => exact ⟨hm'.trans (hrest.of_ok hstep').1, (hrest.of_ok hstep').2⟩
    | error i m'' => exact ⟨hm'.trans (hrest.of_error hstep').1, (hrest.of_error hstep').2⟩
  | error i m' =>
    unfold Keeps
    rw [bind_error hstep]
    exact h.of_error hstep

/-- The rest of a run goes on from the machine that its first step leaves. -/
theorem after_bind {next : α → Run β} (h : Keeps P step m)
    (hnext : ∀ a m', m.LeadsTo m' → P m' a → Keeps R (next a) m') :
    (Run.after step m).LeadsTo (Run.after (step >>= next) m) := by
  unfold Run.after
  cases hstep : step m with
  | ok a m' =>
    obtain ⟨hm', ha⟩ := h.of_ok hstep
    rw [bind_ok hstep]
    exact (hnext a m' hm' ha).leadsTo
  | error i m' =>
    rw [bind_error hstep]
    exact .refl (h.of_error hstep).1.shape

/-- The machine at hand may be inspected. -/
theorem inspect {next : Machine → Run α} (h : Keeps Q (next m) m) :
    Keeps Q (get >>= next) m := h

/-- A step in another scope that exists. -/
theorem within (hm : m.WellShaped) {i : Nat} (h : Keeps Regardless step { m with current := i }) :
    Keeps Regardless (Run.within i step) m := by
  have hback : ∀ m' : Machine, m'.Extends { m' with current := m.current } := fun _ =>
    .of_tables rfl rfl rfl rfl rfl
  have hleads : ∀ m', Machine.LeadsTo { m with current := i } m' →
      m.LeadsTo { m' with current := m.current } := by
    intro m' hm'
    have hfirst : m.Extends { m with current := i } := .of_tables rfl rfl rfl rfl rfl
    have hgrowth := hfirst.trans hm'.growth
    have hscope := Nat.lt_of_lt_of_le hm.current hgrowth.scopes.size_le
    exact ⟨hgrowth.trans (hback m'), hm'.shape.atScope hscope⟩
  unfold Keeps Run.within
  cases hstep : step { m with current := i } with
  | ok a m' => exact ⟨hleads m' (h.of_ok hstep).1, trivial⟩
  | error j m' =>
    obtain ⟨hm', hj⟩ := h.of_error hstep
    exact ⟨hleads m' hm', hj.mono (hback m')⟩

/-- What a body returns is there. -/
theorem catchReturn {step : Run Unit} (h : Keeps Regardless step m) :
    Keeps There (Run.catchReturn step) m := by
  unfold Keeps Run.catchReturn
  cases hstep : step m with
  | ok a m' => exact ⟨(h.of_ok hstep).1, trivial⟩
  | error i m' =>
    have hm' := h.of_error hstep
    cases i <;> exact hm'

/-! ### Single steps -/

theorem ofSearch (hm : m.WellShaped) {r : Except RuntimeError α} (hr : ∀ a, r = .ok a → Q m a) :
    Keeps Q (Run.ofSearch r) m := by
  cases r with
  | ok a => exact pure hm (hr a rfl)
  | error e => exact throw hm trivial

theorem ofDistance (hm : m.WellShaped) {r : Except Fault α} (hr : ∀ a, r = .ok a → Q m a) :
    Keeps Q (Run.ofDistance r) m := by
  cases r with
  | ok a => exact pure hm (hr a rfl)
  | error f => exact throw hm trivial

theorem print (hm : m.WellShaped) (line : String) : Keeps Regardless (Run.print line) m :=
  ⟨.withOutput hm m.distances (m.printed.push line) m.time, trivial⟩

theorem newScope (hm : m.WellShaped) {p : Nat} (hp : p < m.heap.size) {b : Bindings Value}
    (hb : ∀ x v, b.get? x = some v → v.Exists m) :
    Keeps (fun m' i => i < m'.heap.size) (Run.newScope p b) m := by
  refine ⟨.pushScope hm hp hb, ?_⟩
  change m.heap.size < (m.heap.push (some p) b).size
  rw [Heap.size_push]
  exact Nat.lt_succ_self _

theorem store (hm : m.WellShaped) (i : Nat) (x : String) {v : Value} (hv : v.Exists m) :
    Keeps Regardless (Run.store i x v) m := ⟨.define hm i x hv, trivial⟩

theorem define (hm : m.WellShaped) (x : String) {v : Value} (hv : v.Exists m) :
    Keeps Regardless (Run.define x v) m := store hm m.current x hv

theorem newClosure (hm : m.WellShaped) {c : Closure} (hc : c.scope < m.heap.size) :
    Keeps There (Run.newClosure c) m := by
  refine ⟨.pushClosure hm hc, ?_⟩
  change m.closures.size < (m.closures.push c).size
  rw [Array.size_push]
  exact Nat.lt_succ_self _

theorem newClass (hm : m.WellShaped) {info : ClassInfo}
    (hmethods : ∀ x c, info.methods.get? x = some c → c.scope < m.heap.size) :
    Keeps There (Run.newClass info) m := by
  refine ⟨.pushClass hm hmethods, ?_⟩
  change m.classes.entries.size < (m.classes.entries.push _).size
  rw [Array.size_push]
  exact Nat.lt_succ_self _

theorem newObject (hm : m.WellShaped) {cls : Nat} (hcls : cls < m.classes.entries.size) :
    Keeps There (Run.newObject cls) m := by
  refine ⟨.pushObject hm hcls, ?_⟩
  change m.objects.size < (m.objects.push _).size
  rw [Array.size_push]
  exact Nat.lt_succ_self _

theorem setField (hm : m.WellShaped) (id : Nat) (x : String) {v : Value} (hv : v.Exists m) :
    Keeps Regardless (Run.setField id x v) m := ⟨.setField hm id x hv, trivial⟩

/-- A scope that binds one name to a value that is there. -/
theorem single_exists {x : String} {v : Value} (hv : v.Exists m) :
    ∀ y w, (Bindings.empty.set x v).get? y = some w → w.Exists m := by
  intro y w hw
  rw [Bindings.get?_set] at hw
  split at hw
  · obtain rfl := Option.some.inj hw
    exact hv
  · cases hw

theorem bindMethod (hm : m.WellShaped) {method : Closure} (hmethod : method.scope < m.heap.size)
    {object : Value} (hobject : object.Exists m) :
    Keeps (fun m' c => c.scope < m'.heap.size) (Run.bindMethod method object) m :=
  (newScope hm hmethod (single_exists hobject)).bind fun _ _ hm' hi => pure hm'.shape hi

end Keeps

/-! ### Values that are found -/

section

variable {m : Machine}

/-- What an access by distance gives is there. -/
theorem exists_of_getAt (hm : m.WellShaped) {i : Nat} {d : Int} {x : String} {v : Value}
    (h : m.heap.getAt i d x = .ok v) : v.Exists m := by
  unfold Heap.getAt at h
  cases hj : m.heap.ancestor i d with
  | error f => simp [hj, bind, Except.bind] at h
  | ok j =>
    simp only [hj, bind, Except.bind] at h
    cases hv : m.heap.get? j x with
    | none => simp [hv] at h
    | some w =>
      simp only [hv, Except.ok.injEq] at h
      exact h ▸ hm.values j x w hv

/-- What an access by search gives is there. -/
theorem exists_of_get (hm : m.WellShaped) {i : Nat} {name : Token} {v : Value}
    (h : m.heap.get i name = .ok v) : v.Exists m := by
  unfold Heap.get at h
  cases hj : m.heap.find i name with
  | error e => simp [hj, bind, Except.bind] at h
  | ok j =>
    simp only [hj, bind, Except.bind] at h
    cases hv : m.heap.get? j name.lexeme with
    | none => simp [hv] at h
    | some w =>
      simp only [hv, Except.ok.injEq] at h
      exact h ▸ hm.values j _ w hv

end

namespace Keeps

variable {α : Type} {Q : Machine → α → Prop} {m : Machine}

/-- Operators make no functions, classes or objects. -/
theorem applyUnary (hm : m.WellShaped) (operator : Token) (v : Value) :
    Keeps There (Run.ofOperator (Lox.applyUnary operator v)) m := by
  unfold Lox.applyUnary
  split
  · exact pure hm trivial
  · split
    · exact pure hm trivial
    · exact throw hm trivial
  · exact throw hm trivial

theorem onNumbers (hm : m.WellShaped) (operator : Token)
    {f : Number → Number → Except Interrupt Value}
    (hf : ∀ x y, Keeps There (Run.ofOperator (f x y)) m) (v w : Value) :
    Keeps There (Run.ofOperator (Lox.onNumbers operator f v w)) m := by
  unfold Lox.onNumbers
  split
  · exact hf _ _
  · exact throw hm trivial

theorem applyBinary (hm : m.WellShaped) (v : Value) (operator : Token) (w : Value) :
    Keeps There (Run.ofOperator (Lox.applyBinary v operator w)) m := by
  have hvalue : ∀ (g : Number → Number → Value), (∀ x y, (g x y).Exists m) →
      Keeps There (Run.ofOperator (Lox.onNumbers operator (fun x y => .ok (g x y)) v w)) m :=
    fun g hg =>
      onNumbers hm operator (f := fun x y => .ok (g x y)) (fun x y => pure hm (hg x y)) v w
  unfold Lox.applyBinary
  split
  · exact pure hm trivial
  · exact pure hm trivial
  · exact hvalue (fun x y => .bool (y.less x)) fun _ _ => trivial
  · exact hvalue (fun x y => .bool (y.atMost x)) fun _ _ => trivial
  · exact hvalue (fun x y => .bool (x.less y)) fun _ _ => trivial
  · exact hvalue (fun x y => .bool (x.atMost y)) fun _ _ => trivial
  · exact hvalue (fun x y => .number (x.sub y)) fun _ _ => trivial
  · exact hvalue (fun x y => .number (x.mul y)) fun _ _ => trivial
  · refine onNumbers hm operator (fun x y => ?_) v w
    split
    · exact throw hm trivial
    · exact pure hm trivial
  · split
    · exact pure hm trivial
    · exact pure hm trivial
    · exact throw hm trivial
  · exact throw hm trivial

theorem lookUp (hm : m.WellShaped) (ref : Reference) : Keeps There (lookUp ref) m := by
  refine inspect ?_
  cases m.distances[ref.id]? with
  | some d => exact ofDistance hm fun v hv => exists_of_getAt hm hv
  | none => exact ofSearch hm fun v hv => exists_of_get hm hv

theorem targetOf (hm : m.WellShaped) (ref : Reference) :
    Keeps Regardless (targetOf ref) m := by
  refine inspect ?_
  cases m.distances[ref.id]? with
  | some d => exact ofDistance hm fun _ _ => trivial
  | none => exact ofSearch hm fun _ _ => trivial

theorem getProperty (hm : m.WellShaped) {id : Nat} (hid : id < m.objects.size) (name : Token) :
    Keeps There (getProperty id name) m := by
  refine inspect ?_
  dsimp only
  cases hfield : (m.objects[id]?).bind (·.fields.get? name.lexeme) with
  | some v =>
    obtain ⟨object, ho, hv⟩ := Option.bind_eq_some_iff.1 hfield
    exact pure hm (hm.fields id object _ v ho hv)
  | none =>
    dsimp only
    cases hmethod : (m.objects[id]?).bind fun o => m.classes.findMethod o.cls name.lexeme with
    | some method =>
      obtain ⟨object, -, hfound⟩ := Option.bind_eq_some_iff.1 hmethod
      have hobject : (Value.object id).Exists m := hid
      exact (bindMethod hm (hm.findMethod hfound) hobject).bind fun c m' hm' hc =>
        newClosure hm'.shape hc
    | none => exact throw hm trivial

theorem superMethod (hm : m.WellShaped) (ref : Reference) (method : Token) :
    Keeps There (superMethod ref method) m := by
  refine inspect ?_
  cases m.distances[ref.id]? with
  | none => exact throw hm trivial
  | some d =>
    refine (ofDistance (Q := Regardless) hm fun _ _ => trivial).bind fun superclass m₁ hm₁ _ => ?_
    refine (ofDistance (Q := There) hm₁.shape fun v hv => ?_).bind fun object m₂ hm₂ hobject => ?_
    · exact (exists_of_getAt hm hv).mono hm₁.growth
    have hm' := hm₁.trans hm₂
    cases superclass with
    | cls id =>
      dsimp only
      cases hfound : m.classes.findMethod id method.lexeme with
      | some found =>
        have hscope := Nat.lt_of_lt_of_le (hm.findMethod hfound) hm'.growth.scopes.size_le
        exact (bindMethod hm'.shape hscope hobject).bind fun c m₃ hm₃ hc =>
          newClosure hm₃.shape hc
      | none => exact throw hm'.shape trivial
    | _ => exact throw hm'.shape trivial

/-- A class that a declaration comes upon is there. -/
theorem superclassOf (hm : m.WellShaped) (superclass : Option Reference) :
    Keeps (fun m' id? => ∀ id, id? = some id → (Value.cls id).Exists m')
      (superclassOf superclass) m := by
  cases superclass with
  | none => exact pure hm nofun
  | some ref =>
    refine (lookUp hm ref).bind fun v m' hm' hv => ?_
    cases v with
    | cls id =>
      refine pure hm'.shape fun id' heq => ?_
      obtain rfl := Option.some.inj heq
      exact hv
    | _ => exact throw hm'.shape trivial

theorem methodScope (hm : m.WellShaped) {superclass? : Option Nat}
    (hsuper : ∀ id, superclass? = some id → (Value.cls id).Exists m) :
    Keeps (fun m' i => i < m'.heap.size) (methodScope superclass?) m := by
  cases superclass? with
  | none => exact inspect (pure hm hm.current)
  | some id => exact inspect (newScope hm hm.current (single_exists (hsuper id rfl)))

theorem declareClass (hm : m.WellShaped) (name : Token) (superclass : Option Reference)
    (methods : List Routine) : Keeps Regardless (declareClass name superclass methods) m := by
  refine (superclassOf hm superclass).bind fun superclass? m₁ hm₁ hsuper => ?_
  refine (define hm₁.shape name.lexeme (v := .nil) trivial).bind fun _ m₂ hm₂ _ => ?_
  have hsuper₂ : ∀ id, superclass? = some id → (Value.cls id).Exists m₂ :=
    fun id hid => (hsuper id hid).mono hm₂.growth
  refine (methodScope hm₂.shape hsuper₂).bind fun scope m₃ hm₃ hscope => ?_
  have hmethods : ∀ x c, (methodTable scope methods).get? x = some c → c.scope < m₃.heap.size := by
    intro x c hc
    rw [(mem_of_get?_methodTable hc).2.2]
    exact hscope
  refine (newClass hm₃.shape hmethods).bind fun cls m₄ hm₄ hcls => inspect ?_
  exact (ofSearch (Q := Regardless) hm₄.shape fun _ _ => trivial).bind fun j m₅ hm₅ _ =>
    store hm₅.shape j name.lexeme (Value.Exists.mono hcls hm₅.growth)

/-- A native function that is honest gives a value that is there. -/
theorem callNative (hm : m.WellShaped) {f : Native} (hf : f.Honest) {arguments : List Value}
    (harguments : AllThere m arguments) : Keeps There (callNative f arguments) m := by
  refine inspect ?_
  cases haction : f.action with
  | clock => exact pure hm trivial
  | echo => exact pure hm trivial
  | fail message => exact throw hm trivial
  | compute g => exact ofSearch hm fun v hv => hf g haction m arguments v harguments hv

end Keeps

end Lox
