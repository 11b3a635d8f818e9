/-
**Machines whose methods mean the right objects.**

What a machine must look like for `this` and `super` to be right: every closure in its table was
made by a function declaration, at a place whose scopes are known, or is a method bound to an
object; and every class is as its founding has left it.  The steps of a program keep a machine that
way.  A class declaration adds a class, and a function declaration, an access to a property and an
access to a method of the superclass each add a closure; all other steps leave the tables alone.

Main definitions:

* `Lox.Classes.Nearest` — **the nearest definition of a method**, from a class on;
* `Lox.Reference.MeansObject`, `Lox.Reference.MeansSuperclass` — **what `this` and `super` should
  mean**;
* `Lox.Closure.Secure`, `Lox.Founding.Secure` — closures and classes that are as they should be;
* `Lox.Machine.Sane` — **machines that are as they should be**;
* `Lox.Preserves` — a step that keeps a machine so, however it ends.

Main results:

* `Lox.Classes.findMethod_eq_some_iff` — the search for a method finds the nearest definition;
* `Lox.bindMethod_secure` — a method that is found from the class of an object on, or from a class
  that this one descends from, is bound to the object;
* `Lox.this_means`, `Lox.super_means` — on a sane machine they mean it;
* `Lox.Preserves.getProperty`, `Lox.Preserves.superMethod`, `Lox.Preserves.declareClass` — **the
  steps that add closures and classes** keep a machine sane.
-/

import Lox.Proofs.Machine.Shape
import Lox.Proofs.Receiver.Basic

set_option relaxedAutoImplicit false
set_option autoImplicit false

namespace Lox

/-! ### The search for a method -/

namespace Classes

/-- The **nearest definition** of a method, from the class `i` on: the class `k` defines it, and no
class on the way does. -/
inductive Nearest (cs : Classes) (name : String) : Nat → Nat → Closure → Prop
  | own {i : Nat} {info : ClassInfo} {f : Closure} (hinfo : cs.entries[i]? = some info)
      (hf : info.methods.get? name = some f) : Nearest cs name i i f
  | inherited {i p k : Nat} {info : ClassInfo} {f : Closure} (hinfo : cs.entries[i]? = some info)
      (hnone : info.methods.get? name = none) (hp : info.superclass = some p)
      (h : Nearest cs name p k f) : Nearest cs name i k f

variable {cs : Classes} {name : String} {i : Nat} {f : Closure}

theorem nearest_of_findMethod (h : cs.findMethod i name = some f) :
    ∃ k, cs.Nearest name i k f := by
  induction i using Nat.strongRecOn with
  | ind i ih =>
    cases hinfo : cs.entries[i]? with
    | none => simp [findMethod, findMethodF, hinfo] at h
    | some info =>
      rw [findMethod_eq cs i name info hinfo] at h
      cases hown : info.methods.get? name with
      | some g =>
        rw [hown] at h
        exact ⟨i, .own hinfo (hown.trans h)⟩
      | none =>
        rw [hown, Option.none_or] at h
        obtain ⟨p, hp, h⟩ := Option.bind_eq_some_iff.1 h
        obtain ⟨k, hk⟩ := ih p (cs.ordered i info p hinfo hp) h
        exact ⟨k, .inherited hinfo hown hp hk⟩

theorem Nearest.findMethod_eq_some {k : Nat} (h : cs.Nearest name i k f) :
    cs.findMethod i name = some f := by
  induction h with
  | own hinfo hf => rw [findMethod_eq cs _ name _ hinfo, hf, Option.some_or]
  | inherited hinfo hnone hp _ ih =>
    rw [findMethod_eq cs _ name _ hinfo, hnone, Option.none_or, hp, Option.bind_some, ih]

/-- **The search for a method finds the nearest definition.** -/
theorem findMethod_eq_some_iff : cs.findMethod i name = some f ↔ ∃ k, cs.Nearest name i k f :=
  ⟨nearest_of_findMethod, fun ⟨_, h⟩ => h.findMethod_eq_some⟩

end Classes

/-- A list of plain names binds no other ones. -/
theorem Bindings.get?_ofList_eq_none {α : Type} {es : List (String × α)}
    (hes : ∀ e ∈ es, IsPlain e.1) {x : String} (hx : ¬ IsPlain x) : (ofList es).get? x = none := by
  cases hget : (ofList es).get? x with
  | none => rfl
  | some v => exact absurd (hes _ (mem_of_get?_ofList hget)) hx

namespace ParametersScoped

variable {L : Ledger} {Γ : Scopes} {params : List Token}

/-- Parameters are plain names. -/
theorem plainScope (h : ParametersScoped L Γ params) : PlainScope (parameterScope params) := by
  refine fun x hx => Bindings.get?_ofList_eq_none (fun e he => ?_) hx
  obtain ⟨y, hy, rfl⟩ := List.mem_map.1 he
  obtain ⟨p, hp, rfl⟩ := List.mem_map.1 hy
  exact h.plain p hp

/-- So the scope that a body runs in binds nothing but plain names. -/
theorem get?_eq_none (h : ParametersScoped L Γ params) (arguments : List Value) {x : String}
    (hx : ¬ IsPlain x) :
    (Bindings.ofList ((params.map (·.lexeme)).zip arguments)).get? x = none := by
  refine Bindings.get?_ofList_eq_none (fun e he => ?_) hx
  obtain ⟨p, hp, heq⟩ := List.mem_map.1 (List.of_mem_zip he).1
  exact heq ▸ h.plain p hp

end ParametersScoped

/-! ### What `this` and `super` should mean -/

/-- **What `this` should mean**, in the methods of a class declaration.  The reference stands in a
method of a class that an execution of the declaration has made; that method runs, bound to an
object, in a scope outside the scope in force; and one scope farther, which is the distance of the
reference, the object is found. -/
def Reference.MeansObject (E : Events) (m : Machine) (C : ClassDeclaration) (ref : Reference) :
    Prop :=
  ∃ d c x o, x.declaration = C ∧ Activation E m m.current d c x o ∧
    c.routine ∈ C.methods ∧ ref ∈ c.routine.selves ∧
    m.distances[ref.id]? = some (d + 1) ∧
    ∀ n room, eval (n + 1) room (.this ref) m = .ok (.object o) m

/-- **What `super` should mean**, in the methods of a class declaration.  As before, a method runs,
bound to an object.  At the distance of the reference is the class that the execution of the
declaration has come upon, and one scope closer the object.  The nearest definition of the method
that is asked for, from that class on, is bound to the object; if there is none, the property is
undefined. -/
def Reference.MeansSuperclass (E : Events) (m : Machine) (C : ClassDeclaration) (ref : Reference)
    (method : Token) : Prop :=
  ∃ d c x o p, x.declaration = C ∧ Activation E m m.current d c x o ∧
    c.routine ∈ C.methods ∧ ref ∈ c.routine.selves ∧
    m.distances[ref.id]? = some (d + 2) ∧ x.superclass = some p ∧
    m.heap.getAt m.current (d + 2 : Nat) superName = .ok (.cls p) ∧
    m.heap.getAt m.current (d + 1 : Nat) thisName = .ok (.object o) ∧
    (∀ k f, m.classes.Nearest method.lexeme p k f → ∀ n room,
      eval (n + 1) room (.super ref method) m =
        (do Run.newClosure (← Run.bindMethod f (.object o)) : Run Value) m) ∧
    ((∀ k f, ¬ m.classes.Nearest method.lexeme p k f) → ∀ n room,
      eval (n + 1) room (.super ref method) m =
        .error (.at method (.undefinedProperty method.lexeme)) m)

theorem Bound.mem_methods {E : Events} {m : Machine} {c : Closure} {x : Founding} {o : Nat}
    (h : Bound E m c x o) : c.routine ∈ x.declaration.methods :=
  (mem_of_get?_methodTable h.owned).1

/-- The declaration of the class owns the references of the method. -/
theorem Bound.owns {E : Events} {m : Machine} {c : Closure} {x : Founding} {o : Nat}
    (h : Bound E m c x o) {ref : Reference} (href : ref ∈ c.routine.selves) :
    (ref, x.declaration) ∈ E.owners :=
  h.recorded.stated (ClassDeclaration.mem_owners h.mem_methods href)

/-! ### Sane machines -/

/-- A closure that a function declaration has made. -/
def Closure.Declared (E : Events) (c : Closure) : Prop :=
  ∃ n room m, E.happens (.statement (n + 1) room (.function c.routine)) m ∧
    c = ⟨c.routine, m.current, false⟩

/-- A closure whose scope **binds no object**. -/
def Closure.Unbound (m : Machine) (c : Closure) : Prop :=
  c.scope = Machine.globalScope ∨ m.heap.get? c.scope thisName = none

/-- A closure **as it should be**: made by a function declaration, or a bound method. -/
inductive Closure.Secure (E : Events) (L : Ledger) (m : Machine) (c : Closure) : Prop
  | function {Γ : Scopes} (hdeclared : c.Declared E) (hlies : Lies E m Γ c.routine.selves c.scope)
      (hscoped : c.routine.Scoped L Γ) (howners : c.routine.owners ⊆ E.owners) : Secure E L m c
  | method {x : Founding} {o : Nat} {Γ : Scopes} (hbound : Bound E m c x o)
      (hlies : Lies E m Γ [] x.outer) (hscoped : c.routine.Scoped L (x.declaration.around Γ)) :
      Secure E L m c

/-- A class **as it should be**: as its founding has left it, with methods that are scoped. -/
structure Founding.Secure (E : Events) (L : Ledger) (m : Machine) (x : Founding) : Prop where
  recorded : x.Recorded E m
  place : ∃ Γ, Lies E m Γ [] x.outer ∧
    methodsScoped L (x.declaration.around Γ) x.declaration.methods

/-- A machine **as it should be**. -/
structure Machine.Sane (E : Events) (L : Ledger) (m : Machine) : Prop where
  distances : m.distances = L.distances
  nonempty : 0 < m.heap.size
  closures : ∀ (id : Nat) (c : Closure), m.closures[id]? = some c → c.Secure E L m
  classes : ∀ k, k < m.classes.entries.size → ∃ x : Founding, x.cls = k ∧ x.Secure E L m

section

variable {E : Events} {L : Ledger} {m m' m'' : Machine} {x : Founding} {c : Closure}

theorem Closure.Secure.mono (h : c.Secure E L m) (hg : m.Grows m') : c.Secure E L m' := by
  cases h with
  | function hdeclared hlies hscoped howners =>
    exact .function hdeclared (hlies.mono hg) hscoped howners
  | method hbound hlies hscoped => exact .method (hbound.mono hg) (hlies.mono hg) hscoped

theorem Founding.Secure.mono (h : x.Secure E L m) (hg : m.Grows m') : x.Secure E L m' := by
  obtain ⟨Γ, hlies, hmethods⟩ := h.place
  exact ⟨h.recorded.mono hg, Γ, hlies.mono hg, hmethods⟩

/-- A closure was made by a function declaration and binds no object, or is a bound method. -/
theorem Closure.Secure.origin (h : c.Secure E L m) :
    c.Declared E ∧ c.Unbound m ∨ ∃ x o, Bound E m c x o := by
  cases h with
  | function hdeclared hlies _ _ => exact .inl ⟨hdeclared, hlies.unbound⟩
  | @method x o _ hbound _ _ => exact .inr ⟨x, o, hbound⟩

/-- The body of a closure stands in one of the texts. -/
theorem Closure.Secure.owners_subset (h : c.Secure E L m) : c.routine.owners ⊆ E.owners := by
  cases h with
  | function _ _ _ howners => exact howners
  | method hbound _ _ =>
    have hsub := ClassDeclaration.owners_subset hbound.mem_methods
    exact fun _ hw => hbound.recorded.stated (hsub hw)

/-- The scope of a closure exists. -/
theorem Closure.Secure.scope_lt (h : c.Secure E L m) (hm : 0 < m.heap.size) :
    c.scope < m.heap.size := by
  cases h with
  | function _ hlies _ _ => exact hlies.lt_size hm
  | method hbound _ _ => exact Heap.lt_size_of_enclosing? hbound.inside

/-- The scope of the methods of a class exists. -/
theorem Founding.Secure.scope_lt (h : x.Secure E L m) (hm : 0 < m.heap.size) :
    x.scope < m.heap.size := by
  cases hsup : x.superclass with
  | some p => exact Heap.lt_size_of_enclosing? (h.recorded.inherits p hsup).1
  | none =>
    obtain ⟨_, _, m₀, -, -, heq⟩ := h.recorded.happened
    have hscope : x.scope = x.outer := by
      rw [heq, hsup]
      rfl
    obtain ⟨Γ, hlies, -⟩ := h.place
    rw [hscope]
    exact hlies.lt_size hm

namespace Machine.Sane

/-- A machine that grows without new closures and classes. -/
theorem grow (h : m.Sane E L) (hg : m.Grows m') (hd : m'.distances = m.distances)
    (hclosures : m'.closures = m.closures) (hclasses : m'.classes = m.classes) : m'.Sane E L where
  distances := hd.trans h.distances
  nonempty := Nat.lt_of_lt_of_le h.nonempty hg.scopes.size_le
  closures := fun id c hc => (h.closures id c (hclosures ▸ hc)).mono hg
  classes := by
    intro k hk
    obtain ⟨x, hx, hsecure⟩ := h.classes k (hclasses ▸ hk)
    exact ⟨x, hx, hsecure.mono hg⟩

theorem atScope (h : m.Sane E L) (i : Nat) : Sane E L { m with current := i } :=
  h.grow (.of_eq rfl rfl rfl) rfl rfl rfl

/-- Where the nearest definition of a method is found, a class owns it. -/
theorem nearest (h : m.Sane E L) {name : String} {i k : Nat} {f : Closure}
    (hf : m.classes.Nearest name i k f) :
    ∃ x : Founding, x.Secure E L m ∧ x.cls = k ∧ Descends E m i k ∧
      (methodTable x.scope x.declaration.methods).get? name = some f := by
  induction hf with
  | own hinfo hf =>
    obtain ⟨x, hx, hsecure⟩ := h.classes _ (Array.getElem?_eq_some_iff.1 hinfo).1
    have hentry := hsecure.recorded.entry
    rw [hx, hinfo] at hentry
    obtain rfl := Option.some.inj hentry
    exact ⟨x, hsecure, hx, .self _, hf⟩
  | inherited hinfo _ hp _ ih =>
    obtain ⟨x, hsecure, hx, hdescends, hf⟩ := ih
    obtain ⟨y, rfl, hsecure'⟩ := h.classes _ (Array.getElem?_eq_some_iff.1 hinfo).1
    have hentry := hsecure'.recorded.entry
    rw [hinfo] at hentry
    obtain rfl := Option.some.inj hentry
    have hp' : y.superclass = some _ := (Option.filter_eq_some_iff.1 hp).1
    exact ⟨x, hsecure, hx, .inherits hsecure'.recorded hp' hdescends, hf⟩

end Machine.Sane

/-! ### Steps that keep a machine sane -/

/-- One machine has **come out of** another, sane and with the same scope in force. -/
structure Preserved (E : Events) (L : Ledger) (m m' : Machine) : Prop where
  sane : m'.Sane E L
  grows : m.Grows m'
  current : m'.current = m.current

namespace Preserved

theorem refl (h : m.Sane E L) : Preserved E L m m := ⟨h, .refl m, rfl⟩

theorem trans (h : Preserved E L m m') (h' : Preserved E L m' m'') : Preserved E L m m'' :=
  ⟨h'.sane, h.grows.trans h'.grows, h'.current.trans h.current⟩

end Preserved

/-- A step **keeps a machine sane**, with a result or without one. -/
def Preserves {α : Type} (E : Events) (L : Ledger) (step : Run α) (m : Machine) : Prop :=
  Preserved E L m (Run.after step m)

namespace Preserves

variable {α β : Type} {step : Run α}

theorem pure (h : m.Sane E L) (a : α) : Preserves E L (Pure.pure a) m := .refl h

theorem throw (h : m.Sane E L) (i : Interrupt) :
    Preserves E L (MonadExcept.throw i : Run α) m := .refl h

theorem of_ok (h : Preserves E L step m) {a : α} (ha : step m = .ok a m') :
    Preserved E L m m' := by
  unfold Preserves Run.after at h
  rw [ha] at h
  exact h

theorem bind {next : α → Run β} (h : Preserves E L step m)
    (hnext : ∀ a m', step m = .ok a m' → Preserved E L m m' → Preserves E L (next a) m') :
    Preserves E L (step >>= next) m := by
  change Preserved E L m (Run.after (EStateM.bind step next) m)
  unfold Run.after EStateM.bind
  cases hstep : step m with
  | ok a m' =>
    have hm' := h.of_ok hstep
    exact hm'.trans (hnext a m' hstep hm')
  | error i m' =>
    unfold Preserves Run.after at h
    rw [hstep] at h
    exact h

/-- The machine at hand may be inspected. -/
theorem inspect {next : Machine → Run α} (h : Preserves E L (next m) m) :
    Preserves E L (get >>= next) m := h

/-- A step inside another scope. -/
theorem within {scope : Nat} (h : Preserves E L step { m with current := scope }) :
    Preserves E L (Run.within scope step) m := by
  have hback : ∀ m' : Machine, Preserved E L { m with current := scope } m' →
      Preserved E L m { m' with current := m.current } := by
    intro m' hm'
    have hscope : m.Grows { m with current := scope } := (Machine.Grows.refl m).atScope scope
    exact ⟨hm'.sane.atScope m.current, (hscope.trans hm'.grows).atScope m.current, rfl⟩
  unfold Preserves Run.after at h
  unfold Preserves Run.after Run.within
  dsimp only
  cases hstep : step { m with current := scope } with
  | ok a m' =>
    rw [hstep] at h
    exact hback m' h
  | error i m' =>
    rw [hstep] at h
    exact hback m' h

theorem catchReturn {step : Run Unit} (h : Preserves E L step m) :
    Preserves E L (Run.catchReturn step) m := by
  unfold Preserves Run.after at h
  unfold Preserves Run.after Run.catchReturn
  cases hstep : step m with
  | ok a m' =>
    rw [hstep] at h
    exact h
  | error i m' =>
    rw [hstep] at h
    cases i <;> exact h

/-! ### Single steps -/

theorem ofOperator (h : m.Sane E L) (r : Except Interrupt α) :
    Preserves E L (Run.ofOperator r) m := by
  cases r <;> exact .refl h

theorem ofSearch (h : m.Sane E L) (r : Except RuntimeError α) :
    Preserves E L (Run.ofSearch r) m := by
  cases r <;> exact .refl h

theorem ofDistance (h : m.Sane E L) (r : Except Fault α) : Preserves E L (Run.ofDistance r) m := by
  cases r <;> exact .refl h

theorem print (h : m.Sane E L) (line : String) : Preserves E L (Run.print line) m :=
  have hg : m.Grows (Run.after (Run.print line) m) := .of_eq rfl rfl rfl
  ⟨h.grow hg rfl rfl rfl, hg, rfl⟩

theorem newScope (h : m.Sane E L) (enclosing : Nat) (bindings : Bindings Value) :
    Preserves E L (Run.newScope enclosing bindings) m :=
  have hg := Machine.Grows.push m (some enclosing) bindings
  ⟨h.grow hg rfl rfl rfl, hg, rfl⟩

/-- A plain name is given a value. -/
theorem store (h : m.Sane E L) (scope : Nat) {name : String} (hname : IsPlain name)
    (value : Value) : Preserves E L (Run.store scope name value) m :=
  have hg := Machine.Grows.define m value (i := scope) (.inr hname)
  ⟨h.grow hg rfl rfl rfl, hg, rfl⟩

theorem define (h : m.Sane E L) {name : String} (hname : IsPlain name) (value : Value) :
    Preserves E L (Run.define name value) m :=
  inspect (store h m.current hname value)

theorem newObject (h : m.Sane E L) (cls : Nat) : Preserves E L (Run.newObject cls) m := by
  have hg : m.Grows (Run.after (Run.newObject cls) m) := by
    refine { Machine.Grows.refl m with objects := fun o object ho => ⟨object, ?_, rfl⟩ }
    change (m.objects.push _)[o]? = _
    rw [Array.getElem?_push, if_neg (Nat.ne_of_lt (Array.getElem?_eq_some_iff.1 ho).1), ho]
  exact ⟨h.grow hg rfl rfl rfl, hg, rfl⟩

theorem setField (h : m.Sane E L) (id : Nat) (name : String) (value : Value) :
    Preserves E L (Run.setField id name value) m := by
  have hg : m.Grows (Run.after (Run.setField id name value) m) := by
    refine { Machine.Grows.refl m with objects := fun o object ho => ?_ }
    change ∃ object', (m.objects.modify id _)[o]? = _ ∧ _
    rw [Array.getElem?_modify, ho]
    split
    · exact ⟨_, rfl, rfl⟩
    · exact ⟨object, rfl, rfl⟩
  exact ⟨h.grow hg rfl rfl rfl, hg, rfl⟩

theorem newClosure (h : m.Sane E L) (hc : c.Secure E L m) : Preserves E L (Run.newClosure c) m := by
  have hg : m.Grows (Run.after (Run.newClosure c) m) := .of_eq rfl rfl rfl
  refine ⟨⟨h.distances, h.nonempty, fun id c' hc' => ?_, fun k hk => ?_⟩, hg, rfl⟩
  · change (m.closures.push c)[id]? = some c' at hc'
    rw [Array.getElem?_push] at hc'
    split at hc'
    · obtain rfl := Option.some.inj hc'
      exact hc.mono hg
    · exact (h.closures id c' hc').mono hg
  · obtain ⟨x, hx, hsecure⟩ := h.classes k hk
    exact ⟨x, hx, hsecure.mono hg⟩

theorem lookUp (h : m.Sane E L) (ref : Reference) : Preserves E L (lookUp ref) m := by
  refine inspect ?_
  cases m.distances[ref.id]? with
  | some d => exact .ofDistance h _
  | none => exact .ofSearch h _

theorem targetOf (h : m.Sane E L) (ref : Reference) : Preserves E L (targetOf ref) m := by
  refine inspect ?_
  cases m.distances[ref.id]? with
  | some d => exact .ofDistance h _
  | none => exact .ofSearch h _

theorem callNative (h : m.Sane E L) (f : Native) (arguments : List Value) :
    Preserves E L (callNative f arguments) m := by
  refine inspect ?_
  cases f.action with
  | clock => exact .pure h _
  | echo => exact .pure h _
  | fail message => exact .throw h _
  | compute g => exact .ofSearch h _

end Preserves

/-! ### Methods -/

/-- A method that is found from a class on **is bound to an object** whose class descends from that
one. -/
theorem bindMethod_secure (h : m.Sane E L) {name : String} {k o : Nat} {f : Closure}
    {object : ObjectInfo} (hf : m.classes.findMethod k name = some f)
    (ho : m.objects[o]? = some object) (hd : Descends E m object.cls k)
    (hc : Run.bindMethod f (.object o) m = .ok c m') :
    Preserved E L m m' ∧ c.Secure E L m' := by
  obtain ⟨k', hnearest⟩ := Classes.findMethod_eq_some_iff.1 hf
  obtain ⟨x, hsecure, rfl, hdescends, howned⟩ := h.nearest hnearest
  obtain ⟨hmem, hname, hscope⟩ := mem_of_get?_methodTable howned
  obtain ⟨rfl, rfl⟩ := EStateM.Result.ok.inj hc
  have hpreserved : Preserved E L m _ :=
    Preserves.newScope h f.scope (Bindings.empty.set thisName (.object o))
  have hg := hpreserved.grows
  obtain ⟨Γ, hlies, hmethods⟩ := hsecure.place
  refine ⟨hpreserved, .method (x := x) (o := o) ?_ (hlies.mono hg) ?_⟩
  · refine ⟨hsecure.recorded.mono hg, ?_, ?_, ?_, object, ho, (hd.trans hdescends).mono hg⟩
    · rw [hname, howned, ← hscope]
    · rw [← hscope]
      exact Heap.enclosing?_push_self _ _ (hscope ▸ hsecure.scope_lt h.nonempty)
    · exact Heap.get?_push_set ..
  · exact (methodsScoped_iff ..).1 hmethods _ hmem

/-- The initializer of a class is bound to a new object. -/
theorem newObject_secure (h : m.Sane E L) {id : Nat} {name : String} {f c : Closure}
    {object : Value} {m₁ m₂ : Machine} (hf : m.classes.findMethod id name = some f)
    (hobject : Run.newObject id m = .ok object m₁)
    (hc : Run.bindMethod f object m₁ = .ok c m₂) : m₂.Sane E L ∧ c.Secure E L m₂ := by
  have hm₁ := (Preserves.newObject h id).of_ok hobject
  obtain ⟨rfl, rfl⟩ := EStateM.Result.ok.inj hobject
  have hnew : (m.objects.push ⟨id, .empty⟩)[m.objects.size]? = some ⟨id, .empty⟩ := by simp
  obtain ⟨hm₂, hsecure⟩ := bindMethod_secure hm₁.sane hf hnew (.self id) hc
  exact ⟨hm₂.sane, hsecure⟩

namespace Preserves

theorem bindMethod (h : m.Sane E L) (f : Closure) (object : Value) :
    Preserves E L (Run.bindMethod f object) m :=
  (newScope h f.scope _).bind fun _ _ _ hm' => .pure hm'.sane _

/-- A method that is bound to an object becomes a value. -/
theorem boundMethod (h : m.Sane E L) {name : String} {k o : Nat} {f : Closure}
    {object : ObjectInfo} (hf : m.classes.findMethod k name = some f)
    (ho : m.objects[o]? = some object) (hd : Descends E m object.cls k) :
    Preserves E L (do Run.newClosure (← Run.bindMethod f (.object o))) m := by
  refine (bindMethod h f (.object o)).bind fun c m' hc _ => ?_
  obtain ⟨hm', hsecure⟩ := bindMethod_secure h hf ho hd hc
  exact .newClosure hm'.sane hsecure

theorem getProperty (h : m.Sane E L) (id : Nat) (name : Token) :
    Preserves E L (getProperty id name) m := by
  refine inspect ?_
  dsimp only
  cases (m.objects[id]?).bind (·.fields.get? name.lexeme) with
  | some v => exact .pure h v
  | none =>
    cases hf : (m.objects[id]?).bind fun o => m.classes.findMethod o.cls name.lexeme with
    | some f =>
      obtain ⟨object, ho, hf⟩ := Option.bind_eq_some_iff.1 hf
      exact boundMethod h hf ho (.self _)
    | none => exact .throw h _

end Preserves

section

variable {d o p : Nat} {ref : Reference} {method : Token}

/-- Where a method runs, `super` gives the method that the search from the superclass finds, **bound
to the object of the running method**. -/
theorem superMethod_eq (h : Activation E m m.current d c x o) (hsup : x.superclass = some p)
    (hd : m.distances[ref.id]? = some (d + 2)) {f : Closure}
    (hf : m.classes.findMethod p method.lexeme = some f) :
    superMethod ref method m =
      (do Run.newClosure (← Run.bindMethod f (.object o)) : Run Value) m := by
  have hcloser : ((d + 2 : Nat) : Int) - 1 = ((d + 1 : Nat) : Int) := by omega
  unfold superMethod
  rw [get_bind, hd]
  simp only [hcloser, h.getAt_super hsup, h.getAt_this, Run.ofDistance, pure_bind, hf]

/-- If the search finds none, the property is undefined. -/
theorem superMethod_eq_error (h : Activation E m m.current d c x o) (hsup : x.superclass = some p)
    (hd : m.distances[ref.id]? = some (d + 2))
    (hf : m.classes.findMethod p method.lexeme = none) :
    superMethod ref method m = .error (.at method (.undefinedProperty method.lexeme)) m := by
  have hcloser : ((d + 2 : Nat) : Int) - 1 = ((d + 1 : Nat) : Int) := by omega
  unfold superMethod
  rw [get_bind, hd]
  simp only [hcloser, h.getAt_super hsup, h.getAt_this, Run.ofDistance, pure_bind, hf]
  rfl

/-- An access to a method of the superclass adds a bound method. -/
theorem Preserves.superMethod (h : m.Sane E L) (hact : Activation E m m.current d c x o)
    (hsup : x.superclass = some p) (hd : m.distances[ref.id]? = some (d + 2)) (method : Token) :
    Preserves E L (superMethod ref method) m := by
  unfold Preserves Run.after
  cases hf : m.classes.findMethod p method.lexeme with
  | none =>
    rw [superMethod_eq_error hact hsup hd hf]
    exact .refl h
  | some f =>
    obtain ⟨object, ho, hdescends⟩ := hact.bound.receiver
    -- The superclass is an ancestor of the class of the object, as is the class of the method.
    have hdescends' := hdescends.trans (.inherits hact.bound.recorded hsup (.self p))
    rw [superMethod_eq hact hsup hd hf]
    exact Preserves.boundMethod h hf ho hdescends'

variable {Γ : Scopes} {refs : List Reference}

/-- The object is found at the distance of `this`, one scope outside the run of the method. -/
theorem this_means (h : m.Sane E L) (hlies : Lies E m Γ refs m.current) (hr : ref.ThisScoped L Γ)
    (href : ref ∈ refs) : ∃ C, (ref, C) ∈ E.owners ∧ ref.MeansObject E m C := by
  obtain ⟨hname, k, ⟨-, hk⟩, hthis⟩ := hr
  obtain ⟨d, c, x, o, rfl, hact, hrefs, -⟩ := hlies.activation hthis
  rw [← h.distances] at hk
  refine ⟨x.declaration, hact.bound.owns (hrefs href), d, c, x, o, rfl, hact,
    hact.bound.mem_methods, hrefs href, hk, fun n room => ?_⟩
  rw [eval, lookUp_eq, hk]
  simp only [hname, hact.getAt_this]
  rfl

/-- The superclass is to be found at the distance of `super`, two scopes outside the run of the
method. -/
theorem super_activation (h : m.Sane E L) (hlies : Lies E m Γ refs m.current)
    (hr : ref.SuperScoped L Γ) (href : ref ∈ refs) :
    ∃ d c x o p, Activation E m m.current d c x o ∧ ref ∈ c.routine.selves ∧
      m.distances[ref.id]? = some (d + 2) ∧ x.superclass = some p := by
  obtain ⟨-, k, ⟨-, hk⟩, hsuper, hthis⟩ := hr
  obtain ⟨d, c, x, o, rfl, hact, hrefs, hinherits⟩ := hlies.activation hthis
  obtain ⟨p, hp⟩ := hinherits _ hsuper
  rw [← h.distances] at hk
  exact ⟨d, c, x, o, p, hact, hrefs href, hk, hp⟩

theorem super_means (h : m.Sane E L) (hlies : Lies E m Γ refs m.current)
    (hr : ref.SuperScoped L Γ) (href : ref ∈ refs) (method : Token) :
    ∃ C, (ref, C) ∈ E.owners ∧ ref.MeansSuperclass E m C method := by
  obtain ⟨d, c, x, o, p, hact, hself, hd, hsup⟩ := super_activation h hlies hr href
  refine ⟨x.declaration, hact.bound.owns hself, d, c, x, o, p, rfl, hact,
    hact.bound.mem_methods, hself, hd, hsup, hact.getAt_super hsup, hact.getAt_this,
    fun k f hf n room => ?_, fun hnone n room => ?_⟩
  · rw [eval]
    exact superMethod_eq hact hsup hd hf.findMethod_eq_some
  · rw [eval]
    refine superMethod_eq_error hact hsup hd ?_
    cases hf : m.classes.findMethod p method.lexeme with
    | none => rfl
    | some f =>
      obtain ⟨k, hk⟩ := Classes.findMethod_eq_some_iff.1 hf
      exact absurd hk (hnone k f)

end

/-! ### Class declarations -/

namespace Preserves

/-- A class is made, as its founding says. -/
theorem newClass (h : m.Sane E L) (hx : x.Happened E)
    (hstated : x.declaration.stmt.owners ⊆ E.owners) (hcls : x.cls = m.classes.entries.size)
    (hinherits : ∀ p, x.superclass = some p →
      m.heap.enclosing? x.scope = some x.outer ∧ m.heap.get? x.scope superName = some (.cls p))
    {Γ : Scopes} (hlies : Lies E m Γ [] x.outer)
    (hmethods : methodsScoped L (x.declaration.around Γ) x.declaration.methods) :
    Preserves E L (Run.newClass ⟨x.declaration.name.lexeme, x.superclass,
      methodTable x.scope x.declaration.methods⟩) m := by
  let info : ClassInfo :=
    ⟨x.declaration.name.lexeme, x.superclass, methodTable x.scope x.declaration.methods⟩
  let m' : Machine := { m with classes := m.classes.push info }
  have hentry : ∀ k : Nat, m'.classes.entries[k]? =
      if k = x.cls then some { info with superclass := x.superclass.filter (· < x.cls) }
      else m.classes.entries[k]? := by
    intro k
    rw [hcls]
    exact Array.getElem?_push ..
  have hg : m.Grows m' := by
    refine { Machine.Grows.refl m with classes := fun k info' hk => ?_ }
    rw [hentry, if_neg, hk]
    exact hcls ▸ Nat.ne_of_lt (Array.getElem?_eq_some_iff.1 hk).1
  have hsecure : x.Secure E L m' :=
    ⟨⟨hx, hstated, by rw [hentry, if_pos rfl], hinherits⟩, Γ, hlies.mono hg, hmethods⟩
  refine ⟨⟨h.distances, h.nonempty, fun id c hc => (h.closures id c hc).mono hg, fun k hk => ?_⟩,
    hg, rfl⟩
  by_cases hk' : k = x.cls
  · exact ⟨x, hk'.symm, hsecure⟩
  · have hlt : k < m.classes.entries.size := by
      have hsize : k < (m.classes.entries.push _).size := hk
      rw [Array.size_push] at hsize
      omega
    obtain ⟨y, hy, hsecure'⟩ := h.classes k hlt
    exact ⟨y, hy, hsecure'.mono hg⟩

theorem superclassOf (h : m.Sane E L) (superclass : Option Reference) :
    Preserves E L (superclassOf superclass) m := by
  cases superclass with
  | none => exact .pure h none
  | some ref =>
    refine (lookUp h ref).bind fun v m' _ hm' => ?_
    cases v with
    | cls id => exact .pure hm'.sane _
    | _ => exact .throw hm'.sane _

theorem methodScope (h : m.Sane E L) (superclass? : Option Nat) :
    Preserves E L (methodScope superclass?) m := by
  cases superclass? with
  | none => exact inspect (.pure h _)
  | some id => exact inspect (.newScope h _ _)

end Preserves

theorem eq_of_lookUp_ok {ref : Reference} {v : Value} (h : lookUp ref m = .ok v m') : m' = m := by
  rw [lookUp_eq] at h
  cases hd : m.distances[ref.id]? with
  | some d =>
    rw [hd] at h
    dsimp only at h
    generalize m.heap.getAt m.current d ref.name.lexeme = r at h
    cases r <;> cases h
    rfl
  | none =>
    rw [hd] at h
    dsimp only at h
    generalize m.heap.get Machine.globalScope ref.name = r at h
    cases r <;> cases h
    rfl

/-- The evaluation of a superclass leaves the machine as it is. -/
theorem eq_of_superclassOf_ok {superclass : Option Reference} {superclass? : Option Nat}
    (h : superclassOf superclass m = .ok superclass? m') : m' = m := by
  cases superclass with
  | none => exact (EStateM.Result.ok.inj h).2.symm
  | some ref =>
    obtain ⟨id, -, hok⟩ := superclassOf_some_ok h
    exact eq_of_lookUp_ok hok

/-- The scope of the methods is the scope in force, or a new one inside it that binds `super`. -/
theorem methodScope_ok {superclass? : Option Nat} {scope : Nat}
    (h : methodScope superclass? m = .ok scope m') (hcurrent : m.current < m.heap.size) :
    scope = superclass?.elim m.current (fun _ => m.heap.size) ∧ m'.classes = m.classes ∧
      ∀ p, superclass? = some p → m'.heap.enclosing? scope = some m.current ∧
        m'.heap.get? scope superName = some (.cls p) := by
  cases superclass? with
  | none =>
    obtain ⟨rfl, rfl⟩ := EStateM.Result.ok.inj h
    exact ⟨rfl, rfl, nofun⟩
  | some id =>
    obtain ⟨rfl, rfl⟩ := EStateM.Result.ok.inj h
    refine ⟨rfl, rfl, fun p hp => ⟨Heap.enclosing?_push_self _ _ hcurrent, ?_⟩⟩
    obtain rfl := Option.some.inj hp
    exact Heap.get?_push_set ..

namespace Preserves

/-- A **class declaration** adds a class as its founding says. -/
theorem declareClass (h : m.Sane E L) {n room : Nat} {C : ClassDeclaration} {Γ : Scopes}
    {refs : List Reference} {inBody : Bool} (hstmt : E.happens (.statement (n + 1) room C.stmt) m)
    (hlies : Lies E m Γ refs m.current) (hscoped : C.stmt.Scoped L inBody Γ)
    (hstated : C.stmt.owners ⊆ E.owners) :
    Preserves E L (declareClass C.name C.superclass C.methods) m := by
  obtain ⟨hname, hmethods⟩ := ClassDeclaration.scoped_stmt hscoped
  refine (superclassOf h C.superclass).bind fun superclass? m₁ hsup hm₁ => ?_
  obtain rfl := eq_of_superclassOf_ok hsup
  let x : Founding := .on m₁ C superclass?
  have hx : x.Happened E := ⟨n, room, m₁, hstmt, hsup, rfl⟩
  refine (define h hname .nil).bind fun _ m₂ hdefine hm₂ => ?_
  obtain ⟨-, rfl⟩ := EStateM.Result.ok.inj hdefine
  refine (methodScope hm₂.sane superclass?).bind fun scope m₃ hscope hm₃ => ?_
  have hplace := (hlies.mark hname .defined).part (List.nil_subset _)
  have hlies₃ := hplace.mono (hm₂.grows.trans hm₃.grows)
  have hcurrent := Nat.lt_of_lt_of_le (hlies.lt_size h.nonempty) hm₂.grows.scopes.size_le
  obtain ⟨hmade, hclasses, hinherits⟩ := methodScope_ok hscope hcurrent
  -- The new name leaves the number of scopes as it is: the scope of the methods is the next one.
  obtain rfl : scope = x.scope := by
    rw [hmade]
    exact congrArg _ (funext fun _ => Heap.size_define ..)
  have hcls : x.cls = m₃.classes.entries.size := by rw [hclasses]; rfl
  refine (newClass hm₃.sane hx hstated hcls hinherits hlies₃ hmethods).bind fun cls m₄ _ hm₄ => ?_
  exact inspect ((ofSearch hm₄.sane _).bind fun j m₅ _ hm₅ => store hm₅.sane j hname cls)

end Preserves

end

end Lox
