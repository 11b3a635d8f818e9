/-
**The objects that methods are bound to.**

Every class is made by an execution of its declaration, its *founding*.  A bound method is a closure
whose scope binds `this` to an object, inside the scope that the methods of the class were declared
in; if the class inherits, that one is a scope which binds `super` to the class that the founding
came upon.  The body of a method runs in a scope of its own, and whatever is nested in it, be it run
at once or later, lies inside that scope.

What has happened in the course of a session is given as a set of *events*: activities with the
machines they started on.

Main definitions:

* `Lox.Events` — what has happened;
* `Lox.Founding`, `Lox.Founding.Recorded` — an execution of a class declaration, and the class that
  it has left on a machine;
* `Lox.Descends` — a class is another one or inherits from it;
* `Lox.Bound` — **a method of a class that is bound to an object**;
* `Lox.Activation` — the run of a bound method that a place belongs to;
* `Lox.Lies` — the scopes of a text and the scopes of a machine that a place lies inside;
* `Lox.Machine.Grows` — one machine has grown out of another.

Main results:

* `Lox.Bound.mono`, `Lox.Lies.mono` — what a method is bound to is settled once and for all;
* `Lox.Lies.activation` — **the nearest `this` belongs to the run of a bound method**;
* `Lox.Activation.getAt_this`, `Lox.Activation.getAt_super` — what is found at the distances.
-/

import Lox.Proofs.Lexical.Steps
import Lox.Proofs.Machine.Activity
import Lox.Proofs.Receiver.Selves

set_option relaxedAutoImplicit false
set_option autoImplicit false

namespace Lox

/-! ### Events -/

/-- The statements that an activity is to execute. -/
def Activity.text : Activity → List Stmt
  | .statements _ _ ss => ss
  | _ => []

/-- What has **happened**: activities with the machines they started on, and with them all that
these have started; and the texts whose programs were run, as one. -/
structure Events where
  texts : List Stmt
  happens : Activity → Machine → Prop
  start : ∀ {a b : Activity} {m m' : Machine},
    happens a m → (b, m') ∈ a.starts m → happens b m'

namespace Events

/-- The references to objects and superclasses in the texts, each with the class declaration that it
stands in. -/
def owners (E : Events) : List (Reference × ClassDeclaration) := ownersOfBody E.texts

/-- All that the given activities come to. -/
def of (roots : List (Activity × Machine)) : Events where
  texts := roots.flatMap fun root => root.1.text
  happens a m := ∃ root ∈ roots, Reaches root.1 root.2 a m
  start := by
    rintro a b m m' ⟨root, hroot, hreach⟩ hb
    exact ⟨root, hroot, hreach.start hb⟩

/-- An activity has happened, and what it executes is among the texts. -/
structure Covers (E : Events) (root : Activity × Machine) : Prop where
  happens : E.happens root.1 root.2
  stated : ownersOfBody root.1.text ⊆ E.owners

theorem of_covers {roots : List (Activity × Machine)} {root : Activity × Machine}
    (hroot : root ∈ roots) : (Events.of roots).Covers root := by
  refine ⟨⟨root, hroot, .self⟩, ?_⟩
  change _ ⊆ ownersOfBody (roots.flatMap fun root => root.1.text)
  induction hroot with
  | head roots =>
    rw [List.flatMap_cons, ownersOfBody_append]
    exact List.subset_append_left ..
  | tail root _ ih =>
    rw [List.flatMap_cons, ownersOfBody_append]
    exact fun _ hw => List.mem_append_right _ (ih hw)

end Events

/-! ### Foundings -/

/-- The evaluation of a superclass comes upon a class. -/
theorem superclassOf_some_ok {ref : Reference} {superclass? : Option Nat} {m m' : Machine}
    (h : superclassOf (some ref) m = .ok superclass? m') :
    ∃ id, superclass? = some id ∧ lookUp ref m = .ok (.cls id) m' := by
  change EStateM.bind (lookUp ref) _ m = _ at h
  unfold EStateM.bind at h
  cases hv : lookUp ref m with
  | error i m₁ => simp [hv] at h
  | ok v m₁ =>
    rw [hv] at h
    cases v with
    | cls id =>
      obtain ⟨rfl, rfl⟩ := EStateM.Result.ok.inj h
      exact ⟨id, rfl, rfl⟩
    | _ => cases h

/-- The **founding** of a class: an execution of its declaration. -/
structure Founding where
  declaration : ClassDeclaration
  /-- The number of the class. -/
  cls : Nat
  /-- What the superclass was evaluated to. -/
  superclass : Option Nat
  /-- The scope that the class is declared in. -/
  outer : Nat
  /-- The scope that its methods are declared in. -/
  scope : Nat

namespace Founding

/-- The founding of a class on a machine, with the given class to inherit from: the numbers of the
class and of the scope that binds `super` are the next free ones. -/
def on (m : Machine) (C : ClassDeclaration) (superclass : Option Nat) : Founding where
  declaration := C
  cls := m.classes.entries.size
  superclass := superclass
  outer := m.current
  scope := superclass.elim m.current fun _ => m.heap.size

/-- The founding has happened: the declaration was executed on a machine, and the superclass was
evaluated there. -/
def Happened (E : Events) (x : Founding) : Prop :=
  ∃ n room m, E.happens (.statement (n + 1) room x.declaration.stmt) m ∧
    superclassOf x.declaration.superclass m = .ok x.superclass m ∧
    x = .on m x.declaration x.superclass

/-- A class with a superclass has come upon one. -/
theorem Happened.superclass_eq_some {E : Events} {x : Founding} (h : x.Happened E) {ref : Reference}
    (hsup : x.declaration.superclass = some ref) : ∃ p, x.superclass = some p := by
  obtain ⟨_, _, m, -, hok, -⟩ := h
  rw [hsup] at hok
  obtain ⟨id, hid, -⟩ := superclassOf_some_ok hok
  exact ⟨id, hid⟩

/-- A machine still has the class **as its founding has left it**; its declaration stands in one of
the texts. -/
structure Recorded (E : Events) (m : Machine) (x : Founding) : Prop where
  happened : x.Happened E
  stated : x.declaration.stmt.owners ⊆ E.owners
  entry : m.classes.entries[x.cls]? = some
    ⟨x.declaration.name.lexeme, x.superclass.filter (· < x.cls),
      methodTable x.scope x.declaration.methods⟩
  inherits : ∀ p, x.superclass = some p →
    m.heap.enclosing? x.scope = some x.outer ∧ m.heap.get? x.scope superName = some (.cls p)

end Founding

/-- A class **is** another one **or descends** from it, by what the foundings have come upon. -/
inductive Descends (E : Events) (m : Machine) : Nat → Nat → Prop
  | self (k : Nat) : Descends E m k k
  | inherits {x : Founding} {p k : Nat} (hx : x.Recorded E m) (hp : x.superclass = some p)
      (h : Descends E m p k) : Descends E m x.cls k

/-- A closure is a method that a class owns, **bound to an object**: its scope binds `this`, inside
the scope of the methods, and the class of the object is the one that owns the method or descends
from it. -/
structure Bound (E : Events) (m : Machine) (c : Closure) (x : Founding) (o : Nat) : Prop where
  recorded : x.Recorded E m
  owned : (methodTable x.scope x.declaration.methods).get? c.routine.name.lexeme =
    some { c with scope := x.scope }
  inside : m.heap.enclosing? c.scope = some x.scope
  this : m.heap.get? c.scope thisName = some (.object o)
  receiver : ∃ object, m.objects[o]? = some object ∧ Descends E m object.cls x.cls

/-- A scope is the one that a closure was **run** in. -/
def Closure.RanIn (E : Events) (c : Closure) (i : Nat) : Prop :=
  ∃ n room arguments m, E.happens (.closure (n + 1) room c arguments) m ∧ m.heap.size = i

/-- The **run of a bound method**, in the scope that lies `d` scopes outward from the given one. -/
structure Activation (E : Events) (m : Machine) (i d : Nat) (c : Closure) (x : Founding) (o : Nat) :
    Prop where
  scope : ∃ j, m.heap.ancestor? i d = some j ∧ c.RanIn E j ∧ m.heap.enclosing? j = some c.scope
  bound : Bound E m c x o

/-! ### Places -/

/-- A scope of a text that does not bind what methods bind by themselves. -/
def PlainScope (γ : Bindings Readiness) : Prop := ∀ x, ¬ IsPlain x → γ.get? x = none

theorem PlainScope.set {γ : Bindings Readiness} (hγ : PlainScope γ) {x : String} (hx : IsPlain x)
    (state : Readiness) : PlainScope (γ.set x state) := by
  intro y hy
  have hne : y ≠ x := fun h => hy (h ▸ hx)
  rw [Bindings.get?_set, if_neg hne, hγ y hy]

/-- The scopes `Γ` of a text are around a place, and there the scope of the machine is `i`, which
binds no object: blocks and functions go on from the scope they lie in, the body of a method from
the one its class was declared in.  The references `refs` of the place belong to the innermost
method, if there is one. -/
inductive Lies (E : Events) (m : Machine) : Scopes → List Reference → Nat → Prop
  | top (refs : List Reference) : Lies E m [] refs Machine.globalScope
  | inner {γ : Bindings Readiness} {Γ : Scopes} {refs : List Reference} {i p : Nat}
      (hγ : PlainScope γ) (hfree : m.heap.get? i thisName = none)
      (hp : m.heap.enclosing? i = some p) (h : Lies E m Γ refs p) : Lies E m (γ :: Γ) refs i
  | method {γ : Bindings Readiness} {Γ : Scopes} {refs : List Reference} {i o : Nat} {c : Closure}
      {x : Founding} (hγ : PlainScope γ) (hfree : m.heap.get? i thisName = none)
      (hran : c.RanIn E i) (hp : m.heap.enclosing? i = some c.scope) (hbound : Bound E m c x o)
      (hrefs : refs ⊆ c.routine.selves) (h : Lies E m Γ [] x.outer) :
      Lies E m (γ :: x.declaration.around Γ) refs i

/-- A name that the innermost scope does not hold is held farther outward. -/
theorem Scopes.nearest?_of_cons {γ : Bindings Readiness} {Γ : Scopes} {x : String} {k : Nat}
    {state : Readiness} (hγ : γ.get? x = none) (h : nearest? (γ :: Γ) x = some (k, state)) :
    ∃ k', k = k' + 1 ∧ Γ.nearest? x = some (k', state) := by
  rw [nearest?_cons_of_none Γ hγ] at h
  obtain ⟨⟨k', _⟩, hk', heq⟩ := Option.map_eq_some_iff.1 h
  obtain ⟨rfl, rfl⟩ := Prod.mk.inj heq
  exact ⟨k', rfl, hk'⟩

/-! ### Growth -/

namespace Heap

variable {α : Type} {h h' : Heap α} {i p : Nat}

theorem get?_push_set (h : Heap α) (p : Option Nat) (b : Bindings α) (x : String) (v : α) :
    (h.push p (b.set x v)).get? h.size x = some v := by
  rw [get?_push, if_pos rfl, Bindings.get?_set_self]

theorem Extends.enclosing?_of_eq_some (he : h.Extends h') (hp : h.enclosing? i = some p) :
    h'.enclosing? i = some p := by
  rw [he.enclosing?_eq i (lt_size_of_enclosing? hp), hp]

/-- One scope farther. -/
theorem ancestor?_of_enclosing? {j d : Nat} (hj : h.ancestor? i d = some j)
    (hp : h.enclosing? j = some p) : h.ancestor? i (d + 1) = some p := by
  induction d generalizing i with
  | zero =>
    obtain rfl := Option.some.inj hj
    rw [ancestor?_succ, hp]
    rfl
  | succ d ih =>
    rw [ancestor?_succ] at hj
    obtain ⟨i', hi', hj⟩ := Option.bind_eq_some_iff.1 hj
    rw [ancestor?_succ, hi', Option.bind_some, ih hj]

theorem ne_zero_of_enclosing? (hp : h.enclosing? i = some p) : i ≠ 0 :=
  Nat.ne_of_gt (Nat.lt_of_le_of_lt (Nat.zero_le p) (enclosing?_lt hp))

end Heap

/-- One machine has **grown out of** another.  The scopes keep their places, and the local ones bind
`this` and `super` as they did; the classes stay as they are, and the objects in their classes. -/
structure Machine.Grows (m m' : Machine) : Prop where
  scopes : m.heap.Extends m'.heap
  reserved : ∀ j x, j ≠ Machine.globalScope → j < m.heap.size → ¬ IsPlain x →
    m'.heap.get? j x = m.heap.get? j x
  classes : ∀ (k : Nat) (info : ClassInfo), m.classes.entries[k]? = some info →
    m'.classes.entries[k]? = some info
  objects : ∀ (o : Nat) (object : ObjectInfo), m.objects[o]? = some object →
    ∃ object', m'.objects[o]? = some object' ∧ object'.cls = object.cls

namespace Machine.Grows

variable {m m' m'' : Machine}

theorem refl (m : Machine) : m.Grows m :=
  ⟨.refl _, fun _ _ _ _ _ => rfl, fun _ _ h => h, fun _ object h => ⟨object, h, rfl⟩⟩

theorem trans (h : m.Grows m') (h' : m'.Grows m'') : m.Grows m'' where
  scopes := h.scopes.trans h'.scopes
  reserved := fun j x hj hlt hx =>
    (h'.reserved j x hj (Nat.lt_of_lt_of_le hlt h.scopes.size_le) hx).trans
      (h.reserved j x hj hlt hx)
  classes := fun k info hk => h'.classes k info (h.classes k info hk)
  objects := by
    intro o object ho
    obtain ⟨object', ho', hcls⟩ := h.objects o object ho
    obtain ⟨object'', ho'', hcls'⟩ := h'.objects o object' ho'
    exact ⟨object'', ho'', hcls'.trans hcls⟩

/-- Nothing that counts is changed. -/
theorem of_eq (hheap : m'.heap = m.heap) (hclasses : m'.classes = m.classes)
    (hobjects : m'.objects = m.objects) : m.Grows m' where
  scopes := hheap ▸ .refl _
  reserved := fun _ _ _ _ _ => by rw [hheap]
  classes := fun _ _ hk => hclasses ▸ hk
  objects := fun _ object ho => ⟨object, hobjects ▸ ho, rfl⟩

/-- The scope in force does not count. -/
theorem atScope (h : m.Grows m') (i : Nat) : m.Grows { m' with current := i } :=
  ⟨h.scopes, h.reserved, h.classes, h.objects⟩

/-- A growth of the heap alone. -/
theorem of_heap {h : Heap Value} (hscopes : m.heap.Extends h)
    (hreserved : ∀ j x, j ≠ Machine.globalScope → j < m.heap.size → ¬ IsPlain x →
      h.get? j x = m.heap.get? j x) : m.Grows { m with heap := h } :=
  { refl m with scopes := hscopes, reserved := hreserved }

/-- A new scope. -/
theorem push (m : Machine) (p : Option Nat) (b : Bindings Value) :
    m.Grows { m with heap := m.heap.push p b } := by
  refine of_heap (Heap.extends_push ..) fun j x _ hlt _ => ?_
  rw [Heap.get?_push, if_neg (Nat.ne_of_lt hlt)]

/-- A name is bound, and it is a plain one or the scope is the global one. -/
theorem define (m : Machine) {i : Nat} {x : String} (v : Value)
    (h : i = Machine.globalScope ∨ IsPlain x) :
    m.Grows { m with heap := m.heap.define i x v } := by
  refine of_heap (Heap.extends_define ..) fun j y hj _ hy => ?_
  rw [Heap.get?_define, if_neg]
  rintro ⟨rfl, -, rfl⟩
  exact h.elim hj hy

/-- A scope that lies in another one binds what methods bind as it did. -/
theorem get?_eq (h : m.Grows m') {i p : Nat} (hp : m.heap.enclosing? i = some p) {x : String}
    (hx : ¬ IsPlain x) : m'.heap.get? i x = m.heap.get? i x :=
  h.reserved i x (Heap.ne_zero_of_enclosing? hp) (Heap.lt_size_of_enclosing? hp) hx

end Machine.Grows

section

variable {E : Events} {m m' : Machine}

theorem Founding.Recorded.mono {x : Founding} (h : x.Recorded E m) (hg : m.Grows m') :
    x.Recorded E m' where
  happened := h.happened
  stated := h.stated
  entry := hg.classes _ _ h.entry
  inherits := by
    intro p hp
    obtain ⟨houter, hsuper⟩ := h.inherits p hp
    exact ⟨hg.scopes.enclosing?_of_eq_some houter,
      (hg.get?_eq houter not_isPlain_super).trans hsuper⟩

namespace Descends

variable {i j k : Nat}

theorem mono (h : Descends E m i j) (hg : m.Grows m') : Descends E m' i j := by
  induction h with
  | self k => exact .self k
  | inherits hx hp _ ih => exact .inherits (hx.mono hg) hp ih

theorem trans (h : Descends E m i j) (h' : Descends E m j k) : Descends E m i k := by
  induction h with
  | self _ => exact h'
  | inherits hx hp _ ih => exact .inherits hx hp (ih h')

end Descends

/-- What a method is **bound to** is settled once and for all. -/
theorem Bound.mono {c : Closure} {x : Founding} {o : Nat} (h : Bound E m c x o)
    (hg : m.Grows m') : Bound E m' c x o where
  recorded := h.recorded.mono hg
  owned := h.owned
  inside := hg.scopes.enclosing?_of_eq_some h.inside
  this := (hg.get?_eq h.inside not_isPlain_this).trans h.this
  receiver := by
    obtain ⟨object, ho, hdescends⟩ := h.receiver
    obtain ⟨object', ho', hcls⟩ := hg.objects o object ho
    exact ⟨object', ho', hcls ▸ hdescends.mono hg⟩

namespace Lies

variable {Γ : Scopes} {refs refs' : List Reference} {i : Nat}

/-- A place keeps its scopes. -/
theorem mono (h : Lies E m Γ refs i) (hg : m.Grows m') : Lies E m' Γ refs i := by
  induction h with
  | top refs => exact .top refs
  | inner hγ hfree hp _ ih =>
    have hfree' := (hg.get?_eq hp not_isPlain_this).trans hfree
    exact .inner hγ hfree' (hg.scopes.enclosing?_of_eq_some hp) ih
  | method hγ hfree hran hp hbound hrefs _ ih =>
    have hfree' := (hg.get?_eq hp not_isPlain_this).trans hfree
    exact .method hγ hfree' hran (hg.scopes.enclosing?_of_eq_some hp) (hbound.mono hg) hrefs ih

/-- A part of a place has fewer references. -/
theorem part (h : Lies E m Γ refs i) (hsub : refs' ⊆ refs) : Lies E m Γ refs' i := by
  induction h with
  | top _ => exact .top _
  | inner hγ hfree hp _ ih => exact .inner hγ hfree hp (ih hsub)
  | method hγ hfree hran hp hbound hrefs h =>
    exact .method hγ hfree hran hp hbound (fun _ href => hrefs (hsub href)) h

/-- A plain name may be declared in the innermost scope. -/
theorem mark (h : Lies E m Γ refs i) {x : String} (hx : IsPlain x) (state : Readiness) :
    Lies E m (Γ.mark x state) refs i := by
  cases h with
  | top _ => exact .top _
  | inner hγ hfree hp h => exact .inner (hγ.set hx state) hfree hp h
  | method hγ hfree hran hp hbound hrefs h =>
    exact .method (hγ.set hx state) hfree hran hp hbound hrefs h

/-- The scope of the machine exists. -/
theorem lt_size (h : Lies E m Γ refs i) (hm : 0 < m.heap.size) : i < m.heap.size := by
  cases h with
  | top _ => exact hm
  | inner _ _ hp _ => exact Heap.lt_size_of_enclosing? hp
  | method _ _ _ hp _ _ _ => exact Heap.lt_size_of_enclosing? hp

/-- The scope of the machine binds no object, unless it is the global one. -/
theorem unbound (h : Lies E m Γ refs i) :
    i = Machine.globalScope ∨ m.heap.get? i thisName = none := by
  cases h with
  | top _ => exact .inl rfl
  | inner _ hfree _ _ => exact .inr hfree
  | method _ hfree _ _ _ _ _ => exact .inr hfree

/-- The innermost scope of a place binds nothing by itself. -/
theorem nearest?_ne_zero (h : Lies E m Γ refs i) {x : String} (hx : ¬ IsPlain x)
    (state : Readiness) : Γ.nearest? x ≠ some (0, state) := by
  have hcons : ∀ (γ : Bindings Readiness) (Δ : Scopes), PlainScope γ →
      Scopes.nearest? (γ :: Δ) x ≠ some (0, state) := by
    intro γ Δ hγ heq
    obtain ⟨k, hk, -⟩ := Scopes.nearest?_of_cons (hγ x hx) heq
    exact Nat.succ_ne_zero k hk.symm
  cases h with
  | top _ => exact nofun
  | inner hγ _ _ _ => exact hcons _ _ hγ
  | method hγ _ _ _ _ _ _ => exact hcons _ _ hγ

/-- **The nearest `this` belongs to the run of a bound method**, which is one scope closer; and if
`super` is one scope farther, the class of the method inherits. -/
theorem activation (h : Lies E m Γ refs i) {k : Nat} {state : Readiness}
    (hthis : Γ.nearest? thisName = some (k, state)) :
    ∃ d c x o, k = d + 1 ∧ Activation E m i d c x o ∧ refs ⊆ c.routine.selves ∧
      ∀ t, Γ.nearest? superName = some (k + 1, t) → ∃ p, x.superclass = some p := by
  induction h generalizing k with
  | top _ => cases hthis
  | inner hγ _ hp _ ih =>
    obtain ⟨k, rfl, hthis'⟩ := Scopes.nearest?_of_cons (hγ _ not_isPlain_this) hthis
    obtain ⟨d, c, x, o, rfl, ⟨⟨j, hj, hran⟩, hbound⟩, hrefs, hsuper⟩ := ih hthis'
    refine ⟨d + 1, c, x, o, rfl, ⟨⟨j, ?_, hran⟩, hbound⟩, hrefs, fun t ht => ?_⟩
    · rw [Heap.ancestor?_succ, hp, Option.bind_some, hj]
    · obtain ⟨k, hk, ht'⟩ := Scopes.nearest?_of_cons (hγ _ not_isPlain_super) ht
      obtain rfl := Nat.succ.inj hk
      exact hsuper t ht'
  | @method γ Γ refs i o c x hγ _ hran hp hbound hrefs h _ =>
    obtain ⟨k, rfl, hthis'⟩ := Scopes.nearest?_of_cons (hγ _ not_isPlain_this) hthis
    obtain ⟨rfl, rfl⟩ := Prod.mk.inj (Option.some.inj hthis')
    refine ⟨0, c, x, o, rfl, ⟨⟨i, rfl, hran, hp⟩, hbound⟩, hrefs, fun t ht => ?_⟩
    obtain ⟨k, hk, ht'⟩ := Scopes.nearest?_of_cons (hγ _ not_isPlain_super) ht
    obtain rfl := Nat.succ.inj hk
    cases hsup : x.declaration.superclass with
    | some ref => exact hbound.recorded.happened.superclass_eq_some hsup
    | none =>
      -- Then `super` would be bound by the scope that the class is declared in.
      rw [ClassDeclaration.around, hsup, Option.elim_none] at ht'
      have hnone : thisScope.get? superName = none := rfl
      obtain ⟨k, hk, ht''⟩ := Scopes.nearest?_of_cons hnone ht'
      obtain rfl := Nat.succ.inj hk
      exact absurd ht'' (h.nearest?_ne_zero not_isPlain_super t)

end Lies

/-! ### What is found at the distances -/

namespace Activation

variable {i d o : Nat} {c : Closure} {x : Founding}

/-- The scope around the run of a method binds `this`. -/
theorem getAt_this (h : Activation E m i d c x o) :
    m.heap.getAt i (d + 1 : Nat) thisName = .ok (.object o) := by
  obtain ⟨⟨j, hj, -, hp⟩, hbound⟩ := h
  exact Heap.getAt_eq (Heap.ancestor?_of_enclosing? hj hp) hbound.this

/-- The scope around that one binds `super`, if the class inherits. -/
theorem getAt_super (h : Activation E m i d c x o) {p : Nat} (hsup : x.superclass = some p) :
    m.heap.getAt i (d + 2 : Nat) superName = .ok (.cls p) := by
  obtain ⟨⟨j, hj, -, hp⟩, hbound⟩ := h
  have hthis := Heap.ancestor?_of_enclosing? hj hp
  exact Heap.getAt_eq (Heap.ancestor?_of_enclosing? hthis hbound.inside)
    (hbound.recorded.inherits p hsup).2

end Activation

end

end Lox
