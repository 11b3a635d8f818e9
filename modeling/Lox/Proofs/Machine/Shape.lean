/-
**The shape of a machine.**

The scopes of a machine lie inside earlier ones, down to the global scope; its functions and methods
have been declared in scopes that exist; a class inherits from an earlier class; and no value stands
for a function, a class or an object that is not there.  Every step of a program keeps this shape,
whatever its trees and distances are, and no step takes back what an earlier one has made.  So the
way outward from a scope ends at the global scope, and the search for a method ends with a class,
without any bound on the number of steps.

Main definitions:

* `Lox.Heap.Walk`, `Lox.Classes.Search` — **the way outward** from a scope and **the search for a
  method**, without a bound on their steps;
* `Lox.Value.Exists` — a value stands for something that is there;
* `Lox.Machine.Extends` — one machine has grown out of another;
* `Lox.Machine.WellShaped` — **the shape of a machine**;
* `Lox.Machine.LeadsTo` — a machine that has grown out of another and has this shape.

Main results:

* `Lox.Heap.walk_iff`, `Lox.Classes.search_iff` — the ways and the searches that are computed
  are the ones without a bound;
* `Lox.Machine.WellShaped.getLast?_chain` — **the way outward ends at the global scope**;
* `Lox.Machine.WellShaped.initial` — a new machine has the shape;
* `Lox.Machine.LeadsTo.pushScope`, `Lox.Machine.LeadsTo.pushClass` — what is added keeps it.
-/

import Lox.Machine.Eval
import Lox.Proofs.Scope.Growth

set_option relaxedAutoImplicit false
set_option autoImplicit false

namespace Lox

/-! ### Ways outward and searches -/

namespace Heap

variable {α : Type}

/-- The **way outward** from a scope: on and on to the scope around, as long as there is one. -/
inductive Walk (h : Heap α) : Nat → List Nat → Prop
  | last {i : Nat} (hi : h.enclosing? i = none) : Walk h i [i]
  | outward {i p : Nat} {js : List Nat} (hi : h.enclosing? i = some p) (hp : Walk h p js) :
      Walk h i (i :: js)

theorem walk_chain (h : Heap α) (i : Nat) : h.Walk i (h.chain i) := by
  induction i using Nat.strongRecOn with
  | ind i ih =>
    rw [chain_eq]
    cases hp : h.enclosing? i with
    | none => exact .last hp
    | some p => exact .outward hp (ih p (enclosing?_lt hp))

/-- The way outward from a scope **ends**, and the chain of the scope is this way. -/
theorem walk_iff (h : Heap α) {i : Nat} {js : List Nat} : h.Walk i js ↔ js = h.chain i := by
  refine ⟨fun hwalk => ?_, fun heq => heq ▸ h.walk_chain i⟩
  induction hwalk with
  | last hi => rw [chain_eq, hi, Option.elim_none]
  | outward hi _ ih => rw [chain_eq, hi, Option.elim_some, ih]

/-- Where every other scope lies inside one, the way outward ends at the global scope. -/
theorem getLast?_chain {h : Heap α}
    (hrooted : ∀ j, j < h.size → j ≠ Machine.globalScope → ∃ p, h.enclosing? j = some p)
    {i : Nat} (hi : i < h.size) : (h.chain i).getLast? = some Machine.globalScope := by
  induction i using Nat.strongRecOn with
  | ind i ih =>
    rw [chain_eq]
    cases hp : h.enclosing? i with
    | none =>
      have hglobal : i = Machine.globalScope := by
        refine Classical.byContradiction fun hne => ?_
        obtain ⟨p, hsome⟩ := hrooted i hi hne
        rw [hp] at hsome
        cases hsome
      rw [hglobal]
      rfl
    | some p =>
      have hlt := enclosing?_lt hp
      rw [Option.elim_some, List.getLast?_cons, ih p hlt (Nat.lt_trans hlt hi)]
      rfl

end Heap

namespace Classes

/-- The **search for a method**, from class to class, as long as there is a superclass. -/
inductive Search (cs : Classes) (name : String) : Nat → Option Closure → Prop
  | own {k : Nat} {info : ClassInfo} {c : Closure} (hk : cs.entries[k]? = some info)
      (hc : info.methods.get? name = some c) : Search cs name k (some c)
  | missing {k : Nat} {info : ClassInfo} (hk : cs.entries[k]? = some info)
      (hnone : info.methods.get? name = none) (hp : info.superclass = none) : Search cs name k none
  | inherited {k p : Nat} {info : ClassInfo} {r : Option Closure}
      (hk : cs.entries[k]? = some info) (hnone : info.methods.get? name = none)
      (hp : info.superclass = some p) (h : Search cs name p r) : Search cs name k r

/-- What is computed is the outcome of the search. -/
theorem search_findMethod (cs : Classes) (name : String) {k : Nat} (hk : k < cs.entries.size) :
    cs.Search name k (cs.findMethod k name) := by
  induction k using Nat.strongRecOn with
  | ind k ih =>
    have hinfo : cs.entries[k]? = some cs.entries[k] := Array.getElem?_eq_getElem hk
    rw [findMethod_eq cs k name _ hinfo]
    cases hown : cs.entries[k].methods.get? name with
    | some c => exact .own hinfo hown
    | none =>
      rw [Option.none_or]
      cases hp : cs.entries[k].superclass with
      | none => exact .missing hinfo hown hp
      | some p =>
        have hlt := cs.ordered k _ p hinfo hp
        exact .inherited hinfo hown hp (ih p hlt (Nat.lt_trans hlt hk))

/-- The search for a method **ends**, from every class on, and gives what is computed. -/
theorem search_iff (cs : Classes) (name : String) {k : Nat} (hk : k < cs.entries.size)
    {r : Option Closure} : cs.Search name k r ↔ r = cs.findMethod k name := by
  refine ⟨fun h => ?_, fun h => h ▸ cs.search_findMethod name hk⟩
  clear hk
  induction h with
  | own hk hc => rw [findMethod_eq cs _ name _ hk, hc, Option.some_or]
  | missing hk hnone hp => rw [findMethod_eq cs _ name _ hk, hnone, hp]; rfl
  | inherited hk hnone hp _ ih =>
    rw [findMethod_eq cs _ name _ hk, hnone, hp, Option.none_or, Option.bind_some]
    exact ih

/-- A method that is found stands in the table of some class. -/
theorem mem_of_findMethod {cs : Classes} {k : Nat} {name : String} {c : Closure}
    (h : cs.findMethod k name = some c) :
    ∃ (j : Nat) (info : ClassInfo), cs.entries[j]? = some info ∧
      info.methods.get? name = some c := by
  induction k using Nat.strongRecOn with
  | ind k ih =>
    cases hk : cs.entries[k]? with
    | none => simp [findMethod, findMethodF, hk] at h
    | some info =>
      rw [findMethod_eq cs k name info hk] at h
      cases hown : info.methods.get? name with
      | some c' =>
        rw [hown] at h
        exact ⟨k, info, hk, hown.trans h⟩
      | none =>
        rw [hown, Option.none_or] at h
        obtain ⟨p, hp, h⟩ := Option.bind_eq_some_iff.1 h
        exact ih p (cs.ordered k info p hk hp) h

end Classes

/-! ### Tables of methods -/

/-- What is found in a list of bindings stands in it. -/
theorem Bindings.mem_of_get?_ofList {α : Type} {es : List (String × α)} {x : String} {v : α}
    (h : (ofList es).get? x = some v) : (x, v) ∈ es := by
  suffices hgen : ∀ (b : Bindings α),
      (es.foldl (fun b e => b.set e.1 e.2) b).get? x = some v →
        (x, v) ∈ es ∨ b.get? x = some v from (hgen .empty h).resolve_right nofun
  clear h
  induction es with
  | nil => exact fun _ h => .inr h
  | cons e es ih =>
    intro b h
    rcases ih (b.set e.1 e.2) h with h | h
    · exact .inl (List.mem_cons_of_mem _ h)
    · rw [Bindings.get?_set] at h
      split at h
      · rename_i heq
        obtain rfl := Option.some.inj h
        exact .inl (heq ▸ List.mem_cons_self)
      · exact .inr h

/-- A method in the table of a class is one of those that are declared, in the given scope. -/
theorem mem_of_get?_methodTable {scope : Nat} {methods : List Routine} {name : String}
    {f : Closure} (h : (methodTable scope methods).get? name = some f) :
    f.routine ∈ methods ∧ f.routine.name.lexeme = name ∧ f.scope = scope := by
  obtain ⟨r, hr, heq⟩ := List.mem_map.1 (Bindings.mem_of_get?_ofList h)
  obtain ⟨rfl, rfl⟩ := Prod.mk.inj heq
  exact ⟨hr, rfl, rfl⟩

/-! ### Growth -/

/-- One machine has **grown out of** another.  The scopes lie where they did, and names stay bound
in them; functions, native functions and classes are what they were, a class with its superclass and
its methods; and an object is still one of its class. -/
structure Machine.Extends (m m' : Machine) : Prop where
  scopes : m.heap.Extends m'.heap
  closures : ∀ (id : Nat) (c : Closure), m.closures[id]? = some c → m'.closures[id]? = some c
  natives : ∀ (id : Nat) (f : Native), m.natives[id]? = some f → m'.natives[id]? = some f
  classes : ∀ (k : Nat) (info : ClassInfo), m.classes.entries[k]? = some info →
    m'.classes.entries[k]? = some info
  objects : ∀ (o : Nat) (object : ObjectInfo), m.objects[o]? = some object →
    ∃ object', m'.objects[o]? = some object' ∧ object'.cls = object.cls

namespace Machine.Extends

variable {m m' m'' : Machine}

/-- Nothing but the tables counts. -/
theorem of_tables (heap : m'.heap = m.heap) (closures : m'.closures = m.closures)
    (natives : m'.natives = m.natives) (classes : m'.classes = m.classes)
    (objects : m'.objects = m.objects) : m.Extends m' where
  scopes := heap ▸ .refl _
  closures := fun _ _ h => closures ▸ h
  natives := fun _ _ h => natives ▸ h
  classes := fun _ _ h => classes ▸ h
  objects := fun _ object h => ⟨object, objects ▸ h, rfl⟩

theorem refl (m : Machine) : m.Extends m := of_tables rfl rfl rfl rfl rfl

theorem trans (h : m.Extends m') (h' : m'.Extends m'') : m.Extends m'' where
  scopes := h.scopes.trans h'.scopes
  closures := fun id c hc => h'.closures id c (h.closures id c hc)
  natives := fun id f hf => h'.natives id f (h.natives id f hf)
  classes := fun k info hk => h'.classes k info (h.classes k info hk)
  objects := by
    intro o object ho
    obtain ⟨object', ho', hcls⟩ := h.objects o object ho
    obtain ⟨object'', ho'', hcls'⟩ := h'.objects o object' ho'
    exact ⟨object'', ho'', hcls'.trans hcls⟩

end Machine.Extends

/-! ### Values -/

/-- A value stands for something that **is there**. -/
def Value.Exists (m : Machine) : Value → Prop
  | .closure id => id < m.closures.size
  | .native id => id < m.natives.size
  | .cls id => id < m.classes.entries.size
  | .object id => id < m.objects.size
  | _ => True

/-- What a `return` gives is there. -/
def Interrupt.Exists (m : Machine) : Interrupt → Prop
  | .returned v => v.Exists m
  | _ => True

/-- A table that keeps its entries gets no smaller. -/
theorem lt_size_of_kept {α : Type} {xs ys : Array α} {i : Nat}
    (h : ∀ x, xs[i]? = some x → ∃ y, ys[i]? = some y) (hi : i < xs.size) : i < ys.size := by
  obtain ⟨y, hy⟩ := h xs[i] (Array.getElem?_eq_getElem hi)
  exact (Array.getElem?_eq_some_iff.1 hy).1

/-- What is there stays there. -/
theorem Value.Exists.mono {m m' : Machine} {v : Value} (h : v.Exists m) (he : m.Extends m') :
    v.Exists m' := by
  cases v with
  | closure id => exact lt_size_of_kept (fun c hc => ⟨c, he.closures id c hc⟩) h
  | native id => exact lt_size_of_kept (fun f hf => ⟨f, he.natives id f hf⟩) h
  | cls id => exact lt_size_of_kept (fun info hk => ⟨info, he.classes id info hk⟩) h
  | object id =>
    refine lt_size_of_kept (fun object ho => ?_) h
    obtain ⟨object', ho', -⟩ := he.objects id object ho
    exact ⟨object', ho'⟩
  | _ => trivial

theorem Interrupt.Exists.mono {m m' : Machine} {i : Interrupt} (h : i.Exists m)
    (he : m.Extends m') : i.Exists m' := by
  cases i with
  | returned v => exact Value.Exists.mono h he
  | _ => trivial

/-- A native function that makes **no value out of nothing**. -/
def Native.Honest (f : Native) : Prop :=
  ∀ g, f.action = .compute g → ∀ (m : Machine) arguments v,
    (∀ a ∈ arguments, a.Exists m) → g arguments = .ok v → v.Exists m

/-! ### The shape of a machine -/

/-- The **shape** of a machine between any two steps. -/
structure Machine.WellShaped (m : Machine) : Prop where
  current : m.current < m.heap.size
  /-- Every scope but the global one lies inside another one. -/
  rooted : ∀ j, j < m.heap.size → j ≠ globalScope → ∃ p, m.heap.enclosing? j = some p
  values : ∀ j x v, m.heap.get? j x = some v → v.Exists m
  fields : ∀ (o : Nat) (object : ObjectInfo) x v, m.objects[o]? = some object →
    object.fields.get? x = some v → v.Exists m
  closures : ∀ (id : Nat) (c : Closure), m.closures[id]? = some c → c.scope < m.heap.size
  methods : ∀ (k : Nat) (info : ClassInfo) x c, m.classes.entries[k]? = some info →
    info.methods.get? x = some c → c.scope < m.heap.size
  instances : ∀ (o : Nat) (object : ObjectInfo), m.objects[o]? = some object →
    object.cls < m.classes.entries.size
  natives : ∀ (id : Nat) (f : Native), m.natives[id]? = some f → f.Honest

namespace Machine.WellShaped

variable {m m' : Machine}

/-- **The way outward ends at the global scope**, from every scope. -/
theorem getLast?_chain (h : m.WellShaped) {i : Nat} (hi : i < m.heap.size) :
    (m.heap.chain i).getLast? = some globalScope :=
  Heap.getLast?_chain h.rooted hi

/-- Another scope may come into force. -/
theorem atScope (h : m.WellShaped) {i : Nat} (hi : i < m.heap.size) :
    WellShaped { m with current := i } :=
  { h with current := hi }

/-- A method that is found was declared in a scope that exists. -/
theorem findMethod (h : m.WellShaped) {k : Nat} {x : String} {c : Closure}
    (hc : m.classes.findMethod k x = some c) : c.scope < m.heap.size := by
  obtain ⟨j, info, hj, hx⟩ := Classes.mem_of_findMethod hc
  exact h.methods j info x c hj hx

end Machine.WellShaped

/-- One machine has **come out of** another one and has its shape. -/
structure Machine.LeadsTo (m m' : Machine) : Prop where
  growth : m.Extends m'
  shape : m'.WellShaped

namespace Machine.LeadsTo

variable {m m' m'' : Machine}

theorem refl (h : m.WellShaped) : m.LeadsTo m := ⟨.refl m, h⟩

theorem trans (h : m.LeadsTo m') (h' : m'.LeadsTo m'') : m.LeadsTo m'' :=
  ⟨h.growth.trans h'.growth, h'.shape⟩

/-- Another scope that exists comes into force. -/
theorem atScope (h : m.WellShaped) {i : Nat} (hi : i < m.heap.size) :
    m.LeadsTo { m with current := i } := ⟨.of_tables rfl rfl rfl rfl rfl, h.atScope hi⟩

/-- Distances, printed lines and the time do not count. -/
theorem withOutput (h : m.WellShaped) (D : Distances) (printed : Array String) (time : Number) :
    m.LeadsTo { m with distances := D, printed := printed, time := time } := by
  have he : m.Extends { m with distances := D, printed := printed, time := time } :=
    .of_tables rfl rfl rfl rfl rfl
  exact ⟨he, { h with
    values := fun j x v hv => (h.values j x v hv).mono he
    fields := fun o object x v ho hv => (h.fields o object x v ho hv).mono he }⟩

/-- A new scope inside one that exists. -/
theorem pushScope (h : m.WellShaped) {p : Nat} (hp : p < m.heap.size) {b : Bindings Value}
    (hb : ∀ x v, b.get? x = some v → v.Exists m) :
    m.LeadsTo { m with heap := m.heap.push (some p) b } := by
  have he : m.Extends { m with heap := m.heap.push (some p) b } :=
    { Machine.Extends.refl m with scopes := Heap.extends_push .. }
  have hlt : ∀ {i : Nat}, i < m.heap.size → i < (m.heap.push (some p) b).size :=
    fun hi => Nat.lt_of_lt_of_le hi he.scopes.size_le
  refine ⟨he, ?_⟩
  exact
    { current := hlt h.current
      rooted := by
        intro j hj hne
        rw [Heap.size_push] at hj
        rcases Nat.lt_succ_iff_lt_or_eq.1 hj with hold | rfl
        · obtain ⟨q, hq⟩ := h.rooted j hold hne
          exact ⟨q, (he.scopes.enclosing?_eq j hold).trans hq⟩
        · exact ⟨p, Heap.enclosing?_push_self _ _ hp⟩
      values := by
        intro j x v hv
        rw [Heap.get?_push] at hv
        split at hv
        · exact (hb x v hv).mono he
        · exact (h.values j x v hv).mono he
      fields := fun o object x v ho hv => (h.fields o object x v ho hv).mono he
      closures := fun id c hc => hlt (h.closures id c hc)
      methods := fun k info x c hk hc => hlt (h.methods k info x c hk hc)
      instances := h.instances
      natives := h.natives }

/-- A name is bound to a value that is there. -/
theorem define (h : m.WellShaped) (i : Nat) (x : String) {v : Value} (hv : v.Exists m) :
    m.LeadsTo { m with heap := m.heap.define i x v } := by
  have he : m.Extends { m with heap := m.heap.define i x v } :=
    { Machine.Extends.refl m with scopes := Heap.extends_define .. }
  refine ⟨he, ?_⟩
  exact
    { current := (Heap.size_define m.heap i x v).symm ▸ h.current
      rooted := by
        intro j hj hne
        rw [Heap.size_define] at hj
        obtain ⟨q, hq⟩ := h.rooted j hj hne
        exact ⟨q, (Heap.enclosing?_define ..).trans hq⟩
      values := by
        intro j y w hw
        rw [Heap.get?_define] at hw
        split at hw
        · obtain rfl := Option.some.inj hw
          exact hv.mono he
        · exact (h.values j y w hw).mono he
      fields := fun o object y w ho hw => (h.fields o object y w ho hw).mono he
      closures := fun id c hc => (Heap.size_define m.heap i x v).symm ▸ h.closures id c hc
      methods := fun k info y c hk hc =>
        (Heap.size_define m.heap i x v).symm ▸ h.methods k info y c hk hc
      instances := h.instances
      natives := h.natives }

/-- What a table holds, it holds with one more entry. -/
theorem getElem?_push_of_some {α : Type} {xs : Array α} {i : Nat} {x : α} (y : α)
    (hx : xs[i]? = some x) : (xs.push y)[i]? = some x := by
  rw [Array.getElem?_push, if_neg, hx]
  exact Nat.ne_of_lt (Array.getElem?_eq_some_iff.1 hx).1

/-- A new function, declared in a scope that exists. -/
theorem pushClosure (h : m.WellShaped) {c : Closure} (hc : c.scope < m.heap.size) :
    m.LeadsTo { m with closures := m.closures.push c } := by
  have he : m.Extends { m with closures := m.closures.push c } :=
    { Machine.Extends.refl m with closures := fun _ _ hold => getElem?_push_of_some c hold }
  refine ⟨he, { h with
    values := fun j x v hv => (h.values j x v hv).mono he
    fields := fun o object x v ho hv => (h.fields o object x v ho hv).mono he
    closures := fun id c' hc' => ?_ }⟩
  rw [Array.getElem?_push] at hc'
  split at hc'
  · obtain rfl := Option.some.inj hc'
    exact hc
  · exact h.closures id c' hc'

/-- A new class, whose methods are declared in scopes that exist. -/
theorem pushClass (h : m.WellShaped) {info : ClassInfo}
    (hmethods : ∀ x c, info.methods.get? x = some c → c.scope < m.heap.size) :
    m.LeadsTo { m with classes := m.classes.push info } := by
  have he : m.Extends { m with classes := m.classes.push info } :=
    { Machine.Extends.refl m with classes := fun _ _ hold => getElem?_push_of_some _ hold }
  refine ⟨he, { h with
    values := fun j x v hv => (h.values j x v hv).mono he
    fields := fun o object x v ho hv => (h.fields o object x v ho hv).mono he
    methods := fun k info' x c hk hc => ?_
    instances := fun o object ho => ?_ }⟩
  · change (m.classes.entries.push _)[k]? = _ at hk
    rw [Array.getElem?_push] at hk
    split at hk
    · obtain rfl := Option.some.inj hk
      exact hmethods x c hc
    · exact h.methods k info' x c hk hc
  · change object.cls < (m.classes.entries.push _).size
    rw [Array.size_push]
    exact Nat.lt_succ_of_lt (h.instances o object ho)

/-- A new object of a class that exists. -/
theorem pushObject (h : m.WellShaped) {cls : Nat} (hcls : cls < m.classes.entries.size) :
    m.LeadsTo { m with objects := m.objects.push ⟨cls, .empty⟩ } := by
  have he : m.Extends { m with objects := m.objects.push ⟨cls, .empty⟩ } :=
    { Machine.Extends.refl m with
      objects := fun o object ho => ⟨object, getElem?_push_of_some _ ho, rfl⟩ }
  refine ⟨he, { h with
    values := fun j x v hv => (h.values j x v hv).mono he
    fields := fun o object x v ho hv => ?_
    instances := fun o object ho => ?_ }⟩
  · rw [Array.getElem?_push] at ho
    split at ho
    · obtain rfl := Option.some.inj ho
      cases hv
    · exact (h.fields o object x v ho hv).mono he
  · rw [Array.getElem?_push] at ho
    split at ho
    · obtain rfl := Option.some.inj ho
      exact hcls
    · exact h.instances o object ho

/-- A field is given a value that is there. -/
theorem setField (h : m.WellShaped) (id : Nat) (x : String) {v : Value} (hv : v.Exists m) :
    m.LeadsTo { m with objects := m.objects.modify id fun o =>
      { o with fields := o.fields.set x v } } := by
  have he : m.Extends { m with objects := m.objects.modify id fun o =>
      { o with fields := o.fields.set x v } } := by
    refine { Machine.Extends.refl m with objects := fun o object ho => ?_ }
    rw [Array.getElem?_modify, ho]
    split
    · exact ⟨_, rfl, rfl⟩
    · exact ⟨_, rfl, rfl⟩
  refine ⟨he, { h with
    values := fun j y w hw => (h.values j y w hw).mono he
    fields := fun o object y w ho hw => ?_
    instances := fun o object ho => ?_ }⟩
  · rw [Array.getElem?_modify] at ho
    split at ho
    · obtain ⟨object', ho', rfl⟩ := Option.map_eq_some_iff.1 ho
      rw [Bindings.get?_set] at hw
      split at hw
      · obtain rfl := Option.some.inj hw
        exact hv.mono he
      · exact (h.fields o object' y w ho' hw).mono he
    · exact (h.fields o object y w ho hw).mono he
  · rw [Array.getElem?_modify] at ho
    split at ho
    · obtain ⟨object', ho', rfl⟩ := Option.map_eq_some_iff.1 ho
      exact h.instances o object' ho'
    · exact h.instances o object ho

/-- An honest native function is made known by a global name. -/
theorem register (h : m.WellShaped) (name : String) {f : Native} (hf : f.Honest) :
    m.LeadsTo (m.register name f) := by
  have he : m.Extends { m with natives := m.natives.push f } :=
    { Machine.Extends.refl m with natives := fun _ _ hold => getElem?_push_of_some f hold }
  have hpush : m.LeadsTo { m with natives := m.natives.push f } := by
    refine ⟨he, { h with
      values := fun j x v hv => (h.values j x v hv).mono he
      fields := fun o object x v ho hv => (h.fields o object x v ho hv).mono he
      natives := fun id f' hf' => ?_ }⟩
    rw [Array.getElem?_push] at hf'
    split at hf'
    · obtain rfl := Option.some.inj hf'
      exact hf
    · exact h.natives id f' hf'
  refine hpush.trans (define hpush.shape globalScope name ?_)
  change m.natives.size < (m.natives.push f).size
  rw [Array.size_push]
  exact Nat.lt_succ_self _

end Machine.LeadsTo

/-- A new machine has the shape of one. -/
theorem Machine.WellShaped.initial (time : Number) : (Machine.initial time).WellShaped := by
  refine (LeadsTo.register ?_ clock.name (f := clock) ?_).shape
  · refine ⟨Nat.zero_lt_succ 0, ?_, ?_, nofun, nofun, nofun, nofun, nofun⟩
    · intro j hj hne
      exact absurd (Nat.lt_one_iff.1 hj) hne
    · intro j x v hv
      rw [Heap.get?_push] at hv
      split at hv
      · cases hv
      · cases hv
  · exact fun g hg => nomatch hg

end Lox
