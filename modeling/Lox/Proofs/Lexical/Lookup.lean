/-
**Lookup at a distance and lookup by search.**

Where no name is declared at two depths, the scope at the distance of a reference is the first one
that binds its name, on the way outward.  There is one exception: a variable is bound when it is
given its first value, so that an assignment to the variable inside the very expression for this
value is made at the distance of a scope that does not bind the name yet.

That nothing else comes between is an invariant of the activities of a run.  Of the names that the
static scopes around an activity hold, all have their values but the one that is awaited.

Main definitions:

* `Lox.Heap.Agree` — **lookup at a distance and by search agree**;
* `Lox.Premature` — the exception;
* `Lox.Activity.Sound` — the invariant.

Main results:

* `Lox.Mirrors.owner?_eq` — the scope at the distance of a name is the first one that binds it;
* `Lox.Activity.Sound.starts`, `Lox.Reaches.sound` — what a sound activity starts, and comes to, is
  sound;
* `Lox.Activity.Sound.agree_iff` — **lookups agree but for the exception**.
-/

import Lox.Proofs.Lexical.Simulation
import Lox.Proofs.Machine.Activity
import Lox.Proofs.Scope.Resolution

set_option relaxedAutoImplicit false
set_option autoImplicit false

namespace Lox

open Placement

/-! ### Two ways to look up a name -/

namespace Heap

variable {α : Type} {h : Heap α} {i j d : Nat}

/-- Lookup at a distance and by search **agree**: they come to the same scope, read the same value,
and write the same variable. -/
structure Agree (h : Heap α) (i d : Nat) (name : Token) : Prop where
  scope : ∃ j, h.ancestor? i d = some j ∧ h.owner? i name.lexeme = some j
  read : ∃ v, h.getAt i d name.lexeme = .ok v ∧ h.get i name = .ok v
  write : ∀ v, ∃ h', h.assignAt i d name.lexeme v = .ok h' ∧ h.assign i name v = .ok h'

/-- Lookups agree if they come to the same scope. -/
theorem agree_of_owner? {name : Token} (hj : h.ancestor? i d = some j)
    (ho : h.owner? i name.lexeme = some j) : h.Agree i d name := by
  have hfind : h.find i name = .ok j := by rw [find, ho]
  obtain ⟨v, hv⟩ := Option.isSome_iff_exists.1 (binds_of_owner? ho)
  refine ⟨⟨j, hj, ho⟩, ⟨v, getAt_eq hj hv, ?_⟩, fun w => ⟨h.define j name.lexeme w, ?_, ?_⟩⟩
  · simp [get, hfind, bind, Except.bind, hv]
  · simp [assignAt, ancestor_eq hj, bind, Except.bind, pure, Except.pure]
  · simp [assign, hfind, bind, Except.bind, pure, Except.pure]

/-- The search for a name is over at a scope that binds it, and else goes on around it. -/
theorem owner?_eq (h : Heap α) (i : Nat) (x : String) :
    h.owner? i x = if h.binds i x then some i else (h.enclosing? i).bind (h.owner? · x) := by
  rw [owner?, chain_eq, List.find?_cons]
  cases h.binds i x with
  | true => rfl
  | false => cases h.enclosing? i <;> rfl

/-- The way outward from a scope at a distance is shorter by the distance. -/
theorem length_chain_of_ancestor? (hj : h.ancestor? i d = some j) :
    (h.chain j).length + d = (h.chain i).length := by
  induction d generalizing i with
  | zero => rw [Option.some.inj hj]; rfl
  | succ d ih =>
    rw [ancestor?_succ] at hj
    obtain ⟨p, hp, hj⟩ := Option.bind_eq_some_iff.1 hj
    have hlen := ih hj
    rw [length_chain_of_enclosing? hp]
    omega

end Heap

/-! ### Names that are declared at one depth -/

/-- No name may be declared at two depths. -/
def Ledger.Unique (L : Ledger) : Prop :=
  ∀ k k' x, L.mayDeclare k x → L.mayDeclare k' x → k = k'

/-- The scope at the distance of a name is the first one that binds it, if it does. -/
theorem Mirrors.owner?_eq {L : Ledger} {W : Placement} {h : Heap Value}
    {cells : Array (Option Value)} {globals : Bindings Value} (hs : Stores L W h cells globals)
    (hL : L.Unique) {Γ : Scopes} {i : Nat} {ρ : Lexical.Names} (hm : Mirrors W h Γ i ρ) {x : String}
    {d j : Nat} {state : Readiness} (hx : Γ.nearest? x = some (d, state))
    (hj : h.ancestor? i d = some j) (hb : h.binds j x = true) : h.owner? i x = some j := by
  induction Γ generalizing i ρ d with
  | nil => exact absurd hx (by simp [Scopes.nearest?])
  | cons γ Γ ih =>
    cases hg : γ.get? x with
    | some s =>
      rw [Scopes.nearest?_cons_of_get? Γ hg] at hx
      obtain ⟨rfl, rfl⟩ := Prod.mk.inj (Option.some.inj hx)
      obtain rfl := Option.some.inj hj
      rw [Heap.owner?_eq, if_pos hb]
    | none =>
      obtain ⟨-, hγ, p, σ, hp, hmp, -⟩ := hm
      rw [Scopes.nearest?_cons_of_none Γ hg] at hx
      obtain ⟨⟨d', s⟩, hd', heq⟩ := Option.map_eq_some_iff.1 hx
      obtain ⟨rfl, rfl⟩ := Prod.mk.inj heq
      rw [Heap.ancestor?_succ, hp] at hj
      have hpos : 0 < i := Nat.lt_of_le_of_lt (Nat.zero_le p) (Heap.enclosing?_lt hp)
      -- A scope on the way that binds the name would be another place where it is declared.
      have hunbound : ¬ h.binds i x = true := by
        intro hbi
        obtain ⟨c, hc⟩ := hs.covered i x hpos hbi
        by_cases hplain : IsPlain x
        · obtain ⟨j', c', hj', hc', -⟩ := hmp.nearest hd'
          obtain rfl : j' = j := Option.some.inj (hj'.symm.trans hj)
          have hdepth := hL _ _ x (hs.depth i x c hc hplain) (hs.depth j' x c' hc' hplain)
          have hlen := Heap.length_chain_of_ancestor? hj
          have hleni := Heap.length_chain_of_enclosing? hp
          have hlenj := Heap.chain_eq h j'
          rw [hlenj] at hdepth hlen
          simp only [List.length_cons] at hdepth hlen
          omega
        · have hbinds := hγ.special x c hplain hc
          rw [Bindings.binds, hg] at hbinds
          cases hbinds
      rw [Heap.owner?_eq, if_neg hunbound, hp]
      exact ih hmp hd' hj

/-! ### Sound activities -/

/-- Of the names that the scopes hold, only the awaited one may be without a value. -/
def Scopes.SettledBut (Γ : Scopes) (awaited : Option Token) : Prop :=
  ∀ x d, Γ.nearest? x = some (d, .declared) → ∃ name, awaited = some name ∧ name.lexeme = x

theorem Settled.but {Γ : Scopes} (hΓ : Settled Γ) : Γ.SettledBut none :=
  fun x d hx => absurd hx (hΓ.nearest?_ne x d)

/-- A name that is declared, and nothing else, is awaited. -/
theorem Settled.declared_but {Γ : Scopes} (hΓ : Settled Γ) (name : Token) :
    (Γ.mark name.lexeme .declared).SettledBut (some name) := by
  intro x d hx
  by_cases hname : x = name.lexeme
  · exact ⟨name, rfl, hname.symm⟩
  · rw [Scopes.nearest?_mark_of_ne Γ _ hname] at hx
    exact absurd hx (hΓ.nearest?_ne x d)

/-- A machine on which something may be **evaluated** that asks `P` of the scopes around it. -/
def Evaluable (L : Ledger) (m : Machine) (awaited : Option Token) (P : Scopes → Prop) : Prop :=
  ∃ W μ Γ ρ, Corresponds L W m μ ∧ Mirrors W m.heap Γ m.current ρ ∧ Γ.SettledBut awaited ∧ P Γ

/-- A machine on which something may be **executed** that asks `P` of the scopes around it, and of
whether it may return. -/
def Executable (L : Ledger) (m : Machine) (P : Bool → Scopes → Prop) : Prop :=
  ∃ W μ Γ ρ inBody, Corresponds L W m μ ∧ InForce W m Γ ρ ∧ Settled Γ ∧ P inBody Γ

/-- An activity that is **sound** on a machine: what is evaluated or executed is scoped, and what is
called mirrors a function. -/
def Activity.Sound (L : Ledger) (m : Machine) : Activity → Prop
  | .expression awaited _ _ e => Evaluable L m awaited fun Γ => e.Scoped L Γ
  | .expressions awaited _ _ es => Evaluable L m awaited fun Γ => argumentsScoped L Γ es
  | .call _ _ _ _ => ∃ W μ, Corresponds L W m μ
  | .closure _ _ c arguments => ∃ W μ c', Corresponds L W m μ ∧ ClosureMirrors L W m.heap c c' ∧
      arguments.length = c.routine.params.length
  | .statement _ _ s => Executable L m fun inBody Γ => s.Scoped L inBody Γ
  | .statements _ _ ss => Executable L m fun inBody Γ => bodyScoped L inBody Γ ss
  | .loop _ _ condition body => Executable L m fun inBody Γ =>
      condition.Scoped L Γ ∧ body.declared? = none ∧ body.Scoped L inBody Γ

section

variable {L : Ledger} {m m' : Machine} {awaited : Option Token} {P Q : Scopes → Prop}
  {E F : Bool → Scopes → Prop} {n room : Nat}

/-- What is known when a step that ends alike has given its result. -/
theorem EndsAlike.of_ok {α β : Type} {S : Nat → String → Prop} {inBody : Bool} {W : Placement}
    {R : Placement → Machine → α → β → Prop} {r : EStateM.Result Interrupt Machine α}
    {r' : EStateM.Result Interrupt Lexical.State β} (h : EndsAlike L S inBody W m R r r') {a : α}
    (hr : r = .ok a m') :
    ∃ W' μ' b, Grows S W m.heap W' m'.heap ∧ m'.current = m.current ∧ Corresponds L W' m' μ' ∧
      R W' m' a b := by
  subst hr
  cases h with
  | ok hg hcur hc hresult => exact ⟨_, _, _, hg, hcur, hc, hresult⟩

namespace Evaluable

theorem imp (h : Evaluable L m awaited P) (hPQ : ∀ Γ, P Γ → Q Γ) : Evaluable L m awaited Q := by
  obtain ⟨W, μ, Γ, ρ, hc, hm, hΓ, hP⟩ := h
  exact ⟨W, μ, Γ, ρ, hc, hm, hΓ, hPQ Γ hP⟩

/-- The rest may be evaluated behind an expression. -/
theorem next {e : Expr} {v : Value} (h : Evaluable L m awaited P) (he : ∀ Γ, P Γ → e.Scoped L Γ)
    (hv : eval n room e m = .ok v m') : Evaluable L m' awaited P := by
  obtain ⟨W, μ, Γ, ρ, hc, hm, hΓ, hP⟩ := h
  obtain ⟨W', μ', -, hg, hcur, hc', -⟩ := ((simulates L n).eval room hc hm (he Γ hP)).of_ok hv
  exact ⟨W', μ', Γ, ρ, hc', hm.next hg hcur, hΓ, hP⟩

/-- Machine and state correspond behind arguments. -/
theorem corresponds {es : List Expr} {vs : List Value} (h : Evaluable L m awaited P)
    (hes : ∀ Γ, P Γ → argumentsScoped L Γ es) (hvs : evalAll n room es m = .ok vs m') :
    ∃ W μ, Corresponds L W m' μ := by
  obtain ⟨W, μ, Γ, ρ, hc, hm, hΓ, hP⟩ := h
  obtain ⟨W', μ', -, -, -, hc', -⟩ := ((simulates L n).evalAll room hc hm (hes Γ hP)).of_ok hvs
  exact ⟨W', μ', hc'⟩

end Evaluable

namespace Executable

theorem imp (h : Executable L m E) (hEF : ∀ inBody Γ, E inBody Γ → F inBody Γ) :
    Executable L m F := by
  obtain ⟨W, μ, Γ, ρ, inBody, hc, hin, hΓ, hE⟩ := h
  exact ⟨W, μ, Γ, ρ, inBody, hc, hin, hΓ, hEF inBody Γ hE⟩

/-- Where something may be executed, an expression may be evaluated, with no variable awaited. -/
theorem evaluable (h : Executable L m E) (hP : ∀ inBody Γ, E inBody Γ → P Γ) :
    Evaluable L m none P := by
  obtain ⟨W, μ, Γ, ρ, inBody, hc, hin, hΓ, hE⟩ := h
  exact ⟨W, μ, Γ, ρ, hc, hin.mirrors, hΓ.but, hP inBody Γ hE⟩

/-- The rest may be executed behind an expression. -/
theorem next {e : Expr} {v : Value} (h : Executable L m E)
    (he : ∀ inBody Γ, E inBody Γ → e.Scoped L Γ) (hv : eval n room e m = .ok v m') :
    Executable L m' E := by
  obtain ⟨W, μ, Γ, ρ, inBody, hc, hin, hΓ, hE⟩ := h
  obtain ⟨W', μ', -, hg, hcur, hc', -⟩ :=
    ((simulates L n).eval room hc hin.mirrors (he inBody Γ hE)).of_ok hv
  exact ⟨W', μ', Γ, ρ, inBody, hc', hin.mono hc hg hcur, hΓ, hE⟩

/-- The rest may be executed behind a statement. -/
theorem after {s : Stmt} (h : Executable L m E) (hs : ∀ inBody Γ, E inBody Γ → s.Scoped L inBody Γ)
    (hF : ∀ inBody Γ, E inBody Γ → F inBody (Γ.after s)) (hok : exec n room s m = .ok () m') :
    Executable L m' F := by
  obtain ⟨W, μ, Γ, ρ, inBody, hc, hin, hΓ, hE⟩ := h
  obtain ⟨W', μ', ρ', -, -, hc', hin'⟩ :=
    ((simulates L n).exec room hc hin (hs inBody Γ hE)).of_ok hok
  exact ⟨W', μ', Γ.after s, ρ', inBody, hc', hin', hΓ.after s, hF inBody Γ hE⟩

/-- The expression for the value of a variable is evaluated while the variable is awaited. -/
theorem declared {name : Token} (h : Executable L m E)
    (hd : ∀ inBody Γ, E inBody Γ → L.Declares Γ name)
    (hP : ∀ inBody Γ, E inBody Γ → P (Γ.mark name.lexeme .declared)) :
    Evaluable L m (some name) P := by
  obtain ⟨W, μ, Γ, ρ, inBody, hc, hin, hΓ, hE⟩ := h
  have hdeclare : EndsAlike L (Here m.current) inBody W m _ _ _ :=
    declare_alike hc hin (hd inBody Γ hE)
  obtain ⟨W', μ', ρ', -, -, hc', hin', -⟩ := hdeclare.of_ok rfl
  exact ⟨W', μ', _, ρ'.1, hc', hin'.mirrors, hΓ.declared_but name, hP inBody Γ hE⟩

/-- Statements may be executed in a new scope. -/
theorem block {scope : Nat} (h : Executable L m E)
    (hF : ∀ inBody Γ, E inBody Γ → F inBody (.empty :: Γ))
    (hok : Run.newScope m.current .empty m = .ok scope m') :
    Executable L { m' with current := scope } F := by
  obtain ⟨W, μ, Γ, ρ, inBody, hc, hin, hΓ, hE⟩ := h
  obtain ⟨rfl, rfl⟩ := EStateM.Result.ok.inj hok
  have hg : Grows Nowhere W m.heap W (m.heap.push (some m.current) .empty) :=
    .of_extends Nowhere W (Heap.extends_push ..)
  have hc' := (hc.withHeap hg (fun _ _ hS => hS.elim) hc.stores.push).atScope m.heap.size
  exact ⟨W, μ, _, _, inBody, hc', ⟨hin.mirrors.push hc.stores, .fresh hc.stores⟩, hΓ.push [],
    hF inBody Γ hE⟩

end Executable

/-! ### What is started -/

namespace Activity.Sound

variable {b : Activity} {callee : Value} {arguments : List Value}

theorem expression_starts {e : Expr} (h : (Activity.expression awaited n room e).Sound L m)
    (hb : (b, m') ∈ (Activity.expression awaited n room e).starts m) : b.Sound L m' := by
  cases n with
  | zero => cases hb
  | succ n =>
    cases e with
    | grouping e =>
      obtain ⟨rfl, rfl⟩ := Prod.mk.inj (List.mem_singleton.1 hb)
      exact h
    | unary operator e =>
      obtain ⟨rfl, rfl⟩ := Prod.mk.inj (List.mem_singleton.1 hb)
      exact h.imp fun Γ he => he.2
    | binary left operator right =>
      rcases List.mem_cons.1 hb with hb | hb
      · obtain ⟨rfl, rfl⟩ := Prod.mk.inj hb
        exact h.imp fun Γ he => he.2.1
      · obtain ⟨v, m₁, hv, hb⟩ := mem_onResult.1 hb
        obtain ⟨rfl, rfl⟩ := Prod.mk.inj (List.mem_singleton.1 hb)
        exact (h.next (fun Γ he => he.2.1) hv).imp fun Γ he => he.2.2
    | logical left operator right =>
      rcases List.mem_cons.1 hb with hb | hb
      · obtain ⟨rfl, rfl⟩ := Prod.mk.inj hb
        exact h.imp fun Γ he => he.1
      · obtain ⟨v, m₁, hv, hb⟩ := mem_onResult.1 hb
        split at hb
        · cases hb
        · obtain ⟨rfl, rfl⟩ := Prod.mk.inj (List.mem_singleton.1 hb)
          exact (h.next (fun Γ he => he.1) hv).imp fun Γ he => he.2
    | assign ref e =>
      obtain ⟨rfl, rfl⟩ := Prod.mk.inj (List.mem_singleton.1 hb)
      exact h.imp fun Γ he => he.2
    | call callee paren arguments =>
      rcases List.mem_cons.1 hb with hb | hb
      · obtain ⟨rfl, rfl⟩ := Prod.mk.inj hb
        exact h.imp fun Γ he => he.1
      · obtain ⟨f, m₁, hf, hb⟩ := mem_onResult.1 hb
        have h₁ := h.next (fun Γ he => he.1) hf
        rcases List.mem_cons.1 hb with hb | hb
        · obtain ⟨rfl, rfl⟩ := Prod.mk.inj hb
          exact h₁.imp fun Γ he => he.2
        · obtain ⟨vs, m₂, hvs, hb⟩ := mem_onResult.1 hb
          obtain ⟨rfl, rfl⟩ := Prod.mk.inj (List.mem_singleton.1 hb)
          exact h₁.corresponds (fun Γ he => he.2) hvs
    | get object name =>
      obtain ⟨rfl, rfl⟩ := Prod.mk.inj (List.mem_singleton.1 hb)
      exact h
    | set object name e =>
      rcases List.mem_cons.1 hb with hb | hb
      · obtain ⟨rfl, rfl⟩ := Prod.mk.inj hb
        exact h.imp fun Γ he => he.1
      · obtain ⟨v, m₁, hv, hb⟩ := mem_onResult.1 hb
        cases v with
        | object id =>
          obtain ⟨rfl, rfl⟩ := Prod.mk.inj (List.mem_singleton.1 hb)
          exact (h.next (fun Γ he => he.1) hv).imp fun Γ he => he.2
        | _ => cases hb
    | _ => cases hb

theorem expressions_starts {es : List Expr} (h : (Activity.expressions awaited n room es).Sound L m)
    (hb : (b, m') ∈ (Activity.expressions awaited n room es).starts m) : b.Sound L m' := by
  cases n with
  | zero => cases hb
  | succ n =>
    cases es with
    | nil => cases hb
    | cons e es =>
      rcases List.mem_cons.1 hb with hb | hb
      · obtain ⟨rfl, rfl⟩ := Prod.mk.inj hb
        exact h.imp fun Γ he => he.1
      · obtain ⟨v, m₁, hv, hb⟩ := mem_onResult.1 hb
        obtain ⟨rfl, rfl⟩ := Prod.mk.inj (List.mem_singleton.1 hb)
        exact (h.next (fun Γ he => he.1) hv).imp fun Γ he => he.2

/-- What is called is a function that mirrors another one, or a class whose initializer does. -/
theorem bodyOf_sound {W : Placement} {μ : Lexical.State} (hc : Corresponds L W m μ)
    (hb : (b, m') ∈ Activity.bodyOf n room callee arguments m) : b.Sound L m' := by
  have hcallable := hc.callable callee
  unfold Activity.bodyOf at hb
  generalize m.callable? callee = f at hcallable hb
  generalize μ.callable? callee = f' at hcallable
  cases hcallable with
  | none => cases hb
  | @some f f' hf =>
    by_cases harity : (arguments.length : Int) = f.arity
    · simp only [if_pos harity] at hb
      cases hf with
      | native f => cases hb
      | closure hcc =>
        obtain ⟨rfl, rfl⟩ := Prod.mk.inj (List.mem_singleton.1 hb)
        exact ⟨W, μ, _, hc, hcc, Int.ofNat.inj harity⟩
      | cls id hinit =>
        cases hinit with
        | none => cases hb
        | some hcc =>
          obtain ⟨object, m₁, hobject, hb⟩ := mem_onResult.1 hb
          obtain ⟨c, m₂, hbound, hb⟩ := mem_onResult.1 hb
          obtain ⟨rfl, rfl⟩ := Prod.mk.inj (List.mem_singleton.1 hb)
          obtain ⟨W₁, μ₁, -, hg₁, -, hc₁, -⟩ := (newObject_alike hc id).of_ok hobject
          -- A method is bound to the new object, so that its body lies inside one more scope.
          have hcc₁ := hcc.mono (.refl L) hg₁ fun _ _ hS => hS.elim
          obtain ⟨W₂, μ₂, c', -, -, hc₂, hcc₂, hroutine⟩ :=
            (bindMethod_alike hc₁ hcc₁ object).of_ok hbound
          refine ⟨W₂, μ₂, c', hc₂, hcc₂, ?_⟩
          rw [hroutine]
          exact Int.ofNat.inj harity
    · simp only [if_neg harity] at hb
      cases hb

theorem call_starts (h : (Activity.call n room callee arguments).Sound L m)
    (hb : (b, m') ∈ (Activity.call n room callee arguments).starts m) : b.Sound L m' := by
  obtain ⟨W, μ, hc⟩ := h
  cases n with
  | zero => cases hb
  | succ n =>
    cases room with
    | zero => cases hb
    | succ room => exact bodyOf_sound hc hb

theorem closure_starts {c : Closure} (h : (Activity.closure n room c arguments).Sound L m)
    (hb : (b, m') ∈ (Activity.closure n room c arguments).starts m) : b.Sound L m' := by
  cases n with
  | zero => cases hb
  | succ n =>
    obtain ⟨W, μ, c', hc, hcc, hlen⟩ := h
    obtain ⟨Γ, hm, hr, -⟩ := hcc.body
    obtain ⟨hΓ, hp, hbody⟩ := (Routine.scoped_iff ..).1 hr
    obtain ⟨W₁, ρ₁, μ₁, -, -, hc₁, hm₁, ho₁⟩ := enterBody_alike hc hm hp hlen
    rw [Activity.starts] at hb
    obtain ⟨scope, m₁, hscope, hb⟩ := mem_onResult.1 hb
    obtain ⟨rfl, rfl⟩ := EStateM.Result.ok.inj hscope
    obtain ⟨rfl, rfl⟩ := Prod.mk.inj (List.mem_singleton.1 hb)
    exact ⟨W₁, μ₁, _, ρ₁, true, hc₁.atScope m.heap.size, ⟨hm₁, ho₁⟩, hΓ.push _, hbody⟩

theorem statement_starts {s : Stmt} (h : (Activity.statement n room s).Sound L m)
    (hb : (b, m') ∈ (Activity.statement n room s).starts m) : b.Sound L m' := by
  cases n with
  | zero => cases hb
  | succ n =>
    cases s with
    | expression e =>
      obtain ⟨rfl, rfl⟩ := Prod.mk.inj (List.mem_singleton.1 hb)
      exact h.evaluable fun _ Γ he => he
    | print e =>
      obtain ⟨rfl, rfl⟩ := Prod.mk.inj (List.mem_singleton.1 hb)
      exact h.evaluable fun _ Γ he => he
    | var name initializer =>
      cases initializer with
      | none => cases hb
      | some e =>
        obtain ⟨rfl, rfl⟩ := Prod.mk.inj (List.mem_singleton.1 hb)
        exact h.declared (fun _ Γ hs => hs.1) fun _ Γ hs => hs.2
    | block body =>
      rw [Activity.starts] at hb
      obtain ⟨scope, m₁, hscope, hb⟩ := mem_onResult.1 hb
      obtain ⟨rfl, rfl⟩ := Prod.mk.inj (List.mem_singleton.1 hb)
      exact h.block (fun _ Γ hs => hs) hscope
    | cond condition thenBranch elseBranch =>
      have hcond : ∀ inBody Γ, (Stmt.cond condition thenBranch elseBranch).Scoped L inBody Γ →
          condition.Scoped L Γ := by
        intro inBody Γ hs
        cases elseBranch <;> exact hs.1
      rcases List.mem_cons.1 hb with hb | hb
      · obtain ⟨rfl, rfl⟩ := Prod.mk.inj hb
        exact h.evaluable hcond
      · obtain ⟨v, m₁, hv, hb⟩ := mem_onResult.1 hb
        have h₁ := h.next hcond hv
        split at hb
        · obtain ⟨rfl, rfl⟩ := Prod.mk.inj (List.mem_singleton.1 hb)
          refine h₁.imp fun inBody Γ hs => ?_
          cases elseBranch with
          | none => exact hs.2.2
          | some s => exact hs.2.1.2
        · cases elseBranch with
          | none => cases hb
          | some s =>
            obtain ⟨rfl, rfl⟩ := Prod.mk.inj (List.mem_singleton.1 hb)
            exact h₁.imp fun _ Γ hs => hs.2.2.2
    | loop condition body =>
      obtain ⟨rfl, rfl⟩ := Prod.mk.inj (List.mem_singleton.1 hb)
      exact h
    | ret keyword value =>
      cases value with
      | none => cases hb
      | some e =>
        obtain ⟨rfl, rfl⟩ := Prod.mk.inj (List.mem_singleton.1 hb)
        exact h.evaluable fun _ Γ hs => hs.2
    | _ => cases hb

theorem statements_starts {ss : List Stmt} (h : (Activity.statements n room ss).Sound L m)
    (hb : (b, m') ∈ (Activity.statements n room ss).starts m) : b.Sound L m' := by
  cases n with
  | zero => cases hb
  | succ n =>
    cases ss with
    | nil => cases hb
    | cons s ss =>
      rcases List.mem_cons.1 hb with hb | hb
      · obtain ⟨rfl, rfl⟩ := Prod.mk.inj hb
        exact h.imp fun _ Γ hs => hs.1
      · obtain ⟨v, m₁, hv, hb⟩ := mem_onResult.1 hb
        obtain ⟨rfl, rfl⟩ := Prod.mk.inj (List.mem_singleton.1 hb)
        exact h.after (fun _ Γ hs => hs.1) (fun _ Γ hs => hs.2) hv

theorem loop_starts {condition : Expr} {body : Stmt}
    (h : (Activity.loop n room condition body).Sound L m)
    (hb : (b, m') ∈ (Activity.loop n room condition body).starts m) : b.Sound L m' := by
  cases n with
  | zero => cases hb
  | succ n =>
    rcases List.mem_cons.1 hb with hb | hb
    · obtain ⟨rfl, rfl⟩ := Prod.mk.inj hb
      exact h.evaluable fun _ Γ hs => hs.1
    · obtain ⟨v, m₁, hv, hb⟩ := mem_onResult.1 hb
      have h₁ := h.next (fun _ Γ hs => hs.1) hv
      split at hb
      · rcases List.mem_cons.1 hb with hb | hb
        · obtain ⟨rfl, rfl⟩ := Prod.mk.inj hb
          exact h₁.imp fun _ Γ hs => hs.2.2
        · obtain ⟨u, m₂, hbody, hb⟩ := mem_onResult.1 hb
          obtain ⟨rfl, rfl⟩ := Prod.mk.inj (List.mem_singleton.1 hb)
          refine h₁.after (fun _ Γ hs => hs.2.2) (fun _ Γ hs => ?_) hbody
          rw [Γ.after_of_declared?_eq_none hs.2.1]
          exact hs
      · cases hb

/-- **What a sound activity starts is sound.** -/
theorem starts {a : Activity} (h : a.Sound L m) (hb : (b, m') ∈ a.starts m) : b.Sound L m' := by
  cases a with
  | expression awaited n room e => exact expression_starts h hb
  | expressions awaited n room es => exact expressions_starts h hb
  | call n room callee arguments => exact call_starts h hb
  | closure n room c arguments => exact closure_starts h hb
  | statement n room s => exact statement_starts h hb
  | statements n room ss => exact statements_starts h hb
  | loop n room condition body => exact loop_starts h hb

end Activity.Sound

/-- Whatever a sound activity comes to is sound. -/
theorem Reaches.sound {a b : Activity} (hreach : Reaches a m b m') (h : a.Sound L m) :
    b.Sound L m' := by
  induction hreach with
  | self => exact h
  | start _ hc ih => exact ih.starts hc

/-! ### What is consulted -/

/-- The **exception**: a variable is assigned inside the expression for its first value, and its
scope does not bind it yet. -/
structure Premature (a : Activity) (use : Use) (ref : Reference) (d : Nat) (m : Machine) :
    Prop where
  write : use = .write
  awaited : ∃ name, a.awaited? = some name ∧ name.lexeme = ref.name.lexeme
  unbound : ∃ j, m.heap.ancestor? m.current d = some j ∧ m.heap.binds j ref.name.lexeme = false

section

variable {W : Placement} {μ : Lexical.State} {Γ : Scopes} {ρ : Lexical.Names} {a : Activity}
  {use : Use} {ref : Reference} {d : Nat}

/-- Lookups agree exactly when the scope at the distance binds the name, and it does unless the name
has no value yet. -/
theorem Corresponds.agree_iff (hc : Corresponds L W m μ) (hm : Mirrors W m.heap Γ m.current ρ)
    (hL : L.Unique) {state : Readiness} (hx : Γ.nearest? ref.name.lexeme = some (d, state))
    (hstate : state = .declared →
      use = .write ∧ ∃ name, a.awaited? = some name ∧ name.lexeme = ref.name.lexeme) :
    m.heap.Agree m.current d ref.name ↔ ¬ Premature a use ref d m := by
  obtain ⟨j, c, hj, -, -, hbound⟩ := hm.nearest hx
  constructor
  · rintro hagree ⟨-, -, j', hj', hb⟩
    obtain ⟨j₀, hj₀, ho⟩ := hagree.scope
    obtain rfl : j' = j₀ := Option.some.inj (hj'.symm.trans hj₀)
    rw [Heap.binds_of_owner? ho] at hb
    cases hb
  · intro hpremature
    have hb : m.heap.binds j ref.name.lexeme = true := by
      cases hstate' : state with
      | defined => exact hbound hstate'
      | declared =>
        obtain ⟨hwrite, hawaited⟩ := hstate hstate'
        refine Bool.of_not_eq_false fun hb => hpremature ⟨hwrite, hawaited, j, hj, hb⟩
    exact Heap.agree_of_owner? hj (hm.owner?_eq hc.stores hL hx hj hb)

/-- The distance of a reference is that of the nearest scope which holds its name. -/
theorem Ledger.Records.nearest? {x : String}
    (hr : L.Records ref ((Γ.nearest? x).map Prod.fst)) (hc : Corresponds L W m μ)
    (hd : m.distances[ref.id]? = some d) : ∃ state, Γ.nearest? x = some (d, state) := by
  rw [hc.distances, hr.2] at hd
  obtain ⟨⟨d', state⟩, hx, rfl⟩ := Option.map_eq_some_iff.1 hd
  exact ⟨state, hx⟩

/-- Lookups agree where a variable is read. -/
theorem Reference.ReadScoped.agree_iff (hr : ref.ReadScoped L Γ) (hc : Corresponds L W m μ)
    (hm : Mirrors W m.heap Γ m.current ρ) (hL : L.Unique) (hd : m.distances[ref.id]? = some d) :
    m.heap.Agree m.current d ref.name ↔ ¬ Premature a use ref d m := by
  obtain ⟨state, hx⟩ := hr.1.2.nearest? hc hd
  refine hc.agree_iff hm hL hx fun hstate => ?_
  rw [hstate] at hx
  exact absurd hx (hr.2 d)

/-- Lookups agree where `this` or `super` is read. -/
theorem agree_iff_of_defined {d' : Nat} (hr : L.Records ref (some d'))
    (hx : Γ.nearest? ref.name.lexeme = some (d', .defined)) (hc : Corresponds L W m μ)
    (hm : Mirrors W m.heap Γ m.current ρ) (hL : L.Unique) (hd : m.distances[ref.id]? = some d) :
    m.heap.Agree m.current d ref.name ↔ ¬ Premature a use ref d m := by
  rw [hc.distances, hr.2] at hd
  obtain rfl := Option.some.inj hd
  exact hc.agree_iff hm hL hx nofun

/-- The superclass of a class is another one, if it has a distance. -/
theorem Reference.ReadScoped.of_mark {x : String} (hr : ref.ReadScoped L (Γ.mark x .declared)) :
    ref.ReadScoped L Γ := by
  by_cases hx : ref.name.lexeme = x
  · cases Γ with
    | nil => exact hr
    | cons γ Γ =>
      refine absurd ?_ (hr.2 0)
      exact Scopes.nearest?_cons_of_get? Γ (by rw [Bindings.get?_set, if_pos hx])
  · unfold ReadScoped WriteScoped at hr ⊢
    rw [Scopes.nearest?_mark_of_ne Γ _ hx] at hr
    exact hr

/-- **Lookups agree but for the exception**, whenever a sound activity consults a reference that has
a distance. -/
theorem Activity.Sound.agree_iff (hL : L.Unique) (h : a.Sound L m)
    (hmem : (use, ref, m') ∈ a.consults m) (hd : m'.distances[ref.id]? = some d) :
    m'.heap.Agree m'.current d ref.name ↔ ¬ Premature a use ref d m' := by
  cases a with
  | expression awaited n room e =>
    cases n with
    | zero => cases hmem
    | succ n =>
      cases e with
      | «variable» ref =>
        cases List.mem_singleton.1 hmem
        obtain ⟨W, μ, Γ, ρ, hc, hm, -, hr⟩ := h
        exact hr.agree_iff hc hm hL hd
      | assign ref e =>
        obtain ⟨v, m₁, hv, hmem⟩ := mem_onResult.1 hmem
        cases List.mem_singleton.1 hmem
        -- Whether the scope binds the variable is asked after the new value is evaluated.
        obtain ⟨W, μ, Γ, ρ, hc, hm, hΓ, hr, -⟩ := h.next (fun Γ he => he.2) hv
        obtain ⟨state, hx⟩ := hr.2.nearest? hc hd
        refine hc.agree_iff hm hL hx fun hstate => ⟨rfl, ?_⟩
        rw [hstate] at hx
        exact hΓ _ d hx
      | this ref =>
        cases List.mem_singleton.1 hmem
        obtain ⟨W, μ, Γ, ρ, hc, hm, -, hname, d', hr, hx⟩ := h
        exact agree_iff_of_defined hr (hname ▸ hx) hc hm hL hd
      | super ref method =>
        cases List.mem_singleton.1 hmem
        obtain ⟨W, μ, Γ, ρ, hc, hm, -, hname, d', hr, hx, -⟩ := h
        exact agree_iff_of_defined hr (hname ▸ hx) hc hm hL hd
      | _ => cases hmem
  | statement n room s =>
    cases n with
    | zero => cases hmem
    | succ n =>
      cases s with
      | classDecl name superclass methods =>
        cases superclass with
        | none => cases hmem
        | some ref =>
          cases List.mem_singleton.1 hmem
          -- The class itself is declared by then, but it does not inherit from itself.
          obtain ⟨W, μ, Γ, ρ, inBody, hc, hin, -, -, hr, -⟩ := h
          exact hr.of_mark.agree_iff hc hin.mirrors hL hd
      | _ => cases hmem
  | _ => cases hmem

end

end

end Lox
