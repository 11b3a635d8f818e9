/-
**In the course of a run, methods mean the right objects.**

An activity is *secure* on a machine if the machine is sane, if what is evaluated or executed is
scoped at a place of that machine, and if what is run is a closure as it should be.  What a secure
activity starts is secure, on the machine that the earlier ones have left; and a secure activity
leaves a sane machine behind, however it ends.  The two are shown together, by induction on the
allowance of steps.

Main definitions:

* `Lox.AtPlace` — a place on a machine, with the scopes around it;
* `Lox.Activity.Secure` — **activities that are as they should be**.

Main results:

* `Lox.sustains` — **a secure activity keeps the machine sane**;
* `Lox.Activity.Secure.starts` — what a secure activity starts is secure;
* `Lox.Reaches.secure` — so is whatever it comes to;
* `Lox.Activity.Secure.means` — **what it makes of `this` and of `super` is right**.
-/

import Lox.Proofs.Receiver.Tables

set_option relaxedAutoImplicit false
set_option autoImplicit false

namespace Lox

/-! ### Places -/

/-- The scope in force belongs to a **place** with the given references, which asks `P` of the
scopes around it. -/
def AtPlace (E : Events) (m : Machine) (refs : List Reference) (P : Scopes → Prop) : Prop :=
  ∃ Γ, Lies E m Γ refs m.current ∧ P Γ

section

variable {E : Events} {L : Ledger} {m m' : Machine} {refs refs' : List Reference}
  {P Q : Scopes → Prop}

namespace AtPlace

/-- A part of what stands at a place. -/
theorem imp (h : AtPlace E m refs P) (hrefs : refs' ⊆ refs) (hPQ : ∀ Γ, P Γ → Q Γ) :
    AtPlace E m refs' Q := by
  obtain ⟨Γ, hlies, hP⟩ := h
  exact ⟨Γ, hlies.part hrefs, hPQ Γ hP⟩

/-- The place is still there behind a step. -/
theorem next (h : AtPlace E m refs P) (hm : Preserved E L m m') : AtPlace E m' refs P := by
  obtain ⟨Γ, hlies, hP⟩ := h
  exact ⟨Γ, hm.current ▸ hlies.mono hm.grows, hP⟩

/-- A plain name is declared at the place. -/
theorem mark (h : AtPlace E m refs P) {x : String} (hx : ∀ Γ, P Γ → IsPlain x) (state : Readiness)
    (hPQ : ∀ Γ, P Γ → Q (Γ.mark x state)) : AtPlace E m refs Q := by
  obtain ⟨Γ, hlies, hP⟩ := h
  exact ⟨Γ.mark x state, hlies.mark (hx Γ hP) state, hPQ Γ hP⟩

end AtPlace

/-- The place behind a statement. -/
theorem Lies.after {Γ : Scopes} {i : Nat} {inBody : Bool} {s : Stmt} (h : Lies E m Γ refs i)
    (hs : s.Scoped L inBody Γ) : Lies E m (Γ.after s) refs i := by
  cases s with
  | var name initializer => exact h.mark hs.1.1 .defined
  | function routine => exact h.mark hs.1.1 .defined
  | classDecl name superclass methods =>
    cases superclass <;> exact h.mark hs.1.1 .defined
  | _ => exact h

/-- The place inside a new scope. -/
theorem Lies.push {Γ : Scopes} {γ : Bindings Readiness} {i : Nat} (h : Lies E m Γ refs i)
    (hm : 0 < m.heap.size) (hγ : PlainScope γ) {b : Bindings Value} (hb : b.get? thisName = none) :
    Lies E { m with heap := m.heap.push (some i) b, current := m.heap.size } (γ :: Γ) refs
      m.heap.size := by
  have hg := (Machine.Grows.push m (some i) b).atScope m.heap.size
  have hfree : (m.heap.push (some i) b).get? m.heap.size thisName = none := by
    rw [Heap.get?_push, if_pos rfl, hb]
  exact .inner hγ hfree (Heap.enclosing?_push_self _ b (h.lt_size hm)) (h.mono hg)

end

/-! ### Secure activities -/

namespace Activity

/-- What an activity asks of the machine that it starts on. -/
def Fits (E : Events) (L : Ledger) (m : Machine) : Activity → Prop
  | .expression _ _ _ e => AtPlace E m e.selves fun Γ => e.Scoped L Γ
  | .expressions _ _ _ es => AtPlace E m (selvesOfArguments es) fun Γ => argumentsScoped L Γ es
  | .call _ _ _ _ => True
  | .closure _ _ c _ => c.Secure E L m
  | .statement _ _ s => s.owners ⊆ E.owners ∧ AtPlace E m s.selves fun Γ =>
      ∃ inBody, s.Scoped L inBody Γ
  | .statements _ _ ss => ownersOfBody ss ⊆ E.owners ∧ AtPlace E m (selvesOfBody ss) fun Γ =>
      ∃ inBody, bodyScoped L inBody Γ ss
  | .loop _ _ condition body => body.owners ⊆ E.owners ∧
      AtPlace E m (condition.selves ++ body.selves) fun Γ =>
        condition.Scoped L Γ ∧ ∃ inBody, body.Scoped L inBody Γ

/-- An activity **as it should be**: it has happened, on a sane machine that it fits. -/
structure Secure (E : Events) (L : Ledger) (a : Activity) (m : Machine) : Prop where
  happens : E.happens a m
  sane : m.Sane E L
  fits : a.Fits E L m

end Activity

/-- Every secure activity within `n` steps **keeps the machine sane**. -/
structure Sustains (E : Events) (L : Ledger) (n : Nat) : Prop where
  eval : ∀ {awaited m} (room : Nat) (e : Expr),
    (Activity.expression awaited n room e).Secure E L m → Preserves E L (eval n room e) m
  evalAll : ∀ {awaited m} (room : Nat) (es : List Expr),
    (Activity.expressions awaited n room es).Secure E L m → Preserves E L (evalAll n room es) m
  call : ∀ {m} (room : Nat) (paren : Token) (callee : Value) (arguments : List Value),
    (Activity.call n room callee arguments).Secure E L m →
    Preserves E L (call n room paren callee arguments) m
  runClosure : ∀ {m} (room : Nat) (c : Closure) (arguments : List Value),
    (Activity.closure n room c arguments).Secure E L m →
    Preserves E L (runClosure n room c arguments) m
  exec : ∀ {m} (room : Nat) (s : Stmt), (Activity.statement n room s).Secure E L m →
    Preserves E L (exec n room s) m
  execAll : ∀ {m} (room : Nat) (ss : List Stmt), (Activity.statements n room ss).Secure E L m →
    Preserves E L (execAll n room ss) m
  execLoop : ∀ {m} (room : Nat) (condition : Expr) (body : Stmt),
    (Activity.loop n room condition body).Secure E L m →
    Preserves E L (execLoop n room condition body) m

section

variable {E : Events} {L : Ledger} {n room : Nat} {awaited : Option Token} {m m' : Machine}
  {b : Activity}

/-! ### What is started -/

namespace Activity.Secure

/-- What is started first is secure, and so is what follows on its result. -/
theorem of_mem_first {α : Type} {first : Activity} {r : EStateM.Result Interrupt Machine α}
    {next : α → Machine → List (Activity × Machine)} (hfirst : first.Secure E L m)
    (hnext : ∀ v m₁, r = .ok v m₁ → (b, m') ∈ next v m₁ → b.Secure E L m')
    (hb : (b, m') ∈ (first, m) :: onResult r next) : b.Secure E L m' := by
  rcases List.mem_cons.1 hb with hb | hb
  · obtain ⟨rfl, rfl⟩ := Prod.mk.inj hb
    exact hfirst
  · obtain ⟨v, m₁, hv, hb⟩ := mem_onResult.1 hb
    exact hnext v m₁ hv hb

theorem expression_starts (ih : Sustains E L n) {e : Expr}
    (h : (Activity.expression awaited (n + 1) room e).Secure E L m)
    (hb : (b, m') ∈ (Activity.expression awaited (n + 1) room e).starts m) : b.Secure E L m' := by
  have happens := E.start h.happens hb
  cases e with
  | grouping e =>
    obtain ⟨rfl, rfl⟩ := Prod.mk.inj (List.mem_singleton.1 hb)
    exact ⟨happens, h.sane, h.fits⟩
  | unary operator e =>
    obtain ⟨rfl, rfl⟩ := Prod.mk.inj (List.mem_singleton.1 hb)
    exact ⟨happens, h.sane, h.fits.imp (fun _ hr => hr) fun Γ he => he.2⟩
  | binary left operator right =>
    have hleft : (Activity.expression awaited n room left).Secure E L m :=
      ⟨E.start h.happens (.head _), h.sane,
        h.fits.imp (List.subset_append_left ..) fun Γ he => he.2.1⟩
    refine of_mem_first hleft (fun v m₁ hv hb => ?_) hb
    obtain ⟨rfl, rfl⟩ := Prod.mk.inj (List.mem_singleton.1 hb)
    have hm := (ih.eval room left hleft).of_ok hv
    exact ⟨happens, hm.sane,
      (h.fits.next hm).imp (List.subset_append_right ..) fun Γ he => he.2.2⟩
  | logical left operator right =>
    have hleft : (Activity.expression awaited n room left).Secure E L m :=
      ⟨E.start h.happens (.head _), h.sane,
        h.fits.imp (List.subset_append_left ..) fun Γ he => he.1⟩
    refine of_mem_first hleft (fun v m₁ hv hb => ?_) hb
    split at hb
    · cases hb
    · obtain ⟨rfl, rfl⟩ := Prod.mk.inj (List.mem_singleton.1 hb)
      have hm := (ih.eval room left hleft).of_ok hv
      exact ⟨happens, hm.sane,
        (h.fits.next hm).imp (List.subset_append_right ..) fun Γ he => he.2⟩
  | assign ref e =>
    obtain ⟨rfl, rfl⟩ := Prod.mk.inj (List.mem_singleton.1 hb)
    exact ⟨happens, h.sane, h.fits.imp (fun _ hr => hr) fun Γ he => he.2⟩
  | call callee paren arguments =>
    have hcallee : (Activity.expression awaited n room callee).Secure E L m :=
      ⟨E.start h.happens (.head _), h.sane,
        h.fits.imp (List.subset_append_left ..) fun Γ he => he.1⟩
    refine of_mem_first hcallee (fun f m₁ hf hb => ?_) hb
    have hm := (ih.eval room callee hcallee).of_ok hf
    have harguments : (Activity.expressions awaited n room arguments).Secure E L m₁ := by
      refine ⟨E.start h.happens (.tail _ (mem_onResult.2 ⟨f, m₁, hf, .head _⟩)), hm.sane, ?_⟩
      exact (h.fits.next hm).imp (List.subset_append_right ..) fun Γ he => he.2
    refine of_mem_first harguments (fun vs m₂ hvs hb => ?_) hb
    obtain ⟨rfl, rfl⟩ := Prod.mk.inj (List.mem_singleton.1 hb)
    exact ⟨happens, ((ih.evalAll room arguments harguments).of_ok hvs).sane, trivial⟩
  | get object name =>
    obtain ⟨rfl, rfl⟩ := Prod.mk.inj (List.mem_singleton.1 hb)
    exact ⟨happens, h.sane, h.fits⟩
  | set object name e =>
    have hobject : (Activity.expression awaited n room object).Secure E L m :=
      ⟨E.start h.happens (.head _), h.sane,
        h.fits.imp (List.subset_append_left ..) fun Γ he => he.1⟩
    refine of_mem_first hobject (fun v m₁ hv hb => ?_) hb
    cases v with
    | object id =>
      obtain ⟨rfl, rfl⟩ := Prod.mk.inj (List.mem_singleton.1 hb)
      have hm := (ih.eval room object hobject).of_ok hv
      exact ⟨happens, hm.sane,
        (h.fits.next hm).imp (List.subset_append_right ..) fun Γ he => he.2⟩
    | _ => cases hb
  | _ => cases hb

theorem expressions_starts (ih : Sustains E L n) {es : List Expr}
    (h : (Activity.expressions awaited (n + 1) room es).Secure E L m)
    (hb : (b, m') ∈ (Activity.expressions awaited (n + 1) room es).starts m) :
    b.Secure E L m' := by
  have happens := E.start h.happens hb
  cases es with
  | nil => cases hb
  | cons e es =>
    have hfirst : (Activity.expression awaited n room e).Secure E L m :=
      ⟨E.start h.happens (.head _), h.sane,
        h.fits.imp (List.subset_append_left ..) fun Γ he => he.1⟩
    refine of_mem_first hfirst (fun v m₁ hv hb => ?_) hb
    obtain ⟨rfl, rfl⟩ := Prod.mk.inj (List.mem_singleton.1 hb)
    have hm := (ih.eval room e hfirst).of_ok hv
    exact ⟨happens, hm.sane, (h.fits.next hm).imp (List.subset_append_right ..) fun Γ he => he.2⟩

/-- What is called is a closure of the table, or a class with an initializer, which is bound to a
new object. -/
theorem bodyOf_fits {callee : Value} {arguments : List Value} (h : m.Sane E L)
    (hb : (b, m') ∈ Activity.bodyOf n room callee arguments m) :
    m'.Sane E L ∧ b.Fits E L m' := by
  unfold Activity.bodyOf at hb
  cases hf : m.callable? callee with
  | none => simp [hf] at hb
  | some f =>
    simp only [hf] at hb
    split at hb
    · cases callee with
      | closure id =>
        obtain ⟨c, hc, rfl⟩ := Option.map_eq_some_iff.1 hf
        obtain ⟨rfl, rfl⟩ := Prod.mk.inj (List.mem_singleton.1 hb)
        exact ⟨h, h.closures id c hc⟩
      | native id =>
        obtain ⟨f, -, rfl⟩ := Option.map_eq_some_iff.1 hf
        cases hb
      | cls id =>
        obtain rfl := Option.some.inj hf
        cases hinit : m.classes.findMethod id Routine.initializerName with
        | none => simp [hinit] at hb
        | some initializer =>
          simp only [hinit] at hb
          obtain ⟨object, m₁, hobject, hb⟩ := mem_onResult.1 hb
          obtain ⟨c, m₂, hbound, hb⟩ := mem_onResult.1 hb
          obtain ⟨rfl, rfl⟩ := Prod.mk.inj (List.mem_singleton.1 hb)
          exact newObject_secure h hinit hobject hbound
      | _ => cases hf
    · cases hb

theorem call_starts {callee : Value} {arguments : List Value}
    (h : (Activity.call (n + 1) room callee arguments).Secure E L m)
    (hb : (b, m') ∈ (Activity.call (n + 1) room callee arguments).starts m) :
    b.Secure E L m' := by
  have happens := E.start h.happens hb
  cases room with
  | zero => cases hb
  | succ room =>
    obtain ⟨hsane, hfits⟩ := bodyOf_fits h.sane hb
    exact ⟨happens, hsane, hfits⟩

theorem closure_starts {c : Closure} {arguments : List Value}
    (h : (Activity.closure (n + 1) room c arguments).Secure E L m)
    (hb : (b, m') ∈ (Activity.closure (n + 1) room c arguments).starts m) : b.Secure E L m' := by
  have happens := E.start h.happens hb
  rw [Activity.starts] at hb
  obtain ⟨scope, m₁, hscope, hb⟩ := mem_onResult.1 hb
  have hm := (Preserves.newScope h.sane _ _).of_ok hscope
  obtain ⟨rfl, rfl⟩ := EStateM.Result.ok.inj hscope
  obtain ⟨rfl, rfl⟩ := Prod.mk.inj (List.mem_singleton.1 hb)
  refine ⟨happens, hm.sane.atScope _, ?_⟩
  have hsecure : c.Secure E L m := h.fits
  have hlt := hsecure.scope_lt h.sane.nonempty
  refine ⟨Routine.owners_eq c.routine ▸ hsecure.owners_subset, ?_⟩
  rw [← Routine.selves_eq]
  cases hsecure with
  | function hdeclared hlies hscoped howners =>
    obtain ⟨-, hparams, hbody⟩ := (Routine.scoped_iff ..).1 hscoped
    have hfree := hparams.get?_eq_none arguments not_isPlain_this
    exact ⟨_, hlies.push h.sane.nonempty hparams.plainScope hfree, true, hbody⟩
  | method hbound hlies hscoped =>
    obtain ⟨-, hparams, hbody⟩ := (Routine.scoped_iff ..).1 hscoped
    have hg := hm.grows.atScope m.heap.size
    refine ⟨_, .method hparams.plainScope ?_ ⟨n, room, arguments, m, h.happens, rfl⟩ ?_
      (hbound.mono hg) (fun _ hr => hr) (hlies.mono hg), true, hbody⟩
    · change (Heap.push ..).get? m.heap.size thisName = none
      rw [Heap.get?_push, if_pos rfl, hparams.get?_eq_none arguments not_isPlain_this]
    · exact Heap.enclosing?_push_self _ _ hlt

theorem statement_starts (ih : Sustains E L n) {s : Stmt}
    (h : (Activity.statement (n + 1) room s).Secure E L m)
    (hb : (b, m') ∈ (Activity.statement (n + 1) room s).starts m) : b.Secure E L m' := by
  have happens := E.start h.happens hb
  obtain ⟨howners, hplace⟩ := h.fits
  cases s with
  | expression e =>
    obtain ⟨rfl, rfl⟩ := Prod.mk.inj (List.mem_singleton.1 hb)
    exact ⟨happens, h.sane, hplace.imp (fun _ hr => hr) fun Γ ⟨_, hs⟩ => hs⟩
  | print e =>
    obtain ⟨rfl, rfl⟩ := Prod.mk.inj (List.mem_singleton.1 hb)
    exact ⟨happens, h.sane, hplace.imp (fun _ hr => hr) fun Γ ⟨_, hs⟩ => hs⟩
  | var name initializer =>
    cases initializer with
    | none => cases hb
    | some e =>
      obtain ⟨rfl, rfl⟩ := Prod.mk.inj (List.mem_singleton.1 hb)
      exact ⟨happens, h.sane,
        hplace.mark (fun Γ ⟨_, hs⟩ => hs.1.1) .declared fun Γ ⟨_, hs⟩ => hs.2⟩
  | block body =>
    rw [Activity.starts] at hb
    obtain ⟨scope, m₁, hscope, hb⟩ := mem_onResult.1 hb
    have hm := (Preserves.newScope h.sane _ _).of_ok hscope
    obtain ⟨rfl, rfl⟩ := EStateM.Result.ok.inj hscope
    obtain ⟨rfl, rfl⟩ := Prod.mk.inj (List.mem_singleton.1 hb)
    obtain ⟨Γ, hlies, inBody, hbody⟩ := hplace
    have hplain : PlainScope .empty := fun _ _ => rfl
    exact ⟨happens, hm.sane.atScope _, howners, _, hlies.push h.sane.nonempty hplain rfl, inBody,
      hbody⟩
  | cond condition thenBranch elseBranch =>
    have hcondition : (Activity.expression none n room condition).Secure E L m := by
      refine ⟨E.start h.happens (.head _), h.sane, ?_⟩
      cases elseBranch with
      | none => exact hplace.imp (List.subset_append_left ..) fun Γ ⟨_, hs⟩ => hs.1
      | some s =>
        refine hplace.imp ?_ fun Γ ⟨_, hs⟩ => hs.1
        exact fun _ hr => List.mem_append_left _ (List.mem_append_left _ hr)
    refine of_mem_first hcondition (fun v m₁ hv hb => ?_) hb
    have hm := (ih.eval room condition hcondition).of_ok hv
    split at hb
    · obtain ⟨rfl, rfl⟩ := Prod.mk.inj (List.mem_singleton.1 hb)
      refine ⟨happens, hm.sane, ?_⟩
      cases elseBranch with
      | none =>
        refine ⟨howners, (hplace.next hm).imp (List.subset_append_right ..) ?_⟩
        exact fun Γ ⟨i, hs⟩ => ⟨i, hs.2.2⟩
      | some s =>
        refine ⟨fun _ hw => howners (List.mem_append_left _ hw), ?_⟩
        refine (hplace.next hm).imp ?_ fun Γ ⟨i, hs⟩ => ⟨i, hs.2.1.2⟩
        exact fun _ hr => List.mem_append_left _ (List.mem_append_right _ hr)
    · cases elseBranch with
      | none => cases hb
      | some s =>
        obtain ⟨rfl, rfl⟩ := Prod.mk.inj (List.mem_singleton.1 hb)
        refine ⟨happens, hm.sane, fun _ hw => howners (List.mem_append_right _ hw), ?_⟩
        exact (hplace.next hm).imp (List.subset_append_right ..)
          fun Γ ⟨i, hs⟩ => ⟨i, hs.2.2.2⟩
  | loop condition body =>
    obtain ⟨rfl, rfl⟩ := Prod.mk.inj (List.mem_singleton.1 hb)
    exact ⟨happens, h.sane, howners,
      hplace.imp (fun _ hr => hr) fun Γ ⟨i, hs⟩ => ⟨hs.1, i, hs.2.2⟩⟩
  | ret keyword value =>
    cases value with
    | none => cases hb
    | some e =>
      obtain ⟨rfl, rfl⟩ := Prod.mk.inj (List.mem_singleton.1 hb)
      exact ⟨happens, h.sane, hplace.imp (fun _ hr => hr) fun Γ ⟨_, hs⟩ => hs.2⟩
  | _ => cases hb

theorem statements_starts (ih : Sustains E L n) {ss : List Stmt}
    (h : (Activity.statements (n + 1) room ss).Secure E L m)
    (hb : (b, m') ∈ (Activity.statements (n + 1) room ss).starts m) : b.Secure E L m' := by
  have happens := E.start h.happens hb
  obtain ⟨howners, hplace⟩ := h.fits
  cases ss with
  | nil => cases hb
  | cons s ss =>
    have hfirst : (Activity.statement n room s).Secure E L m :=
      ⟨E.start h.happens (.head _), h.sane, fun _ hw => howners (List.mem_append_left _ hw),
        hplace.imp (List.subset_append_left ..) fun Γ ⟨i, hs⟩ => ⟨i, hs.1⟩⟩
    refine of_mem_first hfirst (fun _ m₁ hs hb => ?_) hb
    obtain ⟨rfl, rfl⟩ := Prod.mk.inj (List.mem_singleton.1 hb)
    have hm := (ih.exec room s hfirst).of_ok hs
    obtain ⟨Γ, hlies, inBody, hscoped, hrest⟩ := hplace.next hm
    refine ⟨happens, hm.sane, fun _ hw => howners (List.mem_append_right _ hw), Γ.after s, ?_,
      inBody, hrest⟩
    exact (hlies.after hscoped).part (List.subset_append_right ..)

theorem loop_starts (ih : Sustains E L n) {condition : Expr} {body : Stmt}
    (h : (Activity.loop (n + 1) room condition body).Secure E L m)
    (hb : (b, m') ∈ (Activity.loop (n + 1) room condition body).starts m) : b.Secure E L m' := by
  have happens := E.start h.happens hb
  obtain ⟨howners, hplace⟩ := h.fits
  have hcondition : (Activity.expression none n room condition).Secure E L m :=
    ⟨E.start h.happens (.head _), h.sane,
      hplace.imp (List.subset_append_left ..) fun Γ hs => hs.1⟩
  refine of_mem_first hcondition (fun v m₁ hv hb => ?_) hb
  have hm := (ih.eval room condition hcondition).of_ok hv
  split at hb
  · rename_i htrue
    have hbody : (Activity.statement n room body).Secure E L m₁ := by
      refine ⟨E.start h.happens (.tail _ (mem_onResult.2 ⟨v, m₁, hv, ?_⟩)), hm.sane, howners, ?_⟩
      · rw [if_pos htrue]
        exact .head _
      · exact (hplace.next hm).imp (List.subset_append_right ..) fun Γ hs => hs.2
    refine of_mem_first hbody (fun _ m₂ hs hb => ?_) hb
    obtain ⟨rfl, rfl⟩ := Prod.mk.inj (List.mem_singleton.1 hb)
    have hm₂ := (ih.exec room body hbody).of_ok hs
    exact ⟨happens, hm₂.sane, howners, (hplace.next hm).next hm₂⟩
  · cases hb

end Activity.Secure

/-! ### What is left behind -/

theorem eval_sustains (ih : Sustains E L n) (e : Expr)
    (h : (Activity.expression awaited (n + 1) room e).Secure E L m) :
    Preserves E L (eval (n + 1) room e) m := by
  have hstart : ∀ {b m'}, (b, m') ∈ (Activity.expression awaited (n + 1) room e).starts m →
      b.Secure E L m' := h.expression_starts ih
  cases e with
  | literal value => exact .pure h.sane _
  | grouping e => exact ih.eval room e (hstart (.head _))
  | unary operator e =>
    exact (ih.eval room e (hstart (.head _))).bind fun v m₁ _ hm₁ => .ofOperator hm₁.sane _
  | binary left operator right =>
    refine (ih.eval room left (hstart (.head _))).bind fun v m₁ hv _ => ?_
    have hright := hstart (.tail _ (mem_onResult.2 ⟨v, m₁, hv, .head _⟩))
    exact (ih.eval room right hright).bind fun w m₂ _ hm₂ => .ofOperator hm₂.sane _
  | logical left operator right =>
    refine (ih.eval room left (hstart (.head _))).bind fun v m₁ hv hm₁ => ?_
    by_cases hsettled : (v.isTruthy == (operator.kind == .keyword .or)) = true
    · rw [if_pos hsettled]
      exact .pure hm₁.sane v
    · rw [if_neg hsettled]
      have hright : (Activity.expression awaited n room right).Secure E L m₁ := by
        refine hstart (.tail _ (mem_onResult.2 ⟨v, m₁, hv, ?_⟩))
        rw [if_neg hsettled]
        exact .head _
      exact ih.eval room right hright
  | «variable» ref => exact .lookUp h.sane ref
  | assign ref e =>
    obtain ⟨_, _, hwrite, _⟩ := h.fits
    refine (ih.eval room e (hstart (.head _))).bind fun v m₁ _ hm₁ => ?_
    refine (Preserves.targetOf hm₁.sane ref).bind fun scope m₂ _ hm₂ => ?_
    exact (Preserves.store hm₂.sane scope hwrite.1 v).bind fun _ m₃ _ hm₃ => .pure hm₃.sane v
  | call callee paren arguments =>
    refine (ih.eval room callee (hstart (.head _))).bind fun f m₁ hf _ => ?_
    have harguments := hstart (.tail _ (mem_onResult.2 ⟨f, m₁, hf, .head _⟩))
    refine (ih.evalAll room arguments harguments).bind fun vs m₂ hvs _ => ?_
    refine ih.call room paren f vs (hstart ?_)
    exact .tail _ (mem_onResult.2 ⟨f, m₁, hf, .tail _ (mem_onResult.2 ⟨vs, m₂, hvs, .head _⟩)⟩)
  | get object name =>
    refine (ih.eval room object (hstart (.head _))).bind fun v m₁ _ hm₁ => ?_
    cases v with
    | object id => exact .getProperty hm₁.sane id name
    | _ => exact .throw hm₁.sane _
  | set object name e =>
    refine (ih.eval room object (hstart (.head _))).bind fun v m₁ hv hm₁ => ?_
    cases v with
    | object id =>
      have hvalue := hstart (.tail _ (mem_onResult.2 ⟨_, m₁, hv, .head _⟩))
      refine (ih.eval room e hvalue).bind fun w m₂ _ hm₂ => ?_
      exact (Preserves.setField hm₂.sane id _ w).bind fun _ m₃ _ hm₃ => .pure hm₃.sane w
    | _ => exact .throw hm₁.sane _
  | this ref => exact .lookUp h.sane ref
  | super ref method =>
    obtain ⟨Γ, hlies, hscoped⟩ := h.fits
    obtain ⟨d, c, x, o, p, hact, -, hd, hsup⟩ :=
      super_activation h.sane hlies hscoped (List.mem_singleton.2 rfl)
    exact .superMethod h.sane hact hsup hd method
  | hole hole => exact .throw h.sane _

theorem evalAll_sustains (ih : Sustains E L n) (es : List Expr)
    (h : (Activity.expressions awaited (n + 1) room es).Secure E L m) :
    Preserves E L (evalAll (n + 1) room es) m := by
  cases es with
  | nil => exact .pure h.sane []
  | cons e es =>
    refine (ih.eval room e (h.expressions_starts ih (.head _))).bind fun v m₁ hv _ => ?_
    have hrest := h.expressions_starts ih (.tail _ (mem_onResult.2 ⟨v, m₁, hv, .head _⟩))
    exact (ih.evalAll room es hrest).bind fun vs m₂ _ hm₂ => .pure hm₂.sane _

theorem call_sustains (ih : Sustains E L n) (paren : Token) (callee : Value)
    (arguments : List Value) (h : (Activity.call (n + 1) room callee arguments).Secure E L m) :
    Preserves E L (call (n + 1) room paren callee arguments) m := by
  rw [call]
  refine .inspect ?_
  cases hf : m.callable? callee with
  | none => exact .throw h.sane _
  | some f =>
    by_cases harity : (arguments.length : Int) = f.arity
    · simp only [if_pos harity]
      cases room with
      | zero => exact .throw h.sane _
      | succ room =>
        cases f with
        | native f => exact .callNative h.sane f arguments
        | closure c =>
          refine ih.runClosure room c arguments (h.call_starts ?_)
          simp [Activity.starts, Activity.bodyOf, hf, harity]
        | cls id initializer =>
          cases initializer with
          | none => exact .newObject h.sane id
          | some initializer =>
            refine (Preserves.newObject h.sane id).bind fun object m₁ hobject hm₁ => ?_
            refine (Preserves.bindMethod hm₁.sane initializer object).bind fun c m₂ hc _ => ?_
            refine (ih.runClosure room c arguments (h.call_starts ?_)).bind
              fun _ m₃ _ hm₃ => .pure hm₃.sane object
            simp only [Activity.starts, Activity.bodyOf, hf, if_pos harity, mem_onResult]
            exact ⟨object, m₁, hobject, c, m₂, hc, .head _⟩
    · simp only [if_neg harity]
      exact .throw h.sane _

theorem runClosure_sustains (ih : Sustains E L n) (c : Closure) (arguments : List Value)
    (h : (Activity.closure (n + 1) room c arguments).Secure E L m) :
    Preserves E L (runClosure (n + 1) room c arguments) m := by
  refine (Preserves.newScope h.sane c.scope _).bind fun scope m₁ hscope _ => ?_
  have hstart : (Activity.statements n room c.routine.body, { m₁ with current := scope }) ∈
      (Activity.closure (n + 1) room c arguments).starts m := by
    rw [Activity.starts]
    exact mem_onResult.2 ⟨scope, m₁, hscope, .head _⟩
  have hbody := ih.execAll room c.routine.body (h.closure_starts hstart)
  refine hbody.within.catchReturn.bind fun v m₂ _ hm₂ => ?_
  cases c.isInitializer with
  | false => exact .pure hm₂.sane v
  | true => exact .inspect (.ofDistance hm₂.sane _)

theorem exec_sustains (ih : Sustains E L n) (s : Stmt)
    (h : (Activity.statement (n + 1) room s).Secure E L m) :
    Preserves E L (exec (n + 1) room s) m := by
  have hstart : ∀ {b m'}, (b, m') ∈ (Activity.statement (n + 1) room s).starts m →
      b.Secure E L m' := h.statement_starts ih
  cases s with
  | expression e =>
    exact (ih.eval room e (hstart (.head _))).bind fun _ m₁ _ hm₁ => .pure hm₁.sane ()
  | print e =>
    exact (ih.eval room e (hstart (.head _))).bind fun v m₁ _ hm₁ =>
      .inspect (.print hm₁.sane _)
  | var name initializer =>
    obtain ⟨-, Γ, -, inBody, hd, -⟩ := h.fits
    cases initializer with
    | none => exact .define h.sane hd.1 .nil
    | some e =>
      exact (ih.eval room e (hstart (.head _))).bind fun v m₁ _ hm₁ =>
        .define hm₁.sane hd.1 v
  | block body =>
    refine .inspect ((Preserves.newScope h.sane m.current _).bind fun scope m₁ hscope _ => ?_)
    have hblock : (Activity.statements n room body, { m₁ with current := scope }) ∈
        (Activity.statement (n + 1) room (.block body)).starts m := by
      rw [Activity.starts]
      exact mem_onResult.2 ⟨scope, m₁, hscope, .head _⟩
    exact (ih.execAll room body (hstart hblock)).within
  | cond condition thenBranch elseBranch =>
    refine (ih.eval room condition (hstart (.head _))).bind fun v m₁ hv hm₁ => ?_
    by_cases hv' : v.isTruthy = true
    · rw [if_pos hv']
      refine ih.exec room thenBranch (hstart (.tail _ (mem_onResult.2 ⟨v, m₁, hv, ?_⟩)))
      rw [if_pos hv']
      exact .head _
    · rw [if_neg hv']
      cases elseBranch with
      | none => exact .pure hm₁.sane ()
      | some s =>
        refine ih.exec room s (hstart (.tail _ (mem_onResult.2 ⟨v, m₁, hv, ?_⟩)))
        rw [if_neg hv']
        exact .head _
  | loop condition body => exact ih.execLoop room condition body (hstart (.head _))
  | function routine =>
    obtain ⟨howners, Γ, hlies, inBody, hd, hscoped⟩ := h.fits
    have hsecure : Closure.Secure E L m ⟨routine, m.current, false⟩ :=
      .function ⟨n, room, m, h.happens, rfl⟩ (hlies.mark hd.1 .defined) hscoped howners
    refine .inspect ((Preserves.newClosure h.sane hsecure).bind fun f m₁ _ hm₁ => ?_)
    exact .define hm₁.sane hd.1 f
  | ret keyword value =>
    cases value with
    | none => exact .throw h.sane _
    | some e =>
      exact (ih.eval room e (hstart (.head _))).bind fun v m₁ _ hm₁ => .throw hm₁.sane _
  | classDecl name superclass methods =>
    obtain ⟨howners, Γ, hlies, inBody, hscoped⟩ := h.fits
    exact Preserves.declareClass (C := ⟨name, superclass, methods⟩) h.sane h.happens hlies hscoped
      howners

theorem execAll_sustains (ih : Sustains E L n) (ss : List Stmt)
    (h : (Activity.statements (n + 1) room ss).Secure E L m) :
    Preserves E L (execAll (n + 1) room ss) m := by
  cases ss with
  | nil => exact .pure h.sane ()
  | cons s ss =>
    refine (ih.exec room s (h.statements_starts ih (.head _))).bind fun _ m₁ hs _ => ?_
    have hrest := h.statements_starts ih (.tail _ (mem_onResult.2 ⟨_, m₁, hs, .head _⟩))
    exact ih.execAll room ss hrest

theorem execLoop_sustains (ih : Sustains E L n) (condition : Expr) (body : Stmt)
    (h : (Activity.loop (n + 1) room condition body).Secure E L m) :
    Preserves E L (execLoop (n + 1) room condition body) m := by
  refine (ih.eval room condition (h.loop_starts ih (.head _))).bind fun v m₁ hv hm₁ => ?_
  by_cases hv' : v.isTruthy = true
  · have hround : ∀ {b m'}, (b, m') ∈ ((.statement n room body, m₁) ::
        onResult (exec n room body m₁) fun _ m => [(Activity.loop n room condition body, m)]) →
        b.Secure E L m' := by
      intro b m' hb
      refine h.loop_starts ih (.tail _ (mem_onResult.2 ⟨v, m₁, hv, ?_⟩))
      rw [if_pos hv']
      exact hb
    rw [if_pos hv']
    refine (ih.exec room body (hround (.head _))).bind fun _ m₂ hbody _ => ?_
    exact ih.execLoop room condition body
      (hround (.tail _ (mem_onResult.2 ⟨_, m₂, hbody, .head _⟩)))
  · rw [if_neg hv']
    exact .pure hm₁.sane ()

end

/-- **A secure activity keeps the machine sane**, within any allowance. -/
theorem sustains (E : Events) (L : Ledger) (n : Nat) : Sustains E L n := by
  induction n with
  | zero =>
    exact
      { eval := fun _ _ h => .throw h.sane _
        evalAll := fun _ _ h => .throw h.sane _
        call := fun _ _ _ _ h => .throw h.sane _
        runClosure := fun _ _ _ h => .throw h.sane _
        exec := fun _ _ h => .throw h.sane _
        execAll := fun _ _ h => .throw h.sane _
        execLoop := fun _ _ _ h => .throw h.sane _ }
  | succ n ih =>
    exact
      { eval := fun _ => eval_sustains ih
        evalAll := fun _ => evalAll_sustains ih
        call := fun _ => call_sustains ih
        runClosure := fun _ => runClosure_sustains ih
        exec := fun _ => exec_sustains ih
        execAll := fun _ => execAll_sustains ih
        execLoop := fun _ => execLoop_sustains ih }

section

variable {E : Events} {L : Ledger} {a b : Activity} {m m' : Machine}

/-- **What a secure activity starts is secure.** -/
theorem Activity.Secure.starts (h : a.Secure E L m) (hb : (b, m') ∈ a.starts m) :
    b.Secure E L m' := by
  cases a with
  | expression awaited n room e =>
    cases n with
    | zero => cases hb
    | succ n => exact h.expression_starts (sustains E L n) hb
  | expressions awaited n room es =>
    cases n with
    | zero => cases hb
    | succ n => exact h.expressions_starts (sustains E L n) hb
  | call n room callee arguments =>
    cases n with
    | zero => cases hb
    | succ n => exact h.call_starts hb
  | closure n room c arguments =>
    cases n with
    | zero => cases hb
    | succ n => exact h.closure_starts hb
  | statement n room s =>
    cases n with
    | zero => cases hb
    | succ n => exact h.statement_starts (sustains E L n) hb
  | statements n room ss =>
    cases n with
    | zero => cases hb
    | succ n => exact h.statements_starts (sustains E L n) hb
  | loop n room condition body =>
    cases n with
    | zero => cases hb
    | succ n => exact h.loop_starts (sustains E L n) hb

/-- **What a secure activity makes of `this` and of `super` is right.** -/
theorem Activity.Secure.means {awaited : Option Token} {n room : Nat} {e : Expr}
    (h : (Activity.expression awaited n room e).Secure E L m) :
    (∀ ref, e = .this ref → ∃ C, (ref, C) ∈ E.owners ∧ ref.MeansObject E m C) ∧
      ∀ ref method, e = .super ref method →
        ∃ C, (ref, C) ∈ E.owners ∧ ref.MeansSuperclass E m C method := by
  obtain ⟨Γ, hlies, hscoped⟩ := h.fits
  constructor
  · rintro ref rfl
    exact this_means h.sane hlies hscoped (List.mem_singleton.2 rfl)
  · rintro ref method rfl
    exact super_means h.sane hlies hscoped (List.mem_singleton.2 rfl) method

/-- Whatever a secure activity comes to is secure. -/
theorem Reaches.secure (hreach : Reaches a m b m') (h : a.Secure E L m) : b.Secure E L m' := by
  induction hreach with
  | self => exact h
  | start _ hc ih => exact ih.starts hc

end

end Lox
