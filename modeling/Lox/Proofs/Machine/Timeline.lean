/-
**The machines in the course of a run.**

A run comes through many machines: those on which its activities start, and those that they leave.
In their order these are the *timeline* of the run.  Each machine on it has the shape of a machine
and has grown out of every earlier one, however the run ends and whatever the trees and distances
are.

Main definitions:

* `Lox.Activity.leaves` — the machine that an activity leaves behind;
* `Lox.Activity.Supplied` — what an activity is given is there;
* `Lox.Strung` — activities that start **one after the other**;
* `Lox.Proceeds` — a step that keeps the shape of a machine and starts the given activities;
* `Lox.Keeping` — **within so many steps, everything keeps the shape**;
* `Lox.Activity.timeline` — **the machines in the course of a run**, in their order;
* `Lox.InOrder` — machines of which each has grown out of the earlier ones.

Main results:

* `Lox.Proceeds.bind`, `Lox.Proceeds.followed` — steps put together;
* `Lox.keeping` — **every activity keeps the shape**;
* `Lox.Activity.strung` — an activity starts others one after the other;
* `Lox.Activity.timeline_inOrder` — **the machines of a timeline are in order**.
-/

import Lox.Proofs.Machine.Activity
import Lox.Proofs.Machine.Steps

set_option relaxedAutoImplicit false
set_option autoImplicit false

namespace Lox

/-! ### One activity after the other -/

namespace Activity

/-- The machine that an activity **leaves behind**.  The token that the mistakes of a call are
reported at is of no consequence. -/
def leaves : Activity → Machine → Machine
  | .expression _ n room e, m => Run.after (eval n room e) m
  | .expressions _ n room es, m => Run.after (evalAll n room es) m
  | .call n room callee arguments, m =>
    Run.after (Lox.call n room (Token.endMark 0) callee arguments) m
  | .closure n room c arguments, m => Run.after (runClosure n room c arguments) m
  | .statement n room s, m => Run.after (exec n room s) m
  | .statements n room ss, m => Run.after (execAll n room ss) m
  | .loop n room condition body, m => Run.after (execLoop n room condition body) m

/-- What an activity is given **is there**. -/
def Supplied (m : Machine) : Activity → Prop
  | .call _ _ callee arguments => callee.Exists m ∧ AllThere m arguments
  | .closure _ _ c arguments => c.scope < m.heap.size ∧ AllThere m arguments
  | _ => True

end Activity

theorem after_call (n room : Nat) (paren paren' : Token) (callee : Value)
    (arguments : List Value) (m : Machine) :
    Run.after (call n room paren callee arguments) m =
      Run.after (call n room paren' callee arguments) m := by
  cases n with
  | zero => rfl
  | succ n =>
    unfold Run.after
    simp only [call, get_bind]
    cases m.callable? callee with
    | none => rfl
    | some f =>
      by_cases harity : (arguments.length : Int) = f.arity
      · simp only [if_pos harity]
        cases room with
        | zero => rfl
        | succ room =>
          cases f with
          | closure c => rfl
          | native f => rfl
          | cls id initializer => cases initializer <;> rfl
      · simp only [if_neg harity]
        rfl

/-- Activities start **one after the other** between two machines, each on a machine that has grown
out of the one that was left before. -/
inductive Strung : Machine → List (Activity × Machine) → Machine → Prop
  | nil {m m' : Machine} (h : m.LeadsTo m') : Strung m [] m'
  | cons {m m₁ m' : Machine} {b : Activity} {L : List (Activity × Machine)} (h : m.LeadsTo m₁)
      (hsupplied : b.Supplied m₁) (hb : m₁.LeadsTo (b.leaves m₁))
      (rest : Strung (b.leaves m₁) L m') :
      Strung m ((b, m₁) :: L) m'

/-- A step **keeps the shape** of a machine and starts the given activities, one after the other. -/
structure Proceeds {α : Type} (Q : Machine → α → Prop) (L : List (Activity × Machine))
    (step : Run α) (m : Machine) : Prop where
  keeps : Keeps Q step m
  strung : Strung m L (Run.after step m)

namespace Strung

variable {m m' m'' : Machine} {L L' : List (Activity × Machine)}

/-- One course of activities behind another. -/
theorem append (h : Strung m L m') (h' : Strung m' L' m'') : Strung m (L ++ L') m'' := by
  induction h with
  | nil h =>
    cases h' with
    | nil h' => exact .nil (h.trans h')
    | cons hm₁ hsupplied hb rest => exact .cons (h.trans hm₁) hsupplied hb rest
  | cons hm₁ hsupplied hb _ ih => exact .cons hm₁ hsupplied hb (ih h')

/-- The last machine has come out of the first. -/
theorem leadsTo (h : Strung m L m') : m.LeadsTo m' := by
  induction h with
  | nil h => exact h
  | cons hm₁ _ hb _ ih => exact (hm₁.trans hb).trans ih

/-- Steps that start nothing may follow. -/
theorem followed (h : Strung m L m') (h' : m'.LeadsTo m'') : Strung m L m'' :=
  L.append_nil ▸ h.append (.nil h')

end Strung

namespace Proceeds

variable {α β : Type} {P Q : Machine → α → Prop} {R : Machine → β → Prop} {m : Machine}
  {step : Run α} {next : α → Run β} {b : Activity} {L : List (Activity × Machine)}

/-- A step that starts nothing. -/
theorem quiet (h : Keeps Q step m) : Proceeds Q [] step m := ⟨h, .nil h.leadsTo⟩

/-- The machine at hand may be inspected. -/
theorem inspect {next : Machine → Run α} (h : Proceeds Q L (next m) m) :
    Proceeds Q L (get >>= next) m := ⟨h.keeps, h.strung⟩

/-- A step that is an activity itself. -/
theorem only (hm : m.WellShaped) (hsupplied : b.Supplied m) (hb : b.leaves m = Run.after step m)
    (h : Keeps Q step m) : Proceeds Q [(b, m)] step m := by
  refine ⟨h, .cons (.refl hm) hsupplied (hb ▸ h.leadsTo) (.nil ?_)⟩
  rw [hb]
  exact .refl h.leadsTo.shape

/-- Steps put together. -/
theorem bind {L' : α → Machine → List (Activity × Machine)} (h : Proceeds P L step m)
    (hnext : ∀ a m', m.LeadsTo m' → P m' a → Proceeds R (L' a m') (next a) m') :
    Proceeds R (L ++ onResult (step m) L') (step >>= next) m := by
  refine ⟨h.keeps.bind fun a m' hm' ha => (hnext a m' hm' ha).keeps, ?_⟩
  have hstrung := h.strung
  unfold Run.after at hstrung ⊢
  cases hstep : step m with
  | ok a m' =>
    obtain ⟨hm', ha⟩ := h.keeps.of_ok hstep
    rw [hstep] at hstrung
    rw [bind_ok hstep]
    exact hstrung.append (hnext a m' hm' ha).strung
  | error i m' =>
    rw [hstep] at hstrung
    rw [bind_error hstep]
    rw [onResult, List.append_nil]
    exact hstrung

/-- A step that starts nothing itself, and what follows on its result. -/
theorem behind {L' : α → Machine → List (Activity × Machine)} (h : Keeps P step m)
    (hnext : ∀ a m', m.LeadsTo m' → P m' a → Proceeds R (L' a m') (next a) m') :
    Proceeds R (onResult (step m) L') (step >>= next) m :=
  (quiet h).bind hnext

/-- A step behind which nothing is started. -/
theorem followed (h : Proceeds P L step m)
    (hnext : ∀ a m', m.LeadsTo m' → P m' a → Keeps R (next a) m') :
    Proceeds R L (step >>= next) m :=
  ⟨h.keeps.bind hnext, h.strung.followed (h.keeps.after_bind hnext)⟩

/-- What a body returns is there. -/
theorem catchReturn {step : Run Unit} (h : Proceeds Regardless L step m) :
    Proceeds There L (Run.catchReturn step) m := by
  refine ⟨h.keeps.catchReturn, ?_⟩
  have hafter : Run.after (Run.catchReturn step) m = Run.after step m := by
    unfold Run.after Run.catchReturn
    cases step m with
    | ok a m' => rfl
    | error i m' => cases i <;> rfl
  rw [hafter]
  exact h.strung

/-- Statements in a scope of their own. -/
theorem inScope {n room : Nat} {ss : List Stmt} {i : Nat} (hm : m.WellShaped)
    (hi : i < m.heap.size) (h : Keeps Regardless (execAll n room ss) { m with current := i }) :
    Proceeds Regardless (Activity.inScope n room ss i m) (Run.within i (execAll n room ss)) m := by
  refine ⟨h.within hm, .cons (.atScope hm hi) trivial h.leadsTo (.nil ?_)⟩
  have hscope : m.current < (Run.after (execAll n room ss) { m with current := i }).heap.size :=
    Nat.lt_of_lt_of_le hm.current h.leadsTo.growth.scopes.size_le
  have hback : Run.after (Run.within i (execAll n room ss)) m =
      { Run.after (execAll n room ss) { m with current := i } with current := m.current } := by
    unfold Run.after Run.within
    dsimp only
    cases execAll n room ss { m with current := i } <;> rfl
  rw [hback]
  exact .atScope h.leadsTo.shape hscope

end Proceeds

/-! ### Every activity -/

namespace Machine

/-- What is called **is there**, with its scope. -/
def Callable.Sound (m : Machine) : Callable → Prop
  | .closure c => c.scope < m.heap.size
  | .native f => f.Honest
  | .cls id initializer =>
    id < m.classes.entries.size ∧ ∀ c, initializer = some c → c.scope < m.heap.size

theorem WellShaped.callable? {m : Machine} (hm : m.WellShaped) {callee : Value}
    (hcallee : callee.Exists m) {f : Callable} (hf : m.callable? callee = some f) : f.Sound m := by
  cases callee with
  | closure id =>
    obtain ⟨c, hc, rfl⟩ := Option.map_eq_some_iff.1 hf
    exact hm.closures id c hc
  | native id =>
    obtain ⟨g, hg, rfl⟩ := Option.map_eq_some_iff.1 hf
    exact hm.natives id g hg
  | cls id =>
    obtain rfl := Option.some.inj hf
    exact ⟨hcallee, fun c hc => hm.findMethod hc⟩
  | _ => cases hf

end Machine

/-- Within `n` steps, all that a program does **keeps the shape** of a machine. -/
structure Keeping (n : Nat) : Prop where
  eval : ∀ {m : Machine}, m.WellShaped → ∀ room e, Keeps There (eval n room e) m
  evalAll : ∀ {m : Machine}, m.WellShaped → ∀ room es, Keeps AllThere (evalAll n room es) m
  call : ∀ {m : Machine}, m.WellShaped → ∀ room paren {callee arguments}, callee.Exists m →
    AllThere m arguments → Keeps There (call n room paren callee arguments) m
  runClosure : ∀ {m : Machine}, m.WellShaped → ∀ room {c : Closure} {arguments},
    c.scope < m.heap.size → AllThere m arguments → Keeps There (runClosure n room c arguments) m
  exec : ∀ {m : Machine}, m.WellShaped → ∀ room s, Keeps Regardless (exec n room s) m
  execAll : ∀ {m : Machine}, m.WellShaped → ∀ room ss, Keeps Regardless (execAll n room ss) m
  execLoop : ∀ {m : Machine}, m.WellShaped → ∀ room condition body,
    Keeps Regardless (execLoop n room condition body) m

namespace Keeping

open Proceeds

variable {n : Nat} {m : Machine}

/-! Each function, within one step more, starts what its activity starts. -/

/-- An expression that is evaluated for its value. -/
theorem operand (ih : Keeping n) (hm : m.WellShaped) (awaited : Option Token) (room : Nat)
    (e : Expr) : Proceeds There [(.expression awaited n room e, m)] (Lox.eval n room e) m :=
  only hm trivial rfl (ih.eval hm room e)

/-- A statement that is executed. -/
theorem statement (ih : Keeping n) (hm : m.WellShaped) (room : Nat) (s : Stmt) :
    Proceeds Regardless [(.statement n room s, m)] (Lox.exec n room s) m :=
  only hm trivial rfl (ih.exec hm room s)

theorem eval_proceeds (ih : Keeping n) (hm : m.WellShaped) (awaited : Option Token) (room : Nat)
    (e : Expr) :
    Proceeds There (Activity.starts (.expression awaited (n + 1) room e) m)
      (Lox.eval (n + 1) room e) m := by
  cases e with
  | literal value => exact quiet (.pure hm (by cases value <;> trivial))
  | grouping e => exact ih.operand hm awaited room e
  | unary operator e =>
    exact (ih.operand hm awaited room e).followed fun v m' hm' _ => .applyUnary hm'.shape operator v
  | binary left operator right =>
    exact (ih.operand hm awaited room left).bind fun v m₁ hm₁ _ =>
      (ih.operand hm₁.shape awaited room right).followed fun w m₂ hm₂ _ =>
        .applyBinary hm₂.shape v operator w
  | logical left operator right =>
    refine (ih.operand hm awaited room left).bind fun v m₁ hm₁ hv => ?_
    split
    · exact quiet (.pure hm₁.shape hv)
    · exact ih.operand hm₁.shape awaited room right
  | «variable» ref => exact quiet (.lookUp hm ref)
  | assign ref e =>
    refine (ih.operand hm awaited room e).followed fun v m₁ hm₁ hv => ?_
    refine (Keeps.targetOf hm₁.shape ref).bind fun i m₂ hm₂ _ => ?_
    have hv₂ : v.Exists m₂ := Value.Exists.mono hv hm₂.growth
    exact (Keeps.store hm₂.shape i _ hv₂).bind fun _ m₃ hm₃ _ =>
      .pure hm₃.shape (hv₂.mono hm₃.growth)
  | call callee paren arguments =>
    refine (ih.operand hm awaited room callee).bind fun f m₁ hm₁ hf => ?_
    refine (only (b := .expressions awaited n room arguments) hm₁.shape trivial rfl
      (ih.evalAll hm₁.shape room arguments)).bind fun vs m₂ hm₂ hvs => ?_
    have hf₂ : f.Exists m₂ := Value.Exists.mono hf hm₂.growth
    exact only hm₂.shape ⟨hf₂, hvs⟩ (after_call ..) (ih.call hm₂.shape room paren hf₂ hvs)
  | get object name =>
    refine (ih.operand hm awaited room object).followed fun v m₁ hm₁ hv => ?_
    cases v with
    | object id => exact .getProperty hm₁.shape hv name
    | _ => exact .throw hm₁.shape trivial
  | set object name e =>
    refine (ih.operand hm awaited room object).bind fun v m₁ hm₁ _ => ?_
    cases v with
    | object id =>
      exact (ih.operand hm₁.shape awaited room e).followed fun w m₂ hm₂ hw =>
        (Keeps.setField hm₂.shape id _ hw).bind fun _ m₃ hm₃ _ =>
          .pure hm₃.shape (Value.Exists.mono hw hm₃.growth)
    | _ => exact quiet (.throw hm₁.shape trivial)
  | this ref => exact quiet (.lookUp hm ref)
  | super ref method => exact quiet (.superMethod hm ref method)
  | hole h => exact quiet (.throw hm trivial)

theorem evalAll_proceeds (ih : Keeping n) (hm : m.WellShaped) (awaited : Option Token)
    (room : Nat) (es : List Expr) :
    Proceeds AllThere (Activity.starts (.expressions awaited (n + 1) room es) m)
      (Lox.evalAll (n + 1) room es) m := by
  cases es with
  | nil => exact quiet (.pure hm nofun)
  | cons e es =>
    refine (ih.operand hm awaited room e).bind fun v m₁ hm₁ hv => ?_
    refine (only (b := .expressions awaited n room es) hm₁.shape trivial rfl
      (ih.evalAll hm₁.shape room es)).followed fun vs m₂ hm₂ hvs => ?_
    exact .pure hm₂.shape (List.forall_mem_cons.2 ⟨Value.Exists.mono hv hm₂.growth, hvs⟩)

/-- A call of something that has no body, or not for these arguments, starts nothing. -/
theorem starts_call {callee : Value} {arguments : List Value} (room : Nat)
    (h : ∀ room, Activity.bodyOf n room callee arguments m = []) :
    Activity.starts (.call (n + 1) room callee arguments) m = [] := by
  cases room with
  | zero => rfl
  | succ room => exact h room

theorem call_proceeds (ih : Keeping n) (hm : m.WellShaped) (room : Nat) (paren : Token)
    {callee : Value} {arguments : List Value} (hcallee : callee.Exists m)
    (harguments : AllThere m arguments) :
    Proceeds There (Activity.starts (.call (n + 1) room callee arguments) m)
      (Lox.call (n + 1) room paren callee arguments) m := by
  refine inspect ?_
  cases hf : m.callable? callee with
  | none =>
    rw [starts_call room fun _ => by simp only [Activity.bodyOf, hf]]
    exact quiet (.throw hm trivial)
  | some f =>
    have hsound := hm.callable? hcallee hf
    by_cases harity : (arguments.length : Int) = f.arity
    · simp only [if_pos harity]
      cases room with
      | zero => exact quiet (.throw hm trivial)
      | succ room =>
        simp only [Activity.starts, Activity.bodyOf, hf, if_pos harity]
        cases f with
        | closure c =>
          exact only hm ⟨hsound, harguments⟩ rfl (ih.runClosure hm room hsound harguments)
        | native f => exact quiet (.callNative hm hsound harguments)
        | cls id initializer =>
          cases initializer with
          | none => exact quiet (.newObject hm hsound.1)
          | some initializer =>
            refine behind (Keeps.newObject hm hsound.1) fun object m₁ hm₁ hobject => ?_
            have hscope := Nat.lt_of_lt_of_le (hsound.2 _ rfl) hm₁.growth.scopes.size_le
            refine behind (Keeps.bindMethod hm₁.shape hscope hobject) fun c m₂ hm₂ hc => ?_
            have harguments₂ := harguments.mono (hm₁.trans hm₂).growth
            refine (only (b := .closure n room c arguments) hm₂.shape ⟨hc, harguments₂⟩ rfl
              (ih.runClosure hm₂.shape room hc harguments₂)).followed fun _ m₃ hm₃ _ => ?_
            exact .pure hm₃.shape (Value.Exists.mono hobject (hm₂.trans hm₃).growth)
    · rw [starts_call room fun _ => by simp only [Activity.bodyOf, hf, if_neg harity]]
      simp only [if_neg harity]
      exact quiet (.throw hm trivial)

theorem runClosure_proceeds (ih : Keeping n) (hm : m.WellShaped) (room : Nat) {c : Closure}
    {arguments : List Value} (hc : c.scope < m.heap.size) (harguments : AllThere m arguments) :
    Proceeds There (Activity.starts (.closure (n + 1) room c arguments) m)
      (Lox.runClosure (n + 1) room c arguments) m := by
  have hbindings : ∀ x v, (Bindings.ofList ((c.routine.params.map (·.lexeme)).zip arguments)).get? x
      = some v → v.Exists m := fun x v hv =>
    harguments v (List.of_mem_zip (Bindings.mem_of_get?_ofList hv)).2
  simp only [Activity.starts, Lox.runClosure]
  refine behind (Keeps.newScope hm hc hbindings) fun scope m₁ hm₁ hscope => ?_
  refine (inScope hm₁.shape hscope
    (ih.execAll (hm₁.shape.atScope hscope) room c.routine.body)).catchReturn.followed
      fun v m₂ hm₂ hv => ?_
  split
  · exact .inspect (.ofDistance hm₂.shape fun w hw => exists_of_getAt hm₂.shape hw)
  · exact .pure hm₂.shape hv

theorem exec_proceeds (ih : Keeping n) (hm : m.WellShaped) (room : Nat) (s : Stmt) :
    Proceeds Regardless (Activity.starts (.statement (n + 1) room s) m)
      (Lox.exec (n + 1) room s) m := by
  cases s with
  | expression e =>
    exact (ih.operand hm none room e).followed fun _ m' hm' _ => .pure hm'.shape trivial
  | print e =>
    exact (ih.operand hm none room e).followed fun v m' hm' _ => .inspect (.print hm'.shape _)
  | var name initializer =>
    cases initializer with
    | none => exact quiet (.define hm name.lexeme trivial)
    | some e =>
      exact (ih.operand hm (some name) room e).followed fun v m' hm' hv =>
        .define hm'.shape name.lexeme hv
  | block body =>
    have hempty : ∀ x v, (Bindings.empty : Bindings Value).get? x = some v → v.Exists m := nofun
    simp only [Activity.starts, Lox.exec]
    refine inspect (behind (Keeps.newScope hm hm.current hempty) fun scope m₁ hm₁ hscope => ?_)
    exact inScope hm₁.shape hscope (ih.execAll (hm₁.shape.atScope hscope) room body)
  | cond condition thenBranch elseBranch =>
    refine (ih.operand hm none room condition).bind fun v m' hm' _ => ?_
    split
    · exact ih.statement hm'.shape room thenBranch
    · cases elseBranch with
      | none => exact quiet (.pure hm'.shape trivial)
      | some s => exact ih.statement hm'.shape room s
  | loop condition body =>
    exact only hm trivial rfl (ih.execLoop hm room condition body)
  | function routine =>
    refine quiet (.inspect ?_)
    exact (Keeps.newClosure hm hm.current).bind fun f m' hm' hf =>
      .define hm'.shape routine.name.lexeme hf
  | ret keyword value =>
    cases value with
    | none => exact quiet (.throw hm trivial)
    | some e =>
      exact (ih.operand hm none room e).followed fun v m' hm' hv => .throw hm'.shape hv
  | classDecl name superclass methods => exact quiet (.declareClass hm name superclass methods)

theorem execAll_proceeds (ih : Keeping n) (hm : m.WellShaped) (room : Nat) (ss : List Stmt) :
    Proceeds Regardless (Activity.starts (.statements (n + 1) room ss) m)
      (Lox.execAll (n + 1) room ss) m := by
  cases ss with
  | nil => exact quiet (.pure hm trivial)
  | cons s ss =>
    exact (ih.statement hm room s).bind fun _ m' hm' _ =>
      only hm'.shape trivial rfl (ih.execAll hm'.shape room ss)

theorem execLoop_proceeds (ih : Keeping n) (hm : m.WellShaped) (room : Nat) (condition : Expr)
    (body : Stmt) :
    Proceeds Regardless (Activity.starts (.loop (n + 1) room condition body) m)
      (Lox.execLoop (n + 1) room condition body) m := by
  refine (ih.operand hm none room condition).bind fun v m₁ hm₁ _ => ?_
  split
  · exact (ih.statement hm₁.shape room body).bind fun _ m₂ hm₂ _ =>
      only hm₂.shape trivial rfl (ih.execLoop hm₂.shape room condition body)
  · exact quiet (.pure hm₁.shape trivial)

end Keeping

/-- **Every activity keeps the shape** of a machine. -/
theorem keeping (n : Nat) : Keeping n := by
  induction n with
  | zero =>
    exact
      { eval := fun hm _ _ => .throw hm trivial
        evalAll := fun hm _ _ => .throw hm trivial
        call := fun hm _ _ _ _ _ _ => .throw hm trivial
        runClosure := fun hm _ _ _ _ _ => .throw hm trivial
        exec := fun hm _ _ => .throw hm trivial
        execAll := fun hm _ _ => .throw hm trivial
        execLoop := fun hm _ _ _ => .throw hm trivial }
  | succ n ih =>
    exact
      { eval := fun hm room e => (ih.eval_proceeds hm none room e).keeps
        evalAll := fun hm room es => (ih.evalAll_proceeds hm none room es).keeps
        call := fun hm room paren _ _ hcallee harguments =>
          (ih.call_proceeds hm room paren hcallee harguments).keeps
        runClosure := fun hm room _ _ hc harguments =>
          (ih.runClosure_proceeds hm room hc harguments).keeps
        exec := fun hm room s => (ih.exec_proceeds hm room s).keeps
        execAll := fun hm room ss => (ih.execAll_proceeds hm room ss).keeps
        execLoop := fun hm room condition body =>
          (ih.execLoop_proceeds hm room condition body).keeps }

/-- An activity starts others **one after the other**. -/
theorem Activity.strung {a : Activity} {m : Machine} (hm : m.WellShaped) (ha : a.Supplied m) :
    Strung m (a.starts m) (a.leaves m) := by
  cases a with
  | expression awaited n room e =>
    cases n with
    | zero => exact .nil (.refl hm)
    | succ n => exact ((keeping n).eval_proceeds hm awaited room e).strung
  | expressions awaited n room es =>
    cases n with
    | zero => exact .nil (.refl hm)
    | succ n => exact ((keeping n).evalAll_proceeds hm awaited room es).strung
  | call n room callee arguments =>
    cases n with
    | zero => exact .nil (.refl hm)
    | succ n => exact ((keeping n).call_proceeds hm room _ ha.1 ha.2).strung
  | closure n room c arguments =>
    cases n with
    | zero => exact .nil (.refl hm)
    | succ n => exact ((keeping n).runClosure_proceeds hm room ha.1 ha.2).strung
  | statement n room s =>
    cases n with
    | zero => exact .nil (.refl hm)
    | succ n => exact ((keeping n).exec_proceeds hm room s).strung
  | statements n room ss =>
    cases n with
    | zero => exact .nil (.refl hm)
    | succ n => exact ((keeping n).execAll_proceeds hm room ss).strung
  | loop n room condition body =>
    cases n with
    | zero => exact .nil (.refl hm)
    | succ n => exact ((keeping n).execLoop_proceeds hm room condition body).strung

/-! ### Timelines -/

/-- The **timeline** of an activity: the machines in the course of it, in their order, as far as
activities are followed up that lie up to `k` deep inside it. -/
def Activity.timeline : Nat → Activity → Machine → List Machine
  | 0, a, m => [m, a.leaves m]
  | k + 1, a, m => m :: (a.starts m).flatMap (fun b => timeline k b.1 b.2) ++ [a.leaves m]

/-- Machines **in order** between two: each has grown out of the earlier ones. -/
structure InOrder (m : Machine) (H : List Machine) (m' : Machine) : Prop where
  leadsTo : m.LeadsTo m'
  first : ∀ x ∈ H, m.LeadsTo x
  last : ∀ x ∈ H, x.Extends m'
  pairwise : H.Pairwise Machine.Extends

namespace InOrder

variable {m m' m'' : Machine} {H H' : List Machine}

theorem nil (h : m.LeadsTo m') : InOrder m [] m' := ⟨h, nofun, nofun, .nil⟩

theorem single (h : m.LeadsTo m') : InOrder m [m'] m' where
  leadsTo := h
  first := fun _ hx => List.mem_singleton.1 hx ▸ h
  last := fun _ hx => List.mem_singleton.1 hx ▸ .refl _
  pairwise := List.pairwise_singleton ..

theorem append (h : InOrder m H m') (h' : InOrder m' H' m'') : InOrder m (H ++ H') m'' where
  leadsTo := h.leadsTo.trans h'.leadsTo
  first := fun x hx => (List.mem_append.1 hx).elim (h.first x) fun hx =>
    h.leadsTo.trans (h'.first x hx)
  last := fun x hx => (List.mem_append.1 hx).elim
    (fun hx => (h.last x hx).trans h'.leadsTo.growth) (h'.last x)
  pairwise := List.pairwise_append.2 ⟨h.pairwise, h'.pairwise, fun x hx y hy =>
    (h.last x hx).trans (h'.first y hy).growth⟩

/-- A timeline begins where its activity does. -/
theorem begins (hm : m.WellShaped) (h : InOrder m H m') : InOrder m (m :: H) m' :=
  (single (.refl hm)).append h

end InOrder

/-- Activities that start one after the other come through machines in order, if the machines of
each one are in order. -/
theorem Strung.inOrder {k : Nat} {m m' : Machine} {L : List (Activity × Machine)}
    (h : Strung m L m') (hall : ∀ {a : Activity} {m₁ : Machine}, m₁.WellShaped → a.Supplied m₁ →
      InOrder m₁ (a.timeline k m₁) (a.leaves m₁)) :
    InOrder m (L.flatMap fun b => b.1.timeline k b.2) m' := by
  induction h with
  | nil h => exact .nil h
  | cons hm₁ hsupplied _ _ ih =>
    rw [List.flatMap_cons]
    exact (InOrder.nil hm₁).append ((hall hm₁.shape hsupplied).append ih)

/-- **The machines of a timeline are in order**: each has grown out of the earlier ones. -/
theorem Activity.timeline_inOrder (k : Nat) {a : Activity} {m : Machine} (hm : m.WellShaped)
    (ha : a.Supplied m) : InOrder m (a.timeline k m) (a.leaves m) := by
  have hstrung := Activity.strung hm ha
  induction k generalizing a m with
  | zero => exact (InOrder.single hstrung.leadsTo).begins hm
  | succ k ih =>
    have hstarted := hstrung.inOrder fun hm₁ ha₁ => ih hm₁ ha₁ (Activity.strung hm₁ ha₁)
    exact (hstarted.append (.single (.refl hstrung.leadsTo.shape))).begins hm

end Lox
