/-
**Loops, said directly.**

A `for` loop is parsed into a block and a `while` loop, with one more block around the body if there
is an increment.  Here such a loop is run without this detour: a scope is opened, the initializer is
run in it once, and then come the rounds.  Every round tests the condition, runs the body and
advances by the increment, and all of them know the names behind the initializer, and no others.
Whatever interrupts a part of the loop leaves the loop at once.

Nothing is said of allowances here: a step *finishes* with a result if it has it within any
allowance that is not used up.

Main definitions:

* `Lox.Lexical.Finishes` — **a step has a result**, within some allowance;
* `Lox.Lexical.Evaluates`, `Lox.Lexical.Executes`, `Lox.Lexical.Performs` — the same of expressions
  and statements;
* `Lox.ForLoop.Rounds`, `Lox.ForLoop.Runs` — **the rounds, and the loop**.

Main results:

* `Lox.Lexical.finishes_bind` — steps put together;
* `Lox.Lexical.perform_inside` — a statement that declares nothing does the same in a block;
* `Lox.ForLoop.executes_iff` — **the tree does what the loop does**.
-/

import Lox.Proofs.Grammar.Loop
import Lox.Proofs.Lexical.Concatenation

set_option relaxedAutoImplicit false
set_option autoImplicit false

namespace Lox

namespace Lexical

/-- How a step over names and cells ends. -/
abbrev Ending (α : Type) := EStateM.Result Interrupt State α

/-! ### Steps that finish -/

section

variable {α β : Type} {f : Nat → Run α} {g : Nat → α → Run β} {μ μ' : State}

/-- A step **finishes** with a result: it has it within some allowance, and does not use that up. -/
def Finishes (f : Nat → Run α) (μ : State) (r : Ending α) : Prop :=
  ¬ UsedUp r ∧ ∃ n, f n μ = r

/-- A larger allowance makes no difference to a step that does not use up a smaller one. -/
def Steady (f : Nat → Run α) : Prop :=
  ∀ n n' μ, n ≤ n' → ¬ UsedUp (f n μ) → f n' μ = f n μ

/-- One step after the other: the second goes on with what the first one gives, and is left out if
the first one is interrupted. -/
inductive Chain (P : State → Ending α → Prop) (Q : α → State → Ending β → Prop) (μ : State) :
    Ending β → Prop
  | next {a : α} {μ' : State} {r : Ending β} (hP : P μ (.ok a μ')) (hQ : Q a μ' r) : Chain P Q μ r
  | interrupted {i : Interrupt} {μ' : State} (hP : P μ (.error i μ')) : Chain P Q μ (.error i μ')

theorem Chain.imp {P P' : State → Ending α → Prop} {Q Q' : α → State → Ending β → Prop}
    {r : Ending β} (h : Chain P Q μ r) (hP : ∀ μ r, P μ r → P' μ r)
    (hQ : ∀ a μ r, Q a μ r → Q' a μ r) : Chain P' Q' μ r := by
  cases h with
  | next h h' => exact .next (hP _ _ h) (hQ _ _ _ h')
  | interrupted h => exact .interrupted (hP _ _ h)

theorem chain_congr {P P' : State → Ending α → Prop} {Q Q' : α → State → Ending β → Prop}
    {r : Ending β} (hP : ∀ μ r, P μ r ↔ P' μ r) (hQ : ∀ a μ r, Q a μ r ↔ Q' a μ r) :
    Chain P Q μ r ↔ Chain P' Q' μ r :=
  ⟨fun h => h.imp (fun μ r => (hP μ r).1) fun a μ r => (hQ a μ r).1,
    fun h => h.imp (fun μ r => (hP μ r).2) fun a μ r => (hQ a μ r).2⟩

/-- A step that only passes on what it is given adds nothing. -/
theorem chain_pure {P : State → Ending α → Prop} {r : Ending α} :
    Chain P (fun a μ' r => r = .ok a μ') μ r ↔ P μ r := by
  constructor
  · rintro (⟨hP, rfl⟩ | hP) <;> exact hP
  · intro hP
    cases r with
    | ok a μ' => exact .next hP rfl
    | error i μ' => exact .interrupted hP

theorem usedUp_ok {a : α} : ¬ UsedUp (.ok a μ : Ending α) := by
  rintro ⟨_, h⟩
  cases h

theorem usedUp_error {i : Interrupt} : UsedUp (.error i μ : Ending α) ↔ i = .outOfFuel := by
  constructor
  · rintro ⟨_, h⟩
    exact (EStateM.Result.error.inj h).1
  · rintro rfl
    exact ⟨μ, rfl⟩

theorem Finishes.of_ok {n : Nat} {a : α} (h : f n μ = .ok a μ') : Finishes f μ (.ok a μ') :=
  ⟨usedUp_ok, n, h⟩

theorem Finishes.of_error {n : Nat} {i : Interrupt} (hi : ¬ UsedUp (.error i μ' : Ending β))
    (h : f n μ = .error i μ') : Finishes f μ (.error i μ') :=
  ⟨fun hused => hi (usedUp_error.2 (usedUp_error.1 hused)), n, h⟩

theorem Steady.pure (a : α) : Steady fun _ => (Pure.pure a : Run α) := fun _ _ _ _ _ => rfl

theorem Steady.bind (hf : Steady f) (hg : ∀ a, Steady fun n => g n a) :
    Steady fun n => f n >>= g n := by
  intro n n' μ hle hends
  dsimp only at hends ⊢
  cases hstep : f n μ with
  | ok a μ₁ =>
    rw [bind_ok hstep] at hends ⊢
    have hmore : f n' μ = .ok a μ₁ := (hf n n' μ hle (hstep ▸ usedUp_ok)).trans hstep
    rw [bind_ok hmore]
    exact hg a n n' μ₁ hle hends
  | error i μ₁ =>
    rw [bind_error hstep] at hends ⊢
    have hshort : ¬ UsedUp (f n μ) := by
      rw [hstep, usedUp_error]
      exact fun hi => hends (usedUp_error.2 hi)
    exact bind_error ((hf n n' μ hle hshort).trans hstep)

/-- A step finishes with one result only. -/
theorem Finishes.unique {r r' : Ending α} (hf : Steady f) (h : Finishes f μ r)
    (h' : Finishes f μ r') : r = r' := by
  obtain ⟨hr, n, rfl⟩ := h
  obtain ⟨hr', n', rfl⟩ := h'
  rw [← hf n (max n n') μ (Nat.le_max_left ..) hr, ← hf n' (max n n') μ (Nat.le_max_right ..) hr']

theorem finishes_pure {a : α} {r : Ending α} :
    Finishes (fun _ => (Pure.pure a : Run α)) μ r ↔ r = .ok a μ := by
  constructor
  · rintro ⟨-, -, rfl⟩
    rfl
  · rintro rfl
    exact ⟨usedUp_ok, 0, rfl⟩

theorem Steady.add (hf : Steady f) (k : Nat) : Steady fun n => f (n + k) :=
  fun n n' μ hle => hf (n + k) (n' + k) μ (Nat.add_le_add_right hle k)

/-- Some steps more in every allowance make no difference. -/
theorem finishes_add (hf : Steady f) (k : Nat) {r : Ending α} :
    Finishes (fun n => f (n + k)) μ r ↔ Finishes f μ r := by
  constructor
  · rintro ⟨hr, n, hn⟩
    exact ⟨hr, n + k, hn⟩
  · rintro ⟨hr, n, rfl⟩
    exact ⟨hr, n, hf n (n + k) μ (Nat.le_add_right n k) hr⟩

/-- **Steps put together** finish as the one finishes after the other. -/
theorem finishes_bind (hf : Steady f) (hg : ∀ a, Steady fun n => g n a) {r : Ending β} :
    Finishes (fun n => f n >>= g n) μ r ↔
      Chain (Finishes f) (fun a => Finishes fun n => g n a) μ r := by
  constructor
  · rintro ⟨hr, n, hn⟩
    dsimp only at hn
    cases hstep : f n μ with
    | ok a μ₁ =>
      rw [bind_ok hstep] at hn
      exact .next ⟨usedUp_ok, n, hstep⟩ ⟨hr, n, hn⟩
    | error i μ₁ =>
      rw [bind_error hstep] at hn
      subst hn
      exact .interrupted ⟨fun hi => hr (usedUp_error.2 (usedUp_error.1 hi)), n, hstep⟩
  · rintro (⟨⟨hok, n, hn⟩, hr, n', hn'⟩ | ⟨hi, n, hn⟩)
    · -- The larger of the two allowances serves both steps.
      have hfirst := (hf n (max n n') μ (Nat.le_max_left ..) (hn ▸ hok)).trans hn
      refine ⟨hr, max n n', (bind_ok hfirst).trans ?_⟩
      exact (hg _ n' (max n n') _ (Nat.le_max_right ..) (hn' ▸ hr)).trans hn'
    · exact ⟨fun hused => hi (usedUp_error.2 (usedUp_error.1 hused)), n, bind_error hn⟩

end

/-! ### Expressions and statements -/

section

variable {room : Nat} {ρ : Names} {μ : State}

/-- An expression **evaluates** to a result, under the given names. -/
def Evaluates (room : Nat) (ρ : Names) (e : Expr) : State → Ending Value → Prop :=
  Finishes fun n => eval n room ρ e

/-- A statement **executes** to a result: the names in force behind it, or an interrupt. -/
def Executes (room : Nat) (ρ : Names) (s : Stmt) : State → Ending Names → Prop :=
  Finishes fun n => exec n room ρ s

/-- The execution of a statement whose names are dropped behind it. -/
def perform (n room : Nat) (ρ : Names) (s : Stmt) : Run Unit := do
  let _ ← exec n room ρ s

/-- A statement is **performed**: whatever it declares is forgotten behind it. -/
def Performs (room : Nat) (ρ : Names) (s : Stmt) : State → Ending Unit → Prop :=
  Finishes fun n => perform n room ρ s

theorem steady_of_carries {α : Type} {f : Nat → Run α}
    (h : ∀ n n' μ, n ≤ n' → f n' (μ.relabel .plain) = relabelResult .plain id (f n μ) ∨
      More.Missed ⟨True, False⟩ (f n μ)) :
    Steady f := by
  intro n n' μ hle hends
  have hmore := h n n' μ hle
  rw [State.relabel_plain, relabelResult_plain] at hmore
  exact hmore.resolve_right fun hmissed => hends (More.usedUp_of_missed hmissed)

theorem eval_steady (room : Nat) (ρ : Names) (e : Expr) : Steady fun n => eval n room ρ e :=
  steady_of_carries fun n n' μ hle => by
    have h := (carried_steps .plain hle).eval (.refl _ room) ρ e μ
    rwa [Expr.relabel_plain] at h

theorem exec_steady (room : Nat) (ρ : Names) (s : Stmt) : Steady fun n => exec n room ρ s :=
  steady_of_carries fun n n' μ hle => by
    have h := (carried_steps .plain hle).exec (.refl _ room) ρ s μ
    rwa [Stmt.relabel_plain] at h

theorem perform_steady (room : Nat) (ρ : Names) (s : Stmt) : Steady fun n => perform n room ρ s :=
  (exec_steady room ρ s).bind fun _ => .pure ()

end

/-! ### Statements in a block -/

section

variable {room : Nat} {ρ : Names}

/-- For an expression it makes no difference whether it stands in a block. -/
theorem evaluation_inside (n : Nat) :
    (∀ e, eval n room ρ.inside e = eval n room ρ e) ∧
      ∀ es, evalAll n room ρ.inside es = evalAll n room ρ es := by
  induction n with
  | zero => exact ⟨fun _ => rfl, fun _ => rfl⟩
  | succ n ih =>
    obtain ⟨ih, ihall⟩ := ih
    constructor
    · intro e
      cases e <;> simp only [eval, ih, ihall] <;> rfl
    · intro es
      cases es <;> simp only [evalAll, ih, ihall]

theorem eval_inside (n : Nat) (e : Expr) : eval n room ρ.inside e = eval n room ρ e :=
  (evaluation_inside n).1 e

theorem declare_isLocal (hρ : ρ.isLocal = true) (x : String) :
    Gives (fun r => r.1.isLocal = true) (Run.declare ρ x) := by
  rw [Run.declare, hρ]
  exact .behind fun _ => .pure rfl

/-- Behind a statement in a block the place is local still. -/
theorem exec_isLocal (hρ : ρ.isLocal = true) {n : Nat} (s : Stmt) :
    Gives (fun ρ' => ρ'.isLocal = true) (exec n room ρ s) := by
  cases hd : s.declared? with
  | none =>
    intro μ ρ' μ' h
    obtain rfl := exec_undeclaring hd μ ρ' μ' h
    exact hρ
  | some x =>
    cases n with
    | zero => exact .throw _
    | succ n =>
      cases s with
      | var name initializer =>
        cases initializer with
        | none => exact (declare_isLocal hρ _).bind fun _ h => .behind fun _ => .pure h
        | some e =>
          exact (declare_isLocal hρ _).bind fun _ h => .behind fun _ => .behind fun _ => .pure h
      | function routine =>
        exact (declare_isLocal hρ _).bind fun _ h => .behind fun _ => .behind fun _ => .pure h
      | classDecl name superclass methods =>
        refine (declare_isLocal hρ _).bind fun _ h => ?_
        refine .behind fun _ => .behind fun _ => .behind fun _ => .behind fun _ => ?_
        exact .behind fun _ => .pure h
      | _ => cases hd

variable {L : Ledger} {inBody : Bool} {Γ : Scopes}

/-- A statement that declares nothing, and a loop around one, do **the same in a block**. -/
theorem perform_inside (n : Nat) :
    (∀ s : Stmt, s.declared? = none → s.Scoped L inBody Γ →
      perform n room ρ.inside s = perform n room ρ s) ∧
    ∀ (c : Expr) (body : Stmt), body.declared? = none → body.Scoped L inBody Γ →
      (execLoop n room ρ.inside c body >>= fun _ => pure ()) =
        (execLoop n room ρ c body >>= fun _ => pure () : Run Unit) := by
  induction n with
  | zero => exact ⟨fun _ _ _ => rfl, fun _ _ _ _ => rfl⟩
  | succ n ih =>
    obtain ⟨ih, ihloop⟩ := ih
    constructor
    · intro s hd hs
      cases s with
      | expression e => simp only [perform, exec, eval_inside, bind_assoc, pure_bind]
      | print e => simp only [perform, exec, eval_inside, bind_assoc, pure_bind]
      | block body => simp only [perform, exec, bind_assoc, pure_bind]; rfl
      | cond condition thenBranch elseBranch =>
        -- Whichever branch is taken, it declares nothing either.
        have hthen : perform n room ρ.inside thenBranch = perform n room ρ thenBranch := by
          cases elseBranch with
          | none => exact ih thenBranch hs.2.1 hs.2.2
          | some s => exact ih thenBranch hs.2.1.1 hs.2.1.2
        simp only [perform] at hthen
        simp only [perform, exec, eval_inside, bind_assoc]
        refine congrArg _ (funext fun v => ?_)
        cases v.isTruthy with
        | true => simpa only [if_true, bind_assoc, pure_bind] using hthen
        | false =>
          cases elseBranch with
          | none => rfl
          | some s =>
            have helse := ih s hs.2.2.1 hs.2.2.2
            simp only [perform] at helse
            simpa [bind_assoc] using helse
      | loop condition body =>
        exact ihloop condition body hs.2.1 hs.2.2
      | ret keyword value => cases value <;> simp only [perform, exec, eval_inside]
      | _ => cases hd
    · intro c body hd hs
      have hbody := ih body hd hs
      simp only [perform] at hbody
      simp only [execLoop, eval_inside, bind_assoc]
      refine congrArg _ (funext fun v => ?_)
      cases v.isTruthy with
      | false => rfl
      | true =>
        simp only [if_true, bind_assoc, ihloop c body hd hs]
        have hthen := congrArg (fun step : Run Unit =>
          step >>= fun _ => execLoop n room ρ c body >>= fun _ => pure ()) hbody
        simpa only [bind_assoc, pure_bind] using hthen

end

/-! ### Statements one after the other -/

section

variable {room : Nat} {ρ : Names} {s : Stmt} {μ : State}

/-- A statement is performed as it executes, but for the names. -/
theorem performs_iff {q : Ending Unit} :
    Performs room ρ s μ q ↔ Chain (Executes room ρ s) (fun _ μ' q => q = .ok () μ') μ q :=
  (finishes_bind (exec_steady room ρ s) fun _ => .pure ()).trans
    (chain_congr (fun _ _ => .rfl) fun _ _ _ => finishes_pure)

/-- The names behind a statement that declares nothing are known without its execution. -/
theorem chain_executes {β : Type} {Q : Names → State → Ending β → Prop} {r : Ending β}
    (hd : s.declared? = none) :
    Chain (Executes room ρ s) Q μ r ↔ Chain (Performs room ρ s) (fun _ => Q ρ) μ r := by
  have hnames : ∀ {ρ' μ'}, Executes room ρ s μ (.ok ρ' μ') → ρ' = ρ := by
    rintro ρ' μ' ⟨-, n, hn⟩
    exact exec_undeclaring hd μ ρ' μ' hn
  constructor
  · rintro (⟨h, hQ⟩ | h)
    · obtain rfl := hnames h
      exact .next (performs_iff.2 (.next h rfl)) hQ
    · exact .interrupted (performs_iff.2 (.interrupted h))
  · rintro (⟨h, hQ⟩ | h)
    · rcases performs_iff.1 h with ⟨h, hq⟩ | _
      obtain rfl := hnames h
      cases hq
      exact .next h hQ
    · rcases performs_iff.1 h with ⟨-, hq⟩ | h
      · cases hq
      · exact .interrupted h

theorem executes_iff_performs (hd : s.declared? = none) {r : Ending Names} :
    Executes room ρ s μ r ↔ Chain (Performs room ρ s) (fun _ μ' r => r = .ok ρ μ') μ r :=
  chain_pure.symm.trans (chain_executes hd)

theorem performs_expression {e : Expr} {q : Ending Unit} :
    Performs room ρ (.expression e) μ q ↔
      Finishes (fun n => do let _ ← eval n room ρ e) μ q := by
  refine (finishes_add (perform_steady room ρ (.expression e)) 1).symm.trans ?_
  simp only [perform, exec, bind_assoc, pure_bind]

/-- A block of two statements. -/
theorem performs_pair {s' : Stmt} {q : Ending Unit} :
    Performs room ρ (.block [s, s']) μ q ↔
      Chain (Executes room ρ.inside s) (fun ρ' => Performs room ρ' s') μ q := by
  have hstep : ∀ n, perform (n + 4) room ρ (.block [s, s']) =
      exec (n + 2) room ρ.inside s >>= fun ρ' => perform (n + 1) room ρ' s' := by
    intro n
    simp only [perform, exec, execAll, bind_assoc, pure_bind]
  refine (finishes_add (perform_steady room ρ (.block [s, s'])) 4).symm.trans ?_
  simp only [hstep]
  refine (finishes_bind ((exec_steady room ρ.inside s).add 2) fun ρ' =>
    (perform_steady room ρ' s').add 1).trans (chain_congr ?_ ?_)
  · exact fun _ _ => finishes_add (exec_steady room ρ.inside s) 2
  · exact fun ρ' _ _ => finishes_add (perform_steady room ρ' s') 1

/-- A round of a `while` loop, and the rounds behind it. -/
theorem perform_loop (n : Nat) (c : Expr) :
    perform (n + 2) room ρ (.loop c s) = eval n room ρ c >>= fun v =>
      if v.isTruthy then perform n room ρ s >>= fun _ => perform (n + 1) room ρ (.loop c s)
      else pure () := by
  simp only [perform, exec, execLoop, bind_assoc]
  refine congrArg _ (funext fun v => ?_)
  cases v.isTruthy <;> simp only [Bool.false_eq_true, if_false, if_true, bind_assoc, pure_bind]

theorem performs_loop {c : Expr} {q : Ending Unit} :
    Performs room ρ (.loop c s) μ q ↔
      Chain (Evaluates room ρ c) (fun v μ q =>
        if v.isTruthy then Chain (Performs room ρ s) (fun _ => Performs room ρ (.loop c s)) μ q
        else q = .ok () μ) μ q := by
  have hloop := perform_steady room ρ (.loop c s)
  have hbody := perform_steady room ρ s
  have hrest : Steady fun n => perform n room ρ s >>= fun _ => perform (n + 1) room ρ (.loop c s) :=
    hbody.bind fun _ => hloop.add 1
  refine (finishes_add hloop 2).symm.trans ?_
  simp only [perform_loop]
  refine (finishes_bind (eval_steady room ρ c) fun v => ?_).trans
    (chain_congr (fun _ _ => .rfl) fun v μ q => ?_)
  · cases v.isTruthy with
    | true => exact hrest
    | false => exact .pure ()
  · cases v.isTruthy with
    | true =>
      exact (finishes_bind hbody fun _ => hloop.add 1).trans
        (chain_congr (fun _ _ => .rfl) fun _ _ _ => finishes_add hloop 1)
    | false => exact finishes_pure

end

end Lexical

/-! ### The loop -/

namespace ForLoop

open Lexical

section

variable (l : ForLoop)

variable (room : Nat) (ρ : Names) (n : Nat)

/-- The initializer is run, if there is one; it gives the names for all rounds. -/
def begin : Lexical.Run Names :=
  match l.initializer with
  | none => return ρ
  | some s => Lexical.exec n room ρ s

/-- Whether the condition holds; one that is absent does. -/
def test : Lexical.Run Bool :=
  match l.condition with
  | none => return true
  | some c => do return (← Lexical.eval n room ρ c).isTruthy

/-- The increment is evaluated, if there is one. -/
def advance : Lexical.Run Unit :=
  match l.increment with
  | none => return ()
  | some e => do let _ ← Lexical.eval n room ρ e

/-- The beginning of a loop. -/
def Begins : State → Ending Names → Prop := Finishes fun n => l.begin room ρ n

/-- A test of the condition. -/
def Tests : State → Ending Bool → Prop := Finishes fun n => l.test room ρ n

/-- An increment. -/
def Advances : State → Ending Unit → Prop := Finishes fun n => l.advance room ρ n

/-- The **rounds** of a loop, under the same names.  As long as the condition holds, the body is
performed and then the increment is evaluated.  Whatever interrupts a part ends the rounds, without
the parts behind it. -/
inductive Rounds : State → Ending Unit → Prop
  | finished {μ μ' : State} (htest : l.Tests room ρ μ (.ok false μ')) : Rounds μ (.ok () μ')
  | testInterrupted {μ μ' : State} {i : Interrupt} (htest : l.Tests room ρ μ (.error i μ')) :
      Rounds μ (.error i μ')
  | bodyInterrupted {μ μ₁ μ' : State} {i : Interrupt} (htest : l.Tests room ρ μ (.ok true μ₁))
      (hbody : Performs room ρ l.body μ₁ (.error i μ')) : Rounds μ (.error i μ')
  | incrementInterrupted {μ μ₁ μ₂ μ' : State} {i : Interrupt}
      (htest : l.Tests room ρ μ (.ok true μ₁)) (hbody : Performs room ρ l.body μ₁ (.ok () μ₂))
      (hincrement : l.Advances room ρ μ₂ (.error i μ')) : Rounds μ (.error i μ')
  | again {μ μ₁ μ₂ μ₃ : State} {q : Ending Unit} (htest : l.Tests room ρ μ (.ok true μ₁))
      (hbody : Performs room ρ l.body μ₁ (.ok () μ₂))
      (hincrement : l.Advances room ρ μ₂ (.ok () μ₃)) (hrest : Rounds μ₃ q) : Rounds μ q

/-- A **loop**, run as it is meant: in a scope of its own the initializer is run once, and then the
rounds under the names that it gives.  Behind the loop the names are those before it. -/
inductive Runs (μ : State) : Ending Names → Prop
  | beginInterrupted {μ' : State} {i : Interrupt}
      (hbegin : l.Begins room ρ.inside μ (.error i μ')) : Runs μ (.error i μ')
  | interrupted {ρ' : Names} {μ₁ μ' : State} {i : Interrupt}
      (hbegin : l.Begins room ρ.inside μ (.ok ρ' μ₁))
      (hrounds : l.Rounds room ρ' μ₁ (.error i μ')) : Runs μ (.error i μ')
  | finished {ρ' : Names} {μ₁ μ' : State} (hbegin : l.Begins room ρ.inside μ (.ok ρ' μ₁))
      (hrounds : l.Rounds room ρ' μ₁ (.ok () μ')) : Runs μ (.ok ρ μ')

end

/-! ### The tree of a loop -/

section

variable {l : ForLoop} {room : Nat} {ρ : Names} {μ : State}

/-- The condition of the tree is tested as that of the loop. -/
theorem tests_iff {q : Ending Bool} :
    l.Tests room ρ μ q ↔ Chain (Evaluates room ρ (l.condition.getD (.literal (.bool true))))
      (fun v μ' q => q = .ok v.isTruthy μ') μ q := by
  have htest : Finishes (fun n =>
      Lexical.eval n room ρ (l.condition.getD (.literal (.bool true))) >>=
        fun v => pure v.isTruthy) μ q ↔ _ := finishes_bind (eval_steady room ρ _) fun v => .pure _
  refine .trans ?_ (htest.trans (chain_congr (fun _ _ => .rfl) fun _ _ _ => finishes_pure))
  unfold Tests test
  cases l.condition with
  | none =>
    -- The literal takes a step of the allowance, the absent condition none.
    exact finishes_add ((eval_steady room ρ (.literal (.bool true))).bind fun v =>
      .pure v.isTruthy) 1
  | some c => rfl

theorem evaluates_of_tests {b : Bool} {μ' : State} (h : l.Tests room ρ μ (.ok b μ')) :
    ∃ v, Evaluates room ρ (l.condition.getD (.literal (.bool true))) μ (.ok v μ') ∧
      v.isTruthy = b := by
  rcases tests_iff.1 h with ⟨hv, heq⟩ | _
  cases heq
  exact ⟨_, hv, rfl⟩

/-- The body of the tree is performed as a body and an increment. -/
theorem performs_round {q : Ending Unit} (hρ : ρ.inside = ρ) (hd : l.body.declared? = none) :
    Performs room ρ l.round μ q ↔
      Chain (Performs room ρ l.body) (fun _ => l.Advances room ρ) μ q := by
  unfold round Advances advance
  cases l.increment with
  | none =>
    refine chain_pure.symm.trans (chain_congr (fun _ _ => .rfl) fun _ _ _ => ?_)
    exact finishes_pure.symm
  | some e =>
    refine performs_pair.trans ?_
    rw [hρ]
    exact (chain_executes hd).trans
      (chain_congr (fun _ _ => .rfl) fun _ _ _ => performs_expression)

/-- What a `while` loop does within an allowance is made of rounds. -/
theorem rounds_of_perform (hρ : ρ.inside = ρ) (hd : l.body.declared? = none) {n : Nat}
    {q : Ending Unit} (hends : ¬ UsedUp q) (h : perform (n + 1) room ρ l.loop μ = q) :
    l.Rounds room ρ μ q := by
  induction n generalizing μ with
  | zero => exact absurd ⟨μ, h.symm⟩ hends
  | succ n ih =>
    rw [loop, perform_loop] at h
    cases hv : Lexical.eval n room ρ (l.condition.getD (.literal (.bool true))) μ with
    | error i μ₁ =>
      rw [bind_error hv] at h
      subst h
      exact .testInterrupted (tests_iff.2 (.interrupted (.of_error hends hv)))
    | ok v μ₁ =>
      rw [bind_ok hv] at h
      have htest := tests_iff.2 (.next (.of_ok hv) rfl)
      cases ht : v.isTruthy with
      | false =>
        rw [ht] at h htest
        subst h
        exact .finished htest
      | true =>
        rw [ht] at h htest
        rw [if_pos rfl] at h
        cases hb : perform n room ρ l.round μ₁ with
        | error i μ₂ =>
          rw [bind_error hb] at h
          subst h
          rcases (performs_round hρ hd).1 (.of_error hends hb) with ⟨hbody, hincrement⟩ | hbody
          · exact .incrementInterrupted htest hbody hincrement
          · exact .bodyInterrupted htest hbody
        | ok u μ₂ =>
          rw [bind_ok hb] at h
          rcases (performs_round hρ hd).1 (.of_ok hb) with ⟨hbody, hincrement⟩ | _
          exact .again htest hbody hincrement (ih h)

/-- The rounds of the tree are those of the loop. -/
theorem performs_loop_iff {q : Ending Unit} (hρ : ρ.inside = ρ) (hd : l.body.declared? = none) :
    Performs room ρ l.loop μ q ↔ l.Rounds room ρ μ q := by
  constructor
  · intro h
    obtain ⟨hends, n, hn⟩ := (finishes_add (perform_steady room ρ l.loop) 1).2 h
    exact rounds_of_perform hρ hd hends hn
  · -- The body and the increment of a round are the body of the `while` loop.
    have hround : ∀ {μ μ₁ q}, l.Tests room ρ μ (.ok true μ₁) →
        Chain (Chain (Performs room ρ l.body) fun _ => l.Advances room ρ)
          (fun _ => Performs room ρ l.loop) μ₁ q → Performs room ρ l.loop μ q := by
      intro μ μ₁ q htest hrest
      obtain ⟨v, hv, ht⟩ := evaluates_of_tests htest
      refine performs_loop.2 (.next hv ?_)
      rw [if_pos ht]
      exact hrest.imp (fun _ _ => (performs_round hρ hd).2) fun _ _ _ h => h
    intro h
    induction h with
    | finished htest =>
      obtain ⟨v, hv, ht⟩ := evaluates_of_tests htest
      refine performs_loop.2 (.next hv ?_)
      rw [if_neg (by simp [ht])]
    | testInterrupted htest =>
      rcases tests_iff.1 htest with ⟨-, heq⟩ | hv
      · cases heq
      · exact performs_loop.2 (.interrupted hv)
    | bodyInterrupted htest hbody => exact hround htest (.interrupted (.interrupted hbody))
    | incrementInterrupted htest hbody hincrement =>
      exact hround htest (.interrupted (.next hbody hincrement))
    | again htest hbody hincrement _ ih => exact hround htest (.next (.next hbody hincrement) ih)

/-- A declaration inside a block is local, and so are the names behind it. -/
theorem isLocal_of_begins {ρ' : Names} {μ' : State} (hρ : ρ.isLocal = true)
    (h : l.Begins room ρ μ (.ok ρ' μ')) : ρ'.isLocal = true := by
  obtain ⟨-, n, hn⟩ := h
  revert hn
  unfold begin
  cases l.initializer with
  | none =>
    intro hn
    cases hn
    exact hρ
  | some s => exact exec_isLocal hρ s μ ρ' μ'

variable {L : Ledger} {inBody : Bool} {Γ : Scopes}

/-- The tree is performed as a beginning and rounds.  Without an initializer it has no scope of its
own; around the rounds it makes no difference whether a scope is opened that stays empty. -/
theorem performs_tree_iff (hd : l.body.declared? = none) (hs : l.tree.Scoped L inBody Γ)
    {q : Ending Unit} :
    Performs room ρ l.tree μ q ↔
      Chain (l.Begins room ρ.inside) (fun ρ' => l.Rounds room ρ') μ q := by
  have hrounds : ∀ {ρ' : Names} {μ q}, ρ'.isLocal = true →
      (Performs room ρ' l.loop μ q ↔ l.Rounds room ρ' μ q) :=
    fun {ρ'} _ _ hρ => performs_loop_iff (congrArg (Names.mk ρ'.cells) hρ.symm) hd
  cases hinitializer : l.initializer with
  | none =>
    rw [tree_eq, hinitializer] at hs ⊢
    have hbegins : ∀ r, l.Begins room ρ.inside μ r ↔ r = .ok ρ.inside μ := by
      unfold Begins begin
      rw [hinitializer]
      exact fun _ => finishes_pure
    have hloop : Performs room ρ l.loop μ q ↔ l.Rounds room ρ.inside μ q := by
      refine .trans ?_ (hrounds rfl)
      unfold Performs
      have hinside : ∀ n, perform n room ρ.inside l.loop = perform n room ρ l.loop :=
        fun n => (perform_inside n).1 l.loop rfl hs
      simp only [hinside]
    refine hloop.trans ⟨fun h => .next ((hbegins _).2 rfl) h, ?_⟩
    rintro (⟨hbegin, h⟩ | hbegin)
    · cases (hbegins _).1 hbegin
      exact h
    · cases (hbegins _).1 hbegin
  | some s =>
    rw [tree_eq, hinitializer]
    have hbegins : l.Begins room ρ.inside = Executes room ρ.inside s := by
      unfold Begins begin
      rw [hinitializer]
      rfl
    refine performs_pair.trans ?_
    rw [← hbegins]
    constructor
    · rintro (⟨hbegin, h⟩ | hbegin)
      · exact .next hbegin ((hrounds (isLocal_of_begins rfl hbegin)).1 h)
      · exact .interrupted hbegin
    · rintro (⟨hbegin, h⟩ | hbegin)
      · exact .next hbegin ((hrounds (isLocal_of_begins rfl hbegin)).2 h)
      · exact .interrupted hbegin

/-- **The tree of a loop does what the loop does**: it ends with a result if and only if the loop
does. -/
theorem executes_iff (hd : l.body.declared? = none) (hs : l.tree.Scoped L inBody Γ)
    {r : Ending Names} : Executes room ρ l.tree μ r ↔ l.Runs room ρ μ r := by
  refine (executes_iff_performs l.declared?_tree).trans ?_
  constructor
  · rintro (⟨h, rfl⟩ | h)
    · rcases (performs_tree_iff hd hs).1 h with ⟨hbegin, hrounds⟩ | _
      exact .finished hbegin hrounds
    · rcases (performs_tree_iff hd hs).1 h with ⟨hbegin, hrounds⟩ | hbegin
      · exact .interrupted hbegin hrounds
      · exact .beginInterrupted hbegin
  · rintro (hbegin | ⟨hbegin, hrounds⟩ | ⟨hbegin, hrounds⟩)
    · exact .interrupted ((performs_tree_iff hd hs).2 (.interrupted hbegin))
    · exact .interrupted ((performs_tree_iff hd hs).2 (.next hbegin hrounds))
    · exact .next ((performs_tree_iff hd hs).2 (.next hbegin hrounds)) rfl

end

end ForLoop

end Lox
