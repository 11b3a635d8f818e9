/-
**A run depends on the distances that it consults.**

Two machines that differ in their distances only go the same way, as long as both have the same
distances for the references that are consulted in the course of the run.  So nothing is asked of
the distances but what the activities of the run are listed to ask.

Main definitions:

* `Lox.Machine.withDistances` — a machine with other distances;
* `Lox.Indifferent` — **a step that ends the same** with other distances;
* `Lox.Heeds` — the distances of all references that an activity consults are the same.

Main results:

* `Lox.Indifferent.bind` — steps that end the same may be put together;
* `Lox.locality` — **a run depends on the distances that it consults**.
-/

import Lox.Proofs.Machine.Activity

set_option relaxedAutoImplicit false
set_option autoImplicit false

namespace Lox

/-! ### Other distances -/

/-- A machine with other distances. -/
def Machine.withDistances (m : Machine) (D : Distances) : Machine := { m with distances := D }

/-- The end of a step, with other distances. -/
def redirect {α : Type} (D : Distances) :
    EStateM.Result Interrupt Machine α → EStateM.Result Interrupt Machine α
  | .ok a m => .ok a (m.withDistances D)
  | .error i m => .error i (m.withDistances D)

/-- A step that **ends the same** with other distances. -/
def Indifferent {α : Type} (D : Distances) (step : Run α) (m : Machine) : Prop :=
  step (m.withDistances D) = redirect D (step m)

namespace Indifferent

variable {α β : Type} {D : Distances} {step : Run α} {m : Machine}

theorem pure (a : α) : Indifferent D (Pure.pure a : Run α) m := rfl

theorem throw (i : Interrupt) : Indifferent D (MonadExcept.throw i : Run α) m := rfl

/-- Steps that end the same may be put together. -/
theorem bind {next : α → Run β} (h : Indifferent D step m)
    (hnext : ∀ a m', step m = .ok a m' → Indifferent D (next a) m') :
    Indifferent D (step >>= next) m := by
  change EStateM.bind step next _ = redirect D (EStateM.bind step next m)
  unfold Indifferent at h
  unfold EStateM.bind
  rw [h]
  cases hstep : step m with
  | ok a m' => exact hnext a m' hstep
  | error i m' => rfl

/-- The machine at hand may be inspected, if what follows does not see the distances. -/
theorem inspect {next : Machine → Run α} (hsame : next (m.withDistances D) = next m)
    (h : Indifferent D (next m) m) : Indifferent D (get >>= next) m := by
  change next (m.withDistances D) (m.withDistances D) = redirect D (next m m)
  rw [hsame]
  exact h

theorem ofOperator (r : Except Interrupt α) : Indifferent D (Run.ofOperator r) m := by
  cases r <;> rfl

theorem ofSearch (r : Except RuntimeError α) : Indifferent D (Run.ofSearch r) m := by
  cases r <;> rfl

theorem ofDistance (r : Except Fault α) : Indifferent D (Run.ofDistance r) m := by
  cases r <;> rfl

/-- A step in another scope. -/
theorem within {scope : Nat} (h : Indifferent D step { m with current := scope }) :
    Indifferent D (Run.within scope step) m := by
  have hstep : step { m.withDistances D with current := scope } =
      redirect D (step { m with current := scope }) := h
  unfold Indifferent Run.within
  rw [hstep]
  cases step { m with current := scope } <;> rfl

/-- A step that may return. -/
theorem catchReturn {step : Run Unit} (h : Indifferent D step m) :
    Indifferent D (Run.catchReturn step) m := by
  unfold Indifferent at h
  unfold Indifferent Run.catchReturn
  rw [h]
  cases step m with
  | ok a m' => rfl
  | error i m' => cases i <;> rfl

/-! ### Single steps -/

theorem getProperty (id : Nat) (name : Token) : Indifferent D (getProperty id name) m := by
  refine inspect rfl ?_
  dsimp only
  cases (m.objects[id]?).bind (·.fields.get? name.lexeme) with
  | some v => exact .pure v
  | none =>
    cases (m.objects[id]?).bind fun o => m.classes.findMethod o.cls name.lexeme with
    | some method => rfl
    | none => exact .throw _

theorem callNative (f : Native) (arguments : List Value) :
    Indifferent D (callNative f arguments) m := by
  refine inspect rfl ?_
  cases f.action with
  | compute g => exact .ofSearch (g arguments)
  | _ => rfl

variable {ref : Reference}

theorem lookUp (hd : D[ref.id]? = m.distances[ref.id]?) : Indifferent D (lookUp ref) m := by
  refine inspect (by simp only [Machine.withDistances, hd]) ?_
  cases m.distances[ref.id]? with
  | some d => exact .ofDistance _
  | none => exact .ofSearch _

theorem targetOf (hd : D[ref.id]? = m.distances[ref.id]?) : Indifferent D (targetOf ref) m := by
  refine inspect (by simp only [Machine.withDistances, hd]) ?_
  cases m.distances[ref.id]? with
  | some d => exact .ofDistance _
  | none => exact .ofSearch _

theorem superMethod (hd : D[ref.id]? = m.distances[ref.id]?) (method : Token) :
    Indifferent D (superMethod ref method) m := by
  refine inspect (by simp only [Machine.withDistances, hd]) ?_
  cases m.distances[ref.id]? with
  | none => exact .throw _
  | some d =>
    refine (ofDistance _).bind fun superclass m₁ _ => ?_
    refine (ofDistance _).bind fun object m₂ _ => ?_
    cases superclass with
    | cls id =>
      dsimp only
      cases m.classes.findMethod id method.lexeme with
      | some found => rfl
      | none => exact .throw _
    | _ => exact .throw _

theorem declareClass {name : Token} {superclass : Option Reference} {methods : List Routine}
    (hd : ∀ ref, superclass = some ref → D[ref.id]? = m.distances[ref.id]?) :
    Indifferent D (declareClass name superclass methods) m := by
  have hsuper : Indifferent D (superclassOf superclass) m := by
    cases superclass with
    | none => exact .pure none
    | some ref =>
      refine (lookUp (hd ref rfl)).bind fun v m' _ => ?_
      cases v with
      | cls id => exact .pure _
      | _ => exact .throw _
  refine hsuper.bind fun superclass? m₁ _ => ?_
  refine bind rfl fun _ m₂ _ => ?_
  have hscope : Indifferent D (methodScope superclass?) m₂ := by cases superclass? <;> rfl
  refine hscope.bind fun scope m₃ _ => bind rfl fun cls m₄ _ => ?_
  exact inspect rfl ((ofSearch _).bind fun j m₅ _ => rfl)

end Indifferent

/-! ### Distances that are consulted -/

/-- What an activity comes to, and what that comes to, the activity comes to. -/
theorem Reaches.trans {a b c : Activity} {m m₁ m₂ : Machine} (h : Reaches a m b m₁)
    (h' : Reaches b m₁ c m₂) : Reaches a m c m₂ := by
  induction h' with
  | self => exact h
  | start _ hc ih => exact ih.start hc

/-- The distances of all references that an activity consults in its course are the given ones. -/
def Heeds (D : Distances) (a : Activity) (m : Machine) : Prop :=
  ∀ (b : Activity) (m₁ m₂ : Machine) (use : Use) (ref : Reference), Reaches a m b m₁ →
    (use, ref, m₂) ∈ b.consults m₁ → D[ref.id]? = m₂.distances[ref.id]?

namespace Heeds

variable {D : Distances} {a b : Activity} {m m' : Machine}

theorem start (h : Heeds D a m) (hb : (b, m') ∈ a.starts m) : Heeds D b m' := by
  intro c m₁ m₂ use ref hreach hmem
  exact h c m₁ m₂ use ref ((Reaches.self.start hb).trans hreach) hmem

theorem consult {use : Use} {ref : Reference} (h : Heeds D a m)
    (hmem : (use, ref, m') ∈ a.consults m) : D[ref.id]? = m'.distances[ref.id]? :=
  h a m m' use ref .self hmem

end Heeds

/-- Every activity within `n` steps that heeds the distances **ends the same** with them. -/
structure Local (D : Distances) (n : Nat) : Prop where
  eval : ∀ {awaited m} (room : Nat) (e : Expr), Heeds D (.expression awaited n room e) m →
    Indifferent D (eval n room e) m
  evalAll : ∀ {awaited m} (room : Nat) (es : List Expr),
    Heeds D (.expressions awaited n room es) m → Indifferent D (evalAll n room es) m
  call : ∀ {m} (room : Nat) (paren : Token) (callee : Value) (arguments : List Value),
    Heeds D (.call n room callee arguments) m →
    Indifferent D (call n room paren callee arguments) m
  runClosure : ∀ {m} (room : Nat) (c : Closure) (arguments : List Value),
    Heeds D (.closure n room c arguments) m → Indifferent D (runClosure n room c arguments) m
  exec : ∀ {m} (room : Nat) (s : Stmt), Heeds D (.statement n room s) m →
    Indifferent D (exec n room s) m
  execAll : ∀ {m} (room : Nat) (ss : List Stmt), Heeds D (.statements n room ss) m →
    Indifferent D (execAll n room ss) m
  execLoop : ∀ {m} (room : Nat) (condition : Expr) (body : Stmt),
    Heeds D (.loop n room condition body) m → Indifferent D (execLoop n room condition body) m

section

variable {D : Distances} {n : Nat} {awaited : Option Token} {m : Machine}

theorem eval_local (ih : Local D n) (room : Nat) (e : Expr)
    (h : Heeds D (.expression awaited (n + 1) room e) m) :
    Indifferent D (eval (n + 1) room e) m := by
  cases e with
  | literal value => exact .pure _
  | grouping e => exact ih.eval room e (h.start (.head _))
  | unary operator e =>
    refine (ih.eval room e (h.start (.head _))).bind fun v m₁ _ => ?_
    exact .ofOperator _
  | binary left operator right =>
    refine (ih.eval room left (h.start (.head _))).bind fun v m₁ hv => ?_
    have hright := h.start (.tail _ (mem_onResult.2 ⟨v, m₁, hv, .head _⟩))
    exact (ih.eval room right hright).bind fun w m₂ _ => .ofOperator _
  | logical left operator right =>
    refine (ih.eval room left (h.start (.head _))).bind fun v m₁ hv => ?_
    by_cases hsettled : (v.isTruthy == (operator.kind == .keyword .or)) = true
    · rw [if_pos hsettled]
      exact .pure v
    · rw [if_neg hsettled]
      have hright : Heeds D (.expression awaited n room right) m₁ := by
        refine h.start (.tail _ (mem_onResult.2 ⟨v, m₁, hv, ?_⟩))
        rw [if_neg hsettled]
        exact .head _
      exact ih.eval room right hright
  | «variable» ref => exact .lookUp (h.consult (.head _))
  | assign ref e =>
    refine (ih.eval room e (h.start (.head _))).bind fun v m₁ hv => ?_
    have hd := h.consult (mem_onResult.2 ⟨v, m₁, hv, .head _⟩)
    exact (Indifferent.targetOf hd).bind fun j m₂ _ => rfl
  | call callee paren arguments =>
    refine (ih.eval room callee (h.start (.head _))).bind fun f m₁ hf => ?_
    have harguments := h.start (.tail _ (mem_onResult.2 ⟨f, m₁, hf, .head _⟩))
    refine (ih.evalAll room arguments harguments).bind fun vs m₂ hvs => ?_
    refine ih.call room paren f vs (h.start ?_)
    exact .tail _ (mem_onResult.2 ⟨f, m₁, hf, .tail _ (mem_onResult.2 ⟨vs, m₂, hvs, .head _⟩)⟩)
  | get object name =>
    refine (ih.eval room object (h.start (.head _))).bind fun v m₁ _ => ?_
    cases v with
    | object id => exact .getProperty id name
    | _ => exact .throw _
  | set object name e =>
    refine (ih.eval room object (h.start (.head _))).bind fun v m₁ hv => ?_
    cases v with
    | object id =>
      have hvalue := h.start (.tail _ (mem_onResult.2 ⟨_, m₁, hv, .head _⟩))
      exact (ih.eval room e hvalue).bind fun w m₂ _ => rfl
    | _ => exact .throw _
  | this ref => exact .lookUp (h.consult (.head _))
  | super ref method => exact .superMethod (h.consult (.head _)) method
  | hole hole => exact .throw _

theorem evalAll_local (ih : Local D n) (room : Nat) (es : List Expr)
    (h : Heeds D (.expressions awaited (n + 1) room es) m) :
    Indifferent D (evalAll (n + 1) room es) m := by
  cases es with
  | nil => exact .pure []
  | cons e es =>
    refine (ih.eval room e (h.start (.head _))).bind fun v m₁ hv => ?_
    have hrest := h.start (.tail _ (mem_onResult.2 ⟨v, m₁, hv, .head _⟩))
    exact (ih.evalAll room es hrest).bind fun vs m₂ _ => .pure _

theorem call_local (ih : Local D n) (room : Nat) (paren : Token) (callee : Value)
    (arguments : List Value) (h : Heeds D (.call (n + 1) room callee arguments) m) :
    Indifferent D (call (n + 1) room paren callee arguments) m := by
  rw [call]
  have hcallable : (m.withDistances D).callable? callee = m.callable? callee := by
    cases callee <;> rfl
  refine .inspect (by rw [hcallable]) ?_
  cases hf : m.callable? callee with
  | none => exact .throw _
  | some f =>
    by_cases harity : (arguments.length : Int) = f.arity
    · simp only [if_pos harity]
      cases room with
      | zero => exact .throw _
      | succ room =>
        cases f with
        | native f => exact .callNative f arguments
        | closure c =>
          refine ih.runClosure room c arguments (h.start ?_)
          simp [Activity.starts, Activity.bodyOf, hf, harity]
        | cls id initializer =>
          cases initializer with
          | none => rfl
          | some initializer =>
            refine .bind rfl fun object m₁ hobject => .bind rfl fun c m₂ hc => ?_
            refine (ih.runClosure room c arguments (h.start ?_)).bind fun _ m₃ _ => .pure object
            simp only [Activity.starts, Activity.bodyOf, hf, if_pos harity, mem_onResult]
            exact ⟨object, m₁, hobject, c, m₂, hc, .head _⟩
    · simp only [if_neg harity]
      exact .throw _

theorem runClosure_local (ih : Local D n) (room : Nat) (c : Closure) (arguments : List Value)
    (h : Heeds D (.closure (n + 1) room c arguments) m) :
    Indifferent D (runClosure (n + 1) room c arguments) m := by
  refine .bind rfl fun scope m₁ hscope => ?_
  have hstart : (Activity.statements n room c.routine.body, { m₁ with current := scope }) ∈
      (Activity.closure (n + 1) room c arguments).starts m := by
    rw [Activity.starts]
    exact mem_onResult.2 ⟨scope, m₁, hscope, .head _⟩
  have hbody := ih.execAll room c.routine.body (h.start hstart)
  refine hbody.within.catchReturn.bind fun v m₂ _ => ?_
  cases c.isInitializer with
  | false => exact .pure v
  | true => exact .inspect rfl (.ofDistance _)

theorem exec_local (ih : Local D n) (room : Nat) (s : Stmt)
    (h : Heeds D (.statement (n + 1) room s) m) : Indifferent D (exec (n + 1) room s) m := by
  cases s with
  | expression e => exact (ih.eval room e (h.start (.head _))).bind fun v m₁ _ => .pure ()
  | print e => exact (ih.eval room e (h.start (.head _))).bind fun v m₁ _ => .inspect rfl rfl
  | var name initializer =>
    cases initializer with
    | none => rfl
    | some e => exact (ih.eval room e (h.start (.head _))).bind fun v m₁ _ => rfl
  | block body =>
    refine .inspect rfl (.bind rfl fun scope m₁ hscope => ?_)
    have hstart : (Activity.statements n room body, { m₁ with current := scope }) ∈
        (Activity.statement (n + 1) room (.block body)).starts m := by
      rw [Activity.starts]
      exact mem_onResult.2 ⟨scope, m₁, hscope, .head _⟩
    exact (ih.execAll room body (h.start hstart)).within
  | cond condition thenBranch elseBranch =>
    refine (ih.eval room condition (h.start (.head _))).bind fun v m₁ hv => ?_
    by_cases hv' : v.isTruthy = true
    · rw [if_pos hv']
      refine ih.exec room thenBranch (h.start (.tail _ (mem_onResult.2 ⟨v, m₁, hv, ?_⟩)))
      rw [if_pos hv']
      exact .head _
    · rw [if_neg hv']
      cases elseBranch with
      | none => exact .pure ()
      | some s =>
        refine ih.exec room s (h.start (.tail _ (mem_onResult.2 ⟨v, m₁, hv, ?_⟩)))
        rw [if_neg hv']
        exact .head _
  | loop condition body => exact ih.execLoop room condition body (h.start (.head _))
  | function routine => exact .inspect rfl rfl
  | ret keyword value =>
    cases value with
    | none => exact .throw _
    | some e => exact (ih.eval room e (h.start (.head _))).bind fun v m₁ _ => .throw _
  | classDecl name superclass methods =>
    refine .declareClass fun ref href => ?_
    subst href
    exact h.consult (.head _)

theorem execAll_local (ih : Local D n) (room : Nat) (ss : List Stmt)
    (h : Heeds D (.statements (n + 1) room ss) m) : Indifferent D (execAll (n + 1) room ss) m := by
  cases ss with
  | nil => exact .pure ()
  | cons s ss =>
    refine (ih.exec room s (h.start (.head _))).bind fun _ m₁ hs => ?_
    exact ih.execAll room ss (h.start (.tail _ (mem_onResult.2 ⟨_, m₁, hs, .head _⟩)))

theorem execLoop_local (ih : Local D n) (room : Nat) (condition : Expr) (body : Stmt)
    (h : Heeds D (.loop (n + 1) room condition body) m) :
    Indifferent D (execLoop (n + 1) room condition body) m := by
  refine (ih.eval room condition (h.start (.head _))).bind fun v m₁ hv => ?_
  by_cases hv' : v.isTruthy = true
  · have hround : ∀ {b m'}, (b, m') ∈ ((.statement n room body, m₁) ::
        onResult (exec n room body m₁) fun _ m => [(Activity.loop n room condition body, m)]) →
        Heeds D b m' := by
      intro b m' hb
      refine h.start (.tail _ (mem_onResult.2 ⟨v, m₁, hv, ?_⟩))
      rw [if_pos hv']
      exact hb
    rw [if_pos hv']
    refine (ih.exec room body (hround (.head _))).bind fun _ m₂ hbody => ?_
    exact ih.execLoop room condition body
      (hround (.tail _ (mem_onResult.2 ⟨_, m₂, hbody, .head _⟩)))
  · rw [if_neg hv']
    exact .pure ()

end

/-- **A run depends on the distances that it consults**, within any allowance. -/
theorem locality (D : Distances) (n : Nat) : Local D n := by
  induction n with
  | zero =>
    exact
      { eval := fun _ _ _ => .throw _
        evalAll := fun _ _ _ => .throw _
        call := fun _ _ _ _ _ => .throw _
        runClosure := fun _ _ _ _ => .throw _
        exec := fun _ _ _ => .throw _
        execAll := fun _ _ _ => .throw _
        execLoop := fun _ _ _ _ => .throw _ }
  | succ n ih =>
    exact
      { eval := eval_local ih
        evalAll := evalAll_local ih
        call := call_local ih
        runClosure := runClosure_local ih
        exec := exec_local ih
        execAll := execAll_local ih
        execLoop := execLoop_local ih }

end Lox
