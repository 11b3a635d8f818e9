/-
**The scope in force is restored.**

Blocks and bodies run in scopes of their own.  Whatever they come to — their end, a `return`, a
runtime error, a fault, the end of the allowance — the scope in force afterwards is the one before.
This is so for every tree, be its references settled or not, and on every machine; so between the
texts of a session the scope in force is always the global one.

Main definitions:

* `Lox.Restores` — **a step that leaves the scope in force as it was**, however it ends;
* `Lox.Session.applyAll` — steps of a session, one after the other.

Main results:

* `Lox.Restores.bind` — steps put together;
* `Lox.restoring` — evaluation, calls and execution restore the scope in force;
* `Lox.current_restored` — **the same for whole sessions**.
-/

import Lox.Session

set_option relaxedAutoImplicit false
set_option autoImplicit false

namespace Lox

/-- A step that **leaves the scope in force as it was**, with a result or without one. -/
def Restores {α : Type} (step : Run α) : Prop := ∀ m, (Run.after step m).current = m.current

namespace Restores

variable {α β : Type}

/-! ### Steps put together -/

theorem pure (a : α) : Restores (Pure.pure a : Run α) := fun _ => rfl

theorem throw (i : Interrupt) : Restores (MonadExcept.throw i : Run α) := fun _ => rfl

theorem bind {step : Run α} {next : α → Run β} (h : Restores step)
    (hnext : ∀ a, Restores (next a)) : Restores (step >>= next) := by
  intro m
  have hm := h m
  change (Run.after (EStateM.bind step next) m).current = m.current
  unfold Run.after EStateM.bind at *
  cases hstep : step m with
  | ok a m' =>
    rw [hstep] at hm
    exact (hnext a m').trans hm
  | error i m' =>
    rw [hstep] at hm
    exact hm

/-- The machine at hand may be inspected. -/
theorem inspect {next : Machine → Run α} (h : ∀ m, Restores (next m)) : Restores (get >>= next) :=
  fun m => h m m

/-- A change of the machine that leaves the scope in force alone. -/
theorem change {f : Machine → Machine} (h : ∀ m, (f m).current = m.current) :
    Restores (modify f : Run PUnit) := h

/-- A change of the machine that gives a result and leaves the scope in force alone. -/
theorem changeGet {f : Machine → α × Machine} (h : ∀ m, (f m).2.current = m.current) :
    Restores (modifyGet f : Run α) := h

/-- A step inside another scope, whatever it does. -/
theorem within (scope : Nat) (step : Run α) : Restores (Run.within scope step) :=
  Run.within_current scope step

theorem catchReturn {step : Run Unit} (h : Restores step) : Restores (Run.catchReturn step) := by
  intro m
  have hm := h m
  unfold Run.after Run.catchReturn at *
  cases hstep : step m with
  | ok a m' =>
    rw [hstep] at hm
    exact hm
  | error i m' =>
    rw [hstep] at hm
    cases i <;> exact hm

/-! ### Single steps -/

theorem ofOperator (r : Except Interrupt α) : Restores (Run.ofOperator r) := by
  cases r with
  | ok a => exact .pure a
  | error i => exact .throw i

theorem ofSearch (r : Except RuntimeError α) : Restores (Run.ofSearch r) := by
  cases r with
  | ok a => exact .pure a
  | error e => exact .throw _

theorem ofDistance (r : Except Fault α) : Restores (Run.ofDistance r) := by
  cases r with
  | ok a => exact .pure a
  | error f => exact .throw _

theorem print (line : String) : Restores (Run.print line) := .change fun _ => rfl

theorem newScope (enclosing : Nat) (bindings : Bindings Value) :
    Restores (Run.newScope enclosing bindings) := .changeGet fun _ => rfl

theorem store (scope : Nat) (name : String) (value : Value) :
    Restores (Run.store scope name value) := .change fun _ => rfl

theorem define (name : String) (value : Value) : Restores (Run.define name value) :=
  .inspect fun m => .store m.current name value

theorem newClosure (c : Closure) : Restores (Run.newClosure c) := .changeGet fun _ => rfl

theorem newClass (c : ClassInfo) : Restores (Run.newClass c) := .changeGet fun _ => rfl

theorem newObject (cls : Nat) : Restores (Run.newObject cls) := .changeGet fun _ => rfl

theorem setField (object : Nat) (name : String) (value : Value) :
    Restores (Run.setField object name value) := .change fun _ => rfl

theorem bindMethod (method : Closure) (object : Value) :
    Restores (Run.bindMethod method object) :=
  (newScope _ _).bind fun _ => .pure _

theorem lookUp (ref : Reference) : Restores (lookUp ref) := by
  refine .inspect fun m => ?_
  cases m.distances[ref.id]? with
  | some d => exact .ofDistance _
  | none => exact .ofSearch _

theorem targetOf (ref : Reference) : Restores (targetOf ref) := by
  refine .inspect fun m => ?_
  cases m.distances[ref.id]? with
  | some d => exact .ofDistance _
  | none => exact .ofSearch _

theorem getProperty (id : Nat) (name : Token) : Restores (getProperty id name) := by
  refine .inspect fun m => ?_
  dsimp only
  cases (m.objects[id]?).bind (·.fields.get? name.lexeme) with
  | some v => exact .pure v
  | none =>
    cases (m.objects[id]?).bind fun o => m.classes.findMethod o.cls name.lexeme with
    | some method => exact (bindMethod method _).bind fun c => .newClosure c
    | none => exact .throw _

theorem superMethod (ref : Reference) (method : Token) : Restores (superMethod ref method) := by
  refine .inspect fun m => ?_
  cases m.distances[ref.id]? with
  | none => exact .throw _
  | some d =>
    refine (ofDistance _).bind fun superclass => (ofDistance _).bind fun object => ?_
    cases superclass with
    | cls id =>
      dsimp only
      cases m.classes.findMethod id method.lexeme with
      | some found => exact (bindMethod found object).bind fun c => .newClosure c
      | none => exact .throw _
    | _ => exact .throw _

theorem superclassOf (superclass : Option Reference) : Restores (superclassOf superclass) := by
  cases superclass with
  | none => exact .pure none
  | some ref =>
    refine (lookUp ref).bind fun v => ?_
    cases v with
    | cls id => exact .pure _
    | _ => exact .throw _

theorem methodScope (superclass? : Option Nat) : Restores (methodScope superclass?) := by
  cases superclass? with
  | none => exact .inspect fun m => .pure m.current
  | some id => exact .inspect fun m => .newScope m.current _

theorem declareClass (name : Token) (superclass : Option Reference) (methods : List Routine) :
    Restores (declareClass name superclass methods) := by
  refine (superclassOf superclass).bind fun superclass? => (define _ _).bind fun _ => ?_
  refine (methodScope superclass?).bind fun scope => (newClass _).bind fun cls => ?_
  exact .inspect fun m => (ofSearch _).bind fun j => .store j name.lexeme cls

/-- A native function is given its arguments and no hold of the machine. -/
theorem callNative (f : Native) (arguments : List Value) : Restores (callNative f arguments) := by
  refine .inspect fun m => ?_
  cases f.action with
  | clock => exact .pure _
  | echo => exact .pure _
  | fail message => exact .throw _
  | compute g => exact .ofSearch (g arguments)

end Restores

/-! ### Evaluation and execution -/

/-- Within `n` steps, all that a program does restores the scope in force. -/
structure Restoring (n : Nat) : Prop where
  eval : ∀ room e, Restores (eval n room e)
  evalAll : ∀ room es, Restores (evalAll n room es)
  call : ∀ room paren callee arguments, Restores (call n room paren callee arguments)
  runClosure : ∀ room c arguments, Restores (runClosure n room c arguments)
  exec : ∀ room s, Restores (exec n room s)
  execAll : ∀ room ss, Restores (execAll n room ss)
  execLoop : ∀ room condition body, Restores (execLoop n room condition body)

section

variable {n : Nat}

theorem eval_restores (ih : Restoring n) (room : Nat) (e : Expr) :
    Restores (eval (n + 1) room e) := by
  cases e with
  | literal value => exact .pure _
  | grouping e => exact ih.eval room e
  | unary operator e => exact (ih.eval room e).bind fun v => .ofOperator _
  | binary left operator right =>
    exact (ih.eval room left).bind fun v => (ih.eval room right).bind fun w => .ofOperator _
  | logical left operator right =>
    refine (ih.eval room left).bind fun v => ?_
    split
    · exact .pure v
    · exact ih.eval room right
  | «variable» ref => exact .lookUp ref
  | assign ref e =>
    refine (ih.eval room e).bind fun v => (Restores.targetOf ref).bind fun scope => ?_
    exact (Restores.store scope _ v).bind fun _ => .pure v
  | call callee paren arguments =>
    refine (ih.eval room callee).bind fun f => (ih.evalAll room arguments).bind fun vs => ?_
    exact ih.call room paren f vs
  | get object name =>
    refine (ih.eval room object).bind fun v => ?_
    cases v with
    | object id => exact .getProperty id name
    | _ => exact .throw _
  | set object name e =>
    refine (ih.eval room object).bind fun v => ?_
    cases v with
    | object id =>
      exact (ih.eval room e).bind fun w => (Restores.setField id _ w).bind fun _ => .pure w
    | _ => exact .throw _
  | this ref => exact .lookUp ref
  | super ref method => exact .superMethod ref method
  | hole h => exact .throw _

theorem evalAll_restores (ih : Restoring n) (room : Nat) (es : List Expr) :
    Restores (evalAll (n + 1) room es) := by
  cases es with
  | nil => exact .pure []
  | cons e es => exact (ih.eval room e).bind fun v => (ih.evalAll room es).bind fun vs => .pure _

theorem call_restores (ih : Restoring n) (room : Nat) (paren : Token) (callee : Value)
    (arguments : List Value) : Restores (call (n + 1) room paren callee arguments) := by
  refine .inspect fun m => ?_
  cases m.callable? callee with
  | none => exact .throw _
  | some f =>
    dsimp only
    split
    · cases room with
      | zero => exact .throw _
      | succ room =>
        cases f with
        | native f => exact .callNative f arguments
        | closure c => exact ih.runClosure room c arguments
        | cls id initializer =>
          cases initializer with
          | none => exact .newObject id
          | some initializer =>
            refine (Restores.newObject id).bind fun object => ?_
            refine (Restores.bindMethod initializer object).bind fun c => ?_
            exact (ih.runClosure room c arguments).bind fun _ => .pure object
    · exact .throw _

theorem runClosure_restores (room : Nat) (c : Closure)
    (arguments : List Value) : Restores (runClosure (n + 1) room c arguments) := by
  refine (Restores.newScope _ _).bind fun scope => ?_
  refine (Restores.within scope _).catchReturn.bind fun v => ?_
  split
  · exact .inspect fun m => .ofDistance _
  · exact .pure v

theorem exec_restores (ih : Restoring n) (room : Nat) (s : Stmt) :
    Restores (exec (n + 1) room s) := by
  cases s with
  | expression e => exact (ih.eval room e).bind fun _ => .pure ()
  | print e => exact (ih.eval room e).bind fun v => .inspect fun m => .print _
  | var name initializer =>
    cases initializer with
    | none => exact .define _ _
    | some e => exact (ih.eval room e).bind fun v => .define _ v
  | block body => exact .inspect fun m => (Restores.newScope _ _).bind fun scope => .within scope _
  | cond condition thenBranch elseBranch =>
    refine (ih.eval room condition).bind fun v => ?_
    split
    · exact ih.exec room thenBranch
    · cases elseBranch with
      | none => exact .pure ()
      | some s => exact ih.exec room s
  | loop condition body => exact ih.execLoop room condition body
  | function routine => exact .inspect fun m => (Restores.newClosure _).bind fun f => .define _ f
  | ret keyword value =>
    cases value with
    | none => exact .throw _
    | some e => exact (ih.eval room e).bind fun v => .throw _
  | classDecl name superclass methods => exact .declareClass name superclass methods

theorem execAll_restores (ih : Restoring n) (room : Nat) (ss : List Stmt) :
    Restores (execAll (n + 1) room ss) := by
  cases ss with
  | nil => exact .pure ()
  | cons s ss => exact (ih.exec room s).bind fun _ => ih.execAll room ss

theorem execLoop_restores (ih : Restoring n) (room : Nat) (condition : Expr) (body : Stmt) :
    Restores (execLoop (n + 1) room condition body) := by
  refine (ih.eval room condition).bind fun v => ?_
  split
  · exact (ih.exec room body).bind fun _ => ih.execLoop room condition body
  · exact .pure ()

end

/-- Evaluation, calls and execution **restore the scope in force**, within any allowance. -/
theorem restoring (n : Nat) : Restoring n := by
  induction n with
  | zero =>
    exact
      { eval := fun _ _ => .throw _
        evalAll := fun _ _ => .throw _
        call := fun _ _ _ _ => .throw _
        runClosure := fun _ _ _ => .throw _
        exec := fun _ _ => .throw _
        execAll := fun _ _ => .throw _
        execLoop := fun _ _ _ => .throw _ }
  | succ n ih =>
    exact
      { eval := eval_restores ih
        evalAll := evalAll_restores ih
        call := call_restores ih
        runClosure := runClosure_restores
        exec := exec_restores ih
        execAll := execAll_restores ih
        execLoop := execLoop_restores ih }

/-! ### Sessions -/

namespace Session

variable (s : Session)

theorem trace_current (line : String) : (s.trace line).machine.current = s.machine.current := by
  unfold Session.trace
  split <;> rfl

theorem parsed_current {α : Type} (parser : List Token → Token → NodeId → Parsed α)
    (source : String) : (s.parsed parser source).1.machine.current = s.machine.current :=
  trace_current (s.addFindings _) _

theorem parsedExpression_current (source : String) :
    (s.parsedExpression source).1.machine.current = s.machine.current :=
  parsed_current s parseExpression source

theorem resolve_current (pass : Distances → Resolved) :
    (s.resolve pass).1.machine.current = s.machine.current := rfl

theorem parsedProgram_current (source : String) :
    (s.parsedProgram source).1.machine.current = s.machine.current := by
  have hparsed := parsed_current s parseProgram source
  unfold parsedProgram
  generalize s.parsed parseProgram source = parsed at hparsed ⊢
  obtain ⟨s₁, program⟩ := parsed
  have htrace :=
    (trace_current s₁ ("parsed " ++ program.length.repr ++ " statements")).trans hparsed
  dsimp only
  generalize s₁.trace ("parsed " ++ program.length.repr ++ " statements") = s₂ at htrace ⊢
  split
  · exact htrace
  · have hresolve := (resolve_current s₂ (resolveProgram program)).trans htrace
    generalize s₂.resolve (resolveProgram program) = resolved at hresolve ⊢
    obtain ⟨s₃, fault⟩ := resolved
    cases fault with
    | some f => exact hresolve
    | none =>
      dsimp only
      split
      · exact (trace_current s₃ _).trans hresolve
      · exact hresolve

theorem runStep_current {α : Type} {step : Run α} (h : Restores step) :
    (s.runStep step).1.machine.current = s.machine.current := by
  have hm := h s.machine
  unfold Run.after at hm
  unfold runStep
  cases hstep : step s.machine with
  | ok a m =>
    rw [hstep] at hm
    exact hm
  | error i m =>
    rw [hstep] at hm
    cases i <;> exact hm

theorem tokenize_current (source : String) :
    (s.tokenize source).machine.current = s.machine.current := by
  have hprint : ∀ (ts : List Token) (s : Session),
      (ts.foldl (fun s t => s.print t.listing) s).machine.current = s.machine.current := by
    intro ts
    induction ts with
    | nil => exact fun _ => rfl
    | cons t ts ih => exact fun s => ih (s.print t.listing)
  exact (hprint _ _).trans (trace_current (s.addFindings _) _)

theorem parse_current (source : String) :
    (s.parse source).1.machine.current = s.machine.current := by
  have hparsed := parsedExpression_current s source
  unfold parse
  generalize s.parsedExpression source = parsed at hparsed ⊢
  obtain ⟨s₁, e?⟩ := parsed
  cases e? with
  | none => exact hparsed
  | some e =>
    dsimp only
    cases e.render <;> exact hparsed

theorem evaluate_current (source : String) :
    (s.evaluate source).1.machine.current = s.machine.current := by
  have hparsed := parsedExpression_current s source
  unfold evaluate
  generalize s.parsedExpression source = parsed at hparsed ⊢
  obtain ⟨s₁, e?⟩ := parsed
  cases e? with
  | none => exact hparsed
  | some e =>
    have hresolve := (resolve_current s₁ (resolveExpression e)).trans hparsed
    dsimp only
    generalize s₁.resolve (resolveExpression e) = resolved at hresolve ⊢
    obtain ⟨s₂, fault⟩ := resolved
    cases fault with
    | some f => exact hresolve
    | none =>
      have heval : Restores (Machine.evaluate e) :=
        ((restoring maxSteps).eval maxExpressionCallDepth e).bind fun v => .inspect fun m => .pure _
      have hrun := (runStep_current s₂ heval).trans hresolve
      dsimp only
      split
      · exact hresolve
      · generalize s₂.runStep (Machine.evaluate e) = ran at hrun ⊢
        obtain ⟨s₃, i | text?⟩ := ran
        · exact hrun
        · cases text? <;> exact hrun

theorem run_current (source : String) :
    (s.run source).1.machine.current = s.machine.current := by
  have hparsed := parsedProgram_current s source
  unfold run
  generalize s.parsedProgram source = parsed at hparsed ⊢
  obtain ⟨s₁, i | program?⟩ := parsed
  · exact hparsed
  · cases program? with
    | none => exact hparsed
    | some program =>
      have hexec : Restores (Machine.execute program) :=
        (restoring maxSteps).execAll maxCallDepth program
      have hrun := (runStep_current s₁ hexec).trans hparsed
      dsimp only
      generalize s₁.runStep (Machine.execute program) = ran at hrun ⊢
      obtain ⟨s₂, i | _⟩ := ran <;> exact hrun

/-- A step of a session restores the scope in force, also if an interrupt escapes from it. -/
theorem apply_current (step : Step) : (s.apply step).1.machine.current = s.machine.current := by
  cases step with
  | perform mode source =>
    cases mode with
    | tokenize => exact tokenize_current s source
    | parse => exact parse_current s source
    | evaluate => exact evaluate_current s source
    | run => exact run_current s source
  | reset => rfl
  | register name f => rfl

/-- Steps of a session, one after the other, whatever escapes from them. -/
def applyAll (s : Session) (steps : List Step) : Session :=
  steps.foldl (fun s step => (s.apply step).1) s

theorem applyAll_current (steps : List Step) :
    (s.applyAll steps).machine.current = s.machine.current := by
  induction steps generalizing s with
  | nil => rfl
  | cons step steps ih => exact (ih (s.apply step).1).trans (apply_current s step)

end Session

/-- **The scope in force is restored on every exit.**  For every tree, on every machine and within
any allowance, evaluation and execution leave the scope in force as it was, whether they end with a
result, a `return`, a runtime error or a fault.  So after any steps of a session, those that failed
included, the scope in force is the global one. -/
theorem current_restored :
    (∀ n room e m, (Run.after (eval n room e) m).current = m.current) ∧
    (∀ n room s m, (Run.after (exec n room s) m).current = m.current) ∧
    ∀ time traced steps, ((Session.initial time traced).applyAll steps).machine.current =
      Machine.globalScope :=
  ⟨fun n => (restoring n).eval, fun n => (restoring n).exec,
    fun time traced steps => (Session.initial time traced).applyAll_current steps⟩

end Lox
