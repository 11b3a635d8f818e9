/-
**What happens in the course of a run.**

A run is made of *activities*: the evaluation of an expression, a call, the execution of a
statement.  Each activity starts others, one after the other, as long as they give their results;
what it starts runs on the machine that the earlier ones have left.  Some activities *consult* a
reference: they ask for the scope of its variable, to read the variable or to write it.

An expression that gives a variable its first value is evaluated while the variable is *awaited*;
so are the parts of that expression, but not the bodies of the functions that it calls.

Main definitions:

* `Lox.Activity` — **an activity**, with the allowance of steps that is left for it;
* `Lox.Activity.starts` — the activities that it starts, with the machines they start on;
* `Lox.Activity.consults` — the references it consults, with the machines at hand then;
* `Lox.Reaches` — **what a run comes to**.
-/

import Lox.Machine.Eval

set_option relaxedAutoImplicit false
set_option autoImplicit false

namespace Lox

/-- An **activity**, within `n` steps and with room for more calls.  Expressions know the variable
that they are to give its first value. -/
inductive Activity where
  | expression (awaited : Option Token) (n room : Nat) (e : Expr)
  | expressions (awaited : Option Token) (n room : Nat) (es : List Expr)
  | call (n room : Nat) (callee : Value) (arguments : List Value)
  | closure (n room : Nat) (c : Closure) (arguments : List Value)
  | statement (n room : Nat) (s : Stmt)
  | statements (n room : Nat) (ss : List Stmt)
  | loop (n room : Nat) (condition : Expr) (body : Stmt)

/-- What a reference is consulted for. -/
inductive Use where
  | read
  | write
deriving DecidableEq

/-- What follows a step that gives its result. -/
def onResult {α β : Type} : EStateM.Result Interrupt Machine α → (α → Machine → List β) → List β
  | .ok a m, next => next a m
  | .error _ _, _ => []

theorem mem_onResult {α β : Type} {r : EStateM.Result Interrupt Machine α}
    {next : α → Machine → List β} {b : β} :
    b ∈ onResult r next ↔ ∃ a m, r = .ok a m ∧ b ∈ next a m := by
  constructor
  · intro hb
    cases r with
    | ok a m => exact ⟨a, m, rfl, hb⟩
    | error i m => cases hb
  · rintro ⟨a, m, rfl, hb⟩
    exact hb

namespace Activity

/-- The variable that is awaited during an activity. -/
def awaited? : Activity → Option Token
  | .expression awaited _ _ _ => awaited
  | .expressions awaited _ _ _ => awaited
  | _ => none

/-- Statements that run in a new scope. -/
def inScope (n room : Nat) (ss : List Stmt) (scope : Nat) (m : Machine) :
    List (Activity × Machine) :=
  [(.statements n room ss, { m with current := scope })]

/-- The body of what is called, if it has one and the number of arguments is right. -/
def bodyOf (n room : Nat) (callee : Value) (arguments : List Value) (m : Machine) :
    List (Activity × Machine) :=
  match m.callable? callee with
  | none => []
  | some f =>
    if (arguments.length : Int) = f.arity then
      match f with
      | .closure c => [(.closure n room c arguments, m)]
      | .cls id (some initializer) =>
        onResult (Run.newObject id m) fun object m =>
          onResult (Run.bindMethod initializer object m) fun c m =>
            [(.closure n room c arguments, m)]
      | _ => []
    else []

/-- The activities that an activity **starts**, with the machines they start on. -/
def starts : Activity → Machine → List (Activity × Machine)
  | .expression w (n + 1) room (.grouping e), m => [(.expression w n room e, m)]
  | .expression w (n + 1) room (.unary _ e), m => [(.expression w n room e, m)]
  | .expression w (n + 1) room (.binary left _ right), m =>
    (.expression w n room left, m) ::
      onResult (eval n room left m) fun _ m => [(.expression w n room right, m)]
  | .expression w (n + 1) room (.logical left operator right), m =>
    (.expression w n room left, m) ::
      onResult (eval n room left m) fun v m =>
        if v.isTruthy == (operator.kind == .keyword .or) then []
        else [(.expression w n room right, m)]
  | .expression w (n + 1) room (.assign _ e), m => [(.expression w n room e, m)]
  | .expression w (n + 1) room (.call callee _ arguments), m =>
    (.expression w n room callee, m) ::
      onResult (eval n room callee m) fun f m =>
        (.expressions w n room arguments, m) ::
          onResult (evalAll n room arguments m) fun vs m => [(.call n room f vs, m)]
  | .expression w (n + 1) room (.get object _), m => [(.expression w n room object, m)]
  | .expression w (n + 1) room (.set object _ e), m =>
    (.expression w n room object, m) ::
      onResult (eval n room object m) fun v m =>
        match v with
        | .object _ => [(.expression w n room e, m)]
        | _ => []
  | .expressions w (n + 1) room (e :: es), m =>
    (.expression w n room e, m) ::
      onResult (eval n room e m) fun _ m => [(.expressions w n room es, m)]
  | .call (n + 1) (room + 1) callee arguments, m => bodyOf n room callee arguments m
  | .closure (n + 1) room c arguments, m =>
    let parameters := c.routine.params.map (·.lexeme)
    onResult (Run.newScope c.scope (Bindings.ofList (parameters.zip arguments)) m)
      (inScope n room c.routine.body)
  | .statement (n + 1) room (.expression e), m => [(.expression none n room e, m)]
  | .statement (n + 1) room (.print e), m => [(.expression none n room e, m)]
  | .statement (n + 1) room (.var name (some e)), m => [(.expression (some name) n room e, m)]
  | .statement (n + 1) room (.block body), m =>
    onResult (Run.newScope m.current .empty m) (inScope n room body)
  | .statement (n + 1) room (.cond condition thenBranch elseBranch), m =>
    (.expression none n room condition, m) ::
      onResult (eval n room condition m) fun v m =>
        if v.isTruthy then [(.statement n room thenBranch, m)]
        else elseBranch.elim [] fun s => [(.statement n room s, m)]
  | .statement (n + 1) room (.loop condition body), m => [(.loop n room condition body, m)]
  | .statement (n + 1) room (.ret _ (some e)), m => [(.expression none n room e, m)]
  | .statements (n + 1) room (s :: ss), m =>
    (.statement n room s, m) :: onResult (exec n room s m) fun _ m => [(.statements n room ss, m)]
  | .loop (n + 1) room condition body, m =>
    (.expression none n room condition, m) ::
      onResult (eval n room condition m) fun v m =>
        if v.isTruthy then
          (.statement n room body, m) ::
            onResult (exec n room body m) fun _ m => [(.loop n room condition body, m)]
        else []
  | _, _ => []

/-- The references that an activity itself **consults**, with the machines at hand then.  A variable
is assigned after the new value is evaluated. -/
def consults : Activity → Machine → List (Use × Reference × Machine)
  | .expression _ (_ + 1) _ (.variable ref), m => [(.read, ref, m)]
  | .expression _ (n + 1) room (.assign ref e), m =>
    onResult (eval n room e m) fun _ m => [(.write, ref, m)]
  | .expression _ (_ + 1) _ (.this ref), m => [(.read, ref, m)]
  | .expression _ (_ + 1) _ (.super ref _), m => [(.read, ref, m)]
  | .statement (_ + 1) _ (.classDecl _ (some ref) _), m => [(.read, ref, m)]
  | _, _ => []

end Activity

/-- What an activity **comes to** in the course of a run: itself, and what is started on the way. -/
inductive Reaches (a : Activity) (m : Machine) : Activity → Machine → Prop
  | self : Reaches a m a m
  | start {b c : Activity} {m₁ m₂ : Machine} (h : Reaches a m b m₁) (hc : (c, m₂) ∈ b.starts m₁) :
      Reaches a m c m₂

end Lox
