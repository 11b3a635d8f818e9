/-
**Running programs.**

The evaluation of expressions and the execution of statements.  Operands, arguments and statements
are taken from left to right; a call checks what it calls after the arguments are evaluated, and
the number of arguments after that.  Calls may be nested up to a fixed depth, beyond which a call
is an error of the program.

The functions take an amount of fuel, which every call of them lowers, so that they are total; the
wrappers `Machine.execute` and `Machine.evaluate` give more than any run uses up.

Main definitions:

* `Lox.lookUp`, `Lox.targetOf` — a reference that is read or assigned;
* `Lox.eval`, `Lox.exec` — **expressions and statements**;
* `Lox.call`, `Lox.runClosure` — calls;
* `Lox.Machine.execute`, `Lox.Machine.evaluate` — a whole program, and a single expression.
-/

import Lox.Machine.Basic

set_option relaxedAutoImplicit false
set_option autoImplicit false

namespace Lox

open Run

/-! ### References -/

/-- The value of a reference: at its distance if it has one, else among the globals. -/
def lookUp (ref : Reference) : Run Value := do
  let m ← get
  match m.distances[ref.id]? with
  | some d => ofDistance (m.heap.getAt m.current d ref.name.lexeme)
  | none => ofSearch (m.heap.get Machine.globalScope ref.name)

/-- The scope in which a reference is assigned: at its distance if it has one, else the global
one. -/
def targetOf (ref : Reference) : Run Nat := do
  let m ← get
  match m.distances[ref.id]? with
  | some d => ofDistance (m.heap.ancestor m.current d)
  | none => ofSearch (m.heap.find Machine.globalScope ref.name)

/-! ### Objects -/

/-- A property of an object: a field, or else a method bound to the object. -/
def getProperty (id : Nat) (name : Token) : Run Value := do
  let m ← get
  let object? := m.objects[id]?
  match object?.bind (·.fields.get? name.lexeme) with
  | some v => return v
  | none =>
    match object?.bind fun o => m.classes.findMethod o.cls name.lexeme with
    | some method => newClosure (← bindMethod method (.object id))
    | none => throw (.at name (.undefinedProperty name.lexeme))

/-- A method of the superclass, bound to the object at hand.  The scope that binds `this` lies
directly inside the one that binds `super`. -/
def superMethod (ref : Reference) (method : Token) : Run Value := do
  let m ← get
  match m.distances[ref.id]? with
  | none => throw (.fault (.unresolvedSuper ref.name method))
  | some d =>
    let superclass ← ofDistance (m.heap.getAt m.current d superName)
    let object ← ofDistance (m.heap.getAt m.current ((d : Int) - 1) thisName)
    match superclass with
    | .cls id =>
      match m.classes.findMethod id method.lexeme with
      | some found => newClosure (← bindMethod found object)
      | none => throw (.at method (.undefinedProperty method.lexeme))
    | _ => throw (.fault .superNotClass)

/-- The methods of a class, declared in the given scope; of two of one name the later counts. -/
def methodTable (scope : Nat) (methods : List Routine) : Bindings Closure :=
  Bindings.ofList (methods.map fun r => (r.name.lexeme, ⟨r, scope, r.isInitializer⟩))

/-- The class that a declaration inherits from. -/
def superclassOf : Option Reference → Run (Option Nat)
  | none => return none
  | some ref => do
    match ← lookUp ref with
    | .cls id => return some id
    | _ => throw (.at ref.name .superclassNotClass)

/-- The scope that the methods of a class are declared in: the one in force or, if the class
inherits, a new one inside it that binds `super`. -/
def methodScope : Option Nat → Run Nat
  | none => return (← get).current
  | some id => do newScope (← get).current (Bindings.empty.set superName (.cls id))

/-- A class declaration.  The class is made after its superclass is looked up, and bound to its
name at the end. -/
def declareClass (name : Token) (superclass : Option Reference) (methods : List Routine) :
    Run Unit := do
  let superclass? ← superclassOf superclass
  define name.lexeme .nil
  let scope ← methodScope superclass?
  let cls ← newClass ⟨name.lexeme, superclass?, methodTable scope methods⟩
  let m ← get
  store (← ofSearch (m.heap.find m.current name)) name.lexeme cls

/-- A call of a native function. -/
def callNative (f : Native) (arguments : List Value) : Run Value := do
  let m ← get
  match f.action with
  | .clock => return .number m.time
  | .echo => return .string (f.name ++ "(" ++ ",".intercalate (arguments.map m.text) ++ ")")
  | .fail message => throw (.error ⟨none, .native message⟩)
  | .compute f => ofSearch (f arguments)

/-! ### Evaluation -/

mutual

/-- The evaluation of an expression; calls can still be nested `room` deep. -/
def eval : Nat → Nat → Expr → Run Value
  | 0, _, _ => throw .outOfFuel
  | _ + 1, _, .literal value => return value.toValue
  | n + 1, room, .grouping e => eval n room e
  | n + 1, room, .unary operator e => do
    let v ← eval n room e
    ofOperator (applyUnary operator v)
  | n + 1, room, .binary left operator right => do
    let v ← eval n room left
    let w ← eval n room right
    ofOperator (applyBinary v operator w)
  | n + 1, room, .logical left operator right => do
    let v ← eval n room left
    -- `or` is settled by a true left side, `and` by a false one.
    if v.isTruthy == (operator.kind == .keyword .or) then return v else eval n room right
  | _ + 1, _, .variable ref => lookUp ref
  | n + 1, room, .assign ref e => do
    let v ← eval n room e
    store (← targetOf ref) ref.name.lexeme v
    return v
  | n + 1, room, .call callee paren arguments => do
    let f ← eval n room callee
    let vs ← evalAll n room arguments
    call n room paren f vs
  | n + 1, room, .get object name => do
    match ← eval n room object with
    | .object id => getProperty id name
    | _ => throw (.at name .propertyOfNonInstance)
  | n + 1, room, .set object name e => do
    match ← eval n room object with
    | .object id =>
      -- The object is checked before the value is evaluated.
      let v ← eval n room e
      setField id name.lexeme v
      return v
    | _ => throw (.at name .fieldOfNonInstance)
  | _ + 1, _, .this ref => lookUp ref
  | _ + 1, _, .super ref method => superMethod ref method
  | _ + 1, _, .hole h => throw (.fault (.unhandled h.shape .execution))
termination_by structural n => n

/-- The evaluation of arguments, from left to right. -/
def evalAll : Nat → Nat → List Expr → Run (List Value)
  | 0, _, _ => throw .outOfFuel
  | _ + 1, _, [] => return []
  | n + 1, room, e :: es => do
    let v ← eval n room e
    let vs ← evalAll n room es
    return v :: vs
termination_by structural n => n

/-- A call; `paren` is the token that its mistakes are reported at. -/
def call : Nat → Nat → Token → Value → List Value → Run Value
  | 0, _, _, _, _ => throw .outOfFuel
  | n + 1, room, paren, callee, arguments => do
    match (← get).callable? callee with
    | none => throw (.at paren .notCallable)
    | some f =>
      if (arguments.length : Int) = f.arity then
        match room, f with
        | 0, _ => throw (.at paren .stackOverflow)
        | _ + 1, .native f => callNative f arguments
        | room + 1, .closure c => runClosure n room c arguments
        | _ + 1, .cls id none => newObject id
        | room + 1, .cls id (some initializer) => do
          let object ← newObject id
          let _ ← runClosure n room (← bindMethod initializer object) arguments
          return object
      else
        throw (.at paren (.argumentCount f.arity arguments.length))
termination_by structural n => n

/-- The run of a body in a scope of its own, which binds the parameters.  An initializer gives the
object it is bound to, whatever its body returns. -/
def runClosure : Nat → Nat → Closure → List Value → Run Value
  | 0, _, _, _ => throw .outOfFuel
  | n + 1, room, c, arguments => do
    let parameters := c.routine.params.map (·.lexeme)
    let scope ← newScope c.scope (Bindings.ofList (parameters.zip arguments))
    let v ← catchReturn (within scope (execAll n room c.routine.body))
    if c.isInitializer then ofDistance ((← get).heap.getAt c.scope 0 thisName) else return v
termination_by structural n => n

/-- The execution of a statement. -/
def exec : Nat → Nat → Stmt → Run Unit
  | 0, _, _ => throw .outOfFuel
  | n + 1, room, .expression e => do
    let _ ← eval n room e
  | n + 1, room, .print e => do
    let v ← eval n room e
    print ((← get).text v)
  | _ + 1, _, .var name none => define name.lexeme .nil
  | n + 1, room, .var name (some e) => do
    let v ← eval n room e
    define name.lexeme v
  | n + 1, room, .block body => do
    let scope ← newScope (← get).current .empty
    within scope (execAll n room body)
  | n + 1, room, .cond condition thenBranch elseBranch => do
    let v ← eval n room condition
    if v.isTruthy then
      exec n room thenBranch
    else
      match elseBranch with
      | none => return ()
      | some s => exec n room s
  | n + 1, room, .loop condition body => execLoop n room condition body
  | _ + 1, _, .function routine => do
    let f ← newClosure ⟨routine, (← get).current, false⟩
    define routine.name.lexeme f
  | _ + 1, _, .ret _ none => throw (.returned .nil)
  | n + 1, room, .ret _ (some e) => do
    let v ← eval n room e
    throw (.returned v)
  | _ + 1, _, .classDecl name superclass methods => declareClass name superclass methods
termination_by structural n => n

/-- The execution of statements, one after the other. -/
def execAll : Nat → Nat → List Stmt → Run Unit
  | 0, _, _ => throw .outOfFuel
  | _ + 1, _, [] => return ()
  | n + 1, room, s :: ss => do
    exec n room s
    execAll n room ss
termination_by structural n => n

/-- A loop: as long as the condition holds, the body is executed. -/
def execLoop : Nat → Nat → Expr → Stmt → Run Unit
  | 0, _, _, _ => throw .outOfFuel
  | n + 1, room, condition, body => do
    let v ← eval n room condition
    if v.isTruthy then
      exec n room body
      execLoop n room condition body
termination_by structural n => n

end

/-! ### Whole programs -/

/-- The frames that the host's stack has: with more of them a call ends in an error. -/
def stackFrames : Nat := 20000

/-- The frames that a call takes: four until it is made, two for the function that is called, and
four for the statement in which the function makes the next call. -/
def callFrames : Nat := 10

/-- The frames that a statement of a program takes around its expression. -/
def statementFrames : Nat := 4

/-- How deep the calls of a program can be nested.  This stands for the host's limit, which is one
on frames of any kind, while here only those are counted that no call does without.  The host's own
frames below the program, operands inside operands, blocks and branches, and the making of an object
around its initializer take more, so that the host reports the error some calls earlier, and maybe
on another line.  A program that ends on the host without that error ends so here. -/
def maxCallDepth : Nat := (stackFrames - statementFrames) / callFrames

/-- The same for an expression on its own, around which there is no statement. -/
def maxExpressionCallDepth : Nat := stackFrames / callFrames

/-- The allowance of steps; no run on a real machine comes near it. -/
def maxSteps : Nat := 1000000000000000000

/-- The execution of a program. -/
def Machine.execute (program : List Stmt) : Run Unit := execAll maxSteps maxCallDepth program

/-- The evaluation of an expression, to the text of its value. -/
def Machine.evaluate (e : Expr) : Run String := do
  let v ← eval maxSteps maxExpressionCallDepth e
  return (← get).text v

end Lox
