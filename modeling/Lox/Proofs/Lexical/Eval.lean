/-
**Lexical scoping, said directly.**

The evaluation of expressions and the execution of statements over names and cells.  A step is
given the names in force; a statement gives back the names in force behind it.  A declared name is
in force from its own declaration on — its initializer, its body and its methods included — up to
the end of its block.

Everything that has nothing to do with names — operators, the order of evaluation, calls, fields,
printing, the depth to which calls may be nested and the allowance of steps — is as in
`Lox.eval` and `Lox.exec`.

Main definitions:

* `Lox.Lexical.lookUp`, `Lox.Lexical.assign` — a name that is read or assigned;
* `Lox.Lexical.eval`, `Lox.Lexical.exec` — **expressions and statements**;
* `Lox.Lexical.call`, `Lox.Lexical.runClosure` — calls.
-/

import Lox.Machine.Eval
import Lox.Proofs.Lexical.Basic

set_option relaxedAutoImplicit false
set_option autoImplicit false

namespace Lox

namespace Lexical

open Lexical.Run

/-! ### Names -/

/-- The value of a name: that of its cell if it is local, else that among the globals. -/
def lookUp (ρ : Names) (name : Token) : Run Value :=
  match ρ.cell? name.lexeme with
  | some cell => readCell name.lexeme cell
  | none => do
    match (← get).globals.get? name.lexeme with
    | some v => return v
    | none => throw (.at name (.undefinedVariable name.lexeme))

/-- Gives a name a value: in its cell if it is local, else among the globals, where it must have
one. -/
def assign (ρ : Names) (name : Token) (v : Value) : Run Unit :=
  match ρ.cell? name.lexeme with
  | some cell => setCell cell v
  | none => do
    if (← get).globals.binds name.lexeme then setGlobal name.lexeme v
    else throw (.at name (.undefinedVariable name.lexeme))

/-- The value of a name that is local. -/
def lookUpLocal (ρ : Names) (x : String) : Run Value :=
  match ρ.cell? x with
  | some cell => readCell x cell
  | none => throw (.fault (.unbound x 0))

/-! ### Objects -/

/-- A property of an object: a field, or else a method bound to the object. -/
def getProperty (id : Nat) (name : Token) : Run Value := do
  let s ← get
  let object? := s.objects[id]?
  match object?.bind (·.fields.get? name.lexeme) with
  | some v => return v
  | none =>
    match object?.bind fun o => s.findMethod o.cls name.lexeme with
    | some method => newClosure (← bindMethod method (.object id))
    | none => throw (.at name (.undefinedProperty name.lexeme))

/-- A method of the superclass, bound to the object at hand. -/
def superMethod (ρ : Names) (method : Token) : Run Value := do
  let superclass ← lookUpLocal ρ superName
  let object ← lookUpLocal ρ thisName
  match superclass with
  | .cls id =>
    match (← get).findMethod id method.lexeme with
    | some found => newClosure (← bindMethod found object)
    | none => throw (.at method (.undefinedProperty method.lexeme))
  | _ => throw (.fault .superNotClass)

/-- The methods of a class, declared under the given names; of two of one name the later counts. -/
def methodTable (ρ : Names) (methods : List Routine) : Bindings Closure :=
  Bindings.ofList (methods.map fun r => (r.name.lexeme, ⟨r, ρ, r.isInitializer⟩))

/-- The class that a declaration inherits from. -/
def superclassOf (ρ : Names) : Option Reference → Run (Option Nat)
  | none => return none
  | some ref => do
    match ← lookUp ρ ref.name with
    | .cls id => return some id
    | _ => throw (.at ref.name .superclassNotClass)

/-- The names that the methods of a class are declared under: if the class inherits, `super` is one
of them. -/
def methodNames (ρ : Names) : Option Nat → Run Names
  | none => return ρ
  | some id => do return ρ.bind superName (← newCell (some (.cls id)))

/-- A class declaration. -/
def declareClass (ρ : Names) (name : Token) (superclass : Option Reference)
    (methods : List Routine) : Run Names := do
  let (ρ, cell?) ← declare ρ name.lexeme
  let superclass? ← superclassOf ρ superclass
  let names ← methodNames ρ superclass?
  let s ← get
  let methods := methodTable names methods
  let cls ← newClass (.mk name.lexeme (superclass?.bind (s.classes[·]?)) methods)
  fill name.lexeme cls cell?
  return ρ

/-- A call of a native function. -/
def callNative (f : Native) (arguments : List Value) : Run Value := do
  let s ← get
  match f.action with
  | .clock => return .number s.time
  | .echo => return .string (f.name ++ "(" ++ ",".intercalate (arguments.map s.text) ++ ")")
  | .fail message => throw (.error ⟨none, .native message⟩)
  | .compute g =>
    match g arguments with
    | .ok v => return v
    | .error e => throw (.error e)

/-- The result of an operator. -/
def ofOperator : Except Interrupt Value → Run Value
  | .ok v => return v
  | .error i => throw i

/-! ### Evaluation and execution -/

mutual

/-- The **evaluation** of an expression under the given names, in at most `n` nested steps and with
calls nested at most `room` deep. -/
def eval : Nat → Nat → Names → Expr → Run Value
  | 0, _, _, _ => throw .outOfFuel
  | _ + 1, _, _, .literal value => return value.toValue
  | n + 1, room, ρ, .grouping e => eval n room ρ e
  | n + 1, room, ρ, .unary operator e => do
    let v ← eval n room ρ e
    ofOperator (applyUnary operator v)
  | n + 1, room, ρ, .binary left operator right => do
    let v ← eval n room ρ left
    let w ← eval n room ρ right
    ofOperator (applyBinary v operator w)
  | n + 1, room, ρ, .logical left operator right => do
    let v ← eval n room ρ left
    if v.isTruthy == (operator.kind == .keyword .or) then return v else eval n room ρ right
  | _ + 1, _, ρ, .variable ref => lookUp ρ ref.name
  | n + 1, room, ρ, .assign ref e => do
    let v ← eval n room ρ e
    assign ρ ref.name v
    return v
  | n + 1, room, ρ, .call callee paren arguments => do
    let f ← eval n room ρ callee
    let vs ← evalAll n room ρ arguments
    call n room paren f vs
  | n + 1, room, ρ, .get object name => do
    match ← eval n room ρ object with
    | .object id => getProperty id name
    | _ => throw (.at name .propertyOfNonInstance)
  | n + 1, room, ρ, .set object name e => do
    match ← eval n room ρ object with
    | .object id =>
      let v ← eval n room ρ e
      setField id name.lexeme v
      return v
    | _ => throw (.at name .fieldOfNonInstance)
  | _ + 1, _, ρ, .this _ => lookUpLocal ρ thisName
  | _ + 1, _, ρ, .super _ method => superMethod ρ method
  | _ + 1, _, _, .hole h => throw (.fault (.unhandled h.shape .execution))
termination_by structural n => n

/-- The evaluation of arguments, from left to right. -/
def evalAll : Nat → Nat → Names → List Expr → Run (List Value)
  | 0, _, _, _ => throw .outOfFuel
  | _ + 1, _, _, [] => return []
  | n + 1, room, ρ, e :: es => do
    let v ← eval n room ρ e
    let vs ← evalAll n room ρ es
    return v :: vs
termination_by structural n => n

/-- A call; `paren` is the token that its mistakes are reported at. -/
def call : Nat → Nat → Token → Value → List Value → Run Value
  | 0, _, _, _, _ => throw .outOfFuel
  | n + 1, room, paren, callee, arguments => do
    match (← get).callable? callee with
    | none => throw (.at paren .notCallable)
    | some f =>
      if (arguments.length : Int) = f.arity then
        match room, f with
        | 0, _ => throw (.at paren .stackOverflow)
        | _ + 1, .native f => callNative f arguments
        | room + 1, .closure c => runClosure n room c arguments
        | _ + 1, .cls id none => newObject id
        | room + 1, .cls id (some initializer) => do
          let object ← newObject id
          let _ ← runClosure n room (← bindMethod initializer object) arguments
          return object
      else
        throw (.at paren (.argumentCount f.arity arguments.length))
termination_by structural n => n

/-- The run of a body, whose parameters are new local names.  An initializer gives the object it is
bound to, whatever its body returns. -/
def runClosure : Nat → Nat → Closure → List Value → Run Value
  | 0, _, _, _ => throw .outOfFuel
  | n + 1, room, c, arguments => do
    let parameters := c.routine.params.map (·.lexeme)
    let ρ ← bindAll c.names.inside (parameters.zip arguments)
    let v ← catchReturn (execAll n room ρ c.routine.body)
    if c.isInitializer then lookUpLocal c.names thisName else return v
termination_by structural n => n

/-- The **execution** of a statement, which gives the names in force behind it. -/
def exec : Nat → Nat → Names → Stmt → Run Names
  | 0, _, _, _ => throw .outOfFuel
  | n + 1, room, ρ, .expression e => do
    let _ ← eval n room ρ e
    return ρ
  | n + 1, room, ρ, .print e => do
    let v ← eval n room ρ e
    print ((← get).text v)
    return ρ
  | _ + 1, _, ρ, .var name none => do
    let (ρ, cell?) ← declare ρ name.lexeme
    fill name.lexeme .nil cell?
    return ρ
  | n + 1, room, ρ, .var name (some e) => do
    let (ρ, cell?) ← declare ρ name.lexeme
    let v ← eval n room ρ e
    fill name.lexeme v cell?
    return ρ
  | n + 1, room, ρ, .block body => do
    let _ ← execAll n room ρ.inside body
    return ρ
  | n + 1, room, ρ, .cond condition thenBranch elseBranch => do
    let v ← eval n room ρ condition
    if v.isTruthy then
      let _ ← exec n room ρ thenBranch
      return ρ
    else
      match elseBranch with
      | none => return ρ
      | some s =>
        let _ ← exec n room ρ s
        return ρ
  | n + 1, room, ρ, .loop condition body => execLoop n room ρ condition body
  | _ + 1, _, ρ, .function routine => do
    let (ρ, cell?) ← declare ρ routine.name.lexeme
    let f ← newClosure ⟨routine, ρ, false⟩
    fill routine.name.lexeme f cell?
    return ρ
  | _ + 1, _, _, .ret _ none => throw (.returned .nil)
  | n + 1, room, ρ, .ret _ (some e) => do
    let v ← eval n room ρ e
    throw (.returned v)
  | _ + 1, _, ρ, .classDecl name superclass methods => declareClass ρ name superclass methods
termination_by structural n => n

/-- The execution of statements, one after the other. -/
def execAll : Nat → Nat → Names → List Stmt → Run Names
  | 0, _, _, _ => throw .outOfFuel
  | _ + 1, _, ρ, [] => return ρ
  | n + 1, room, ρ, s :: ss => do
    let ρ ← exec n room ρ s
    execAll n room ρ ss
termination_by structural n => n

/-- A loop: as long as the condition holds, the body is executed. -/
def execLoop : Nat → Nat → Names → Expr → Stmt → Run Names
  | 0, _, _, _, _ => throw .outOfFuel
  | n + 1, room, ρ, condition, body => do
    let v ← eval n room ρ condition
    if v.isTruthy then
      let _ ← exec n room ρ body
      execLoop n room ρ condition body
    else
      return ρ
termination_by structural n => n

end

end Lexical

end Lox
