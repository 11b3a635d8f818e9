/-
**Calls and initializers.**

A call counts its arguments once, against the number of parameters of whatever it calls; a class
stands there for its initializer, which it may have inherited.  So a body is entered with as many
arguments as it has parameters, whichever way leads to it.  A class gives a new object of its own.
An initializer is always a bound method, and gives the object that it is bound to: the scope that
binds `this` to the object lies directly around the run of the body, and no body can change it.

Main definitions:

* `Lox.Closure.entered` — the machine on which the body of a closure begins;
* `Lox.Closure.Takes` — **a closure is entered with all its arguments**;
* `Lox.CallComesTo` — **what a call comes down to**;
* `Lox.Closure.GivesObject` — **an initializer gives its object**, however its body ends;
* `Lox.Activity.CallsRight` — calls as they should be.

Main results:

* `Lox.call_comesTo` — a call refuses, or enters a body whose parameters it has counted;
* `Lox.Activity.Secure.takes` — a body is entered with all its arguments;
* `Lox.Activity.Secure.newObject_of_call` — a class gives a new object of its own;
* `Lox.Closure.Secure.isInitializer_iff` — the initializers are the bound methods of that name;
* `Lox.Activity.Secure.givesObject` — and they give their objects;
* `Lox.Activity.Secure.callsRight` — all this, of whatever a run comes to.
-/

import Lox.Proofs.Receiver.Run
import Lox.Proofs.Sequence

set_option relaxedAutoImplicit false
set_option autoImplicit false

namespace Lox

/-! ### Parameters and arguments -/

namespace Bindings

variable {α : Type}

theorem get?_foldl_set {x : String} (es : List (String × α)) (b : Bindings α)
    (hx : x ∉ es.map Prod.fst) : (es.foldl (fun b e => b.set e.1 e.2) b).get? x = b.get? x := by
  induction es generalizing b with
  | nil => rfl
  | cons e es ih =>
    obtain ⟨hne, hrest⟩ := not_or.1 (mt List.mem_cons.2 hx)
    rw [List.foldl_cons, ih _ hrest, get?_set, if_neg hne]

/-- Where no name is given two values, a name has the value that it is given. -/
theorem get?_ofList_of_mem {es : List (String × α)} (hes : (es.map Prod.fst).Nodup) {x : String}
    {v : α} (hx : (x, v) ∈ es) : (ofList es).get? x = some v := by
  obtain ⟨before, behind, rfl⟩ := List.append_of_mem hx
  rw [List.map_append, List.map_cons] at hes
  have hbehind := (List.nodup_cons.1 (List.nodup_append.1 hes).2.1).1
  rw [ofList, List.foldl_append, List.foldl_cons, get?_foldl_set behind _ hbehind, get?_set_self]

end Bindings

/-- The machine on which the body of a closure begins: in a new scope, which binds the parameters
to the arguments. -/
def Closure.entered (c : Closure) (arguments : List Value) (m : Machine) : Machine :=
  { m with
    heap := m.heap.push (some c.scope)
      (Bindings.ofList ((c.routine.params.map (·.lexeme)).zip arguments))
    current := m.heap.size }

/-- A closure is **entered with all its arguments**: there are as many as there are parameters, none
is dropped when they are paired, and each parameter has the value of its argument where the body
begins. -/
structure Closure.Takes (c : Closure) (arguments : List Value) (m : Machine) : Prop where
  length_eq : arguments.length = c.routine.params.length
  paired : ((c.routine.params.map (·.lexeme)).zip arguments).unzip =
    (c.routine.params.map (·.lexeme), arguments)
  bound : ∀ (i : Nat) (p : Token) (v : Value), c.routine.params[i]? = some p →
    arguments[i]? = some v →
    (c.entered arguments m).heap.get? (c.entered arguments m).current p.lexeme = some v

/-- With distinct parameters, it is enough that their number is right. -/
theorem Closure.Takes.of_length {c : Closure} {arguments : List Value} {L : Ledger} {Γ : Scopes}
    (hlength : arguments.length = c.routine.params.length)
    (hparams : ParametersScoped L Γ c.routine.params) (m : Machine) : c.Takes arguments m where
  length_eq := hlength
  paired := List.unzip_zip (by simp [hlength])
  bound := fun i p v hp hv => by
    have hnames : ((c.routine.params.map (·.lexeme)).zip arguments).map Prod.fst =
        c.routine.params.map (·.lexeme) := List.map_fst_zip (by simp [hlength])
    have hmem : (p.lexeme, v) ∈ (c.routine.params.map (·.lexeme)).zip arguments := by
      refine List.mem_iff_getElem?.2 ⟨i, ?_⟩
      rw [List.getElem?_zip_eq_some, List.getElem?_map, hp, hv]
      exact ⟨rfl, rfl⟩
    have hnodup := hparams.nodup
    rw [← hnames] at hnodup
    change (Heap.push ..).get? m.heap.size p.lexeme = some v
    rw [Heap.get?_push, if_pos rfl, Bindings.get?_ofList_of_mem hnodup hmem]

/-! ### What a call comes down to -/

/-- **What a call comes down to**, within `n + 1` steps and with `room` for more calls.  Where a
body is run, the number of its parameters is the number of arguments. -/
inductive CallComesTo (n : Nat) (paren : Token) (arguments : List Value) (m : Machine) :
    Nat → Value → EStateM.Result Interrupt Machine Value → Prop
  /-- The call is refused, and nothing has changed. -/
  | refused {room : Nat} {callee : Value} (cause : RuntimeCause) :
      CallComesTo n paren arguments m room callee (.error (.at paren cause) m)
  | native {room : Nat} {callee : Value} {f : Native} (hf : m.callable? callee = some (.native f))
      (hlength : (arguments.length : Int) = f.arity) :
      CallComesTo n paren arguments m (room + 1) callee (callNative f arguments m)
  /-- A function, or a method that has been bound before. -/
  | closure {room id : Nat} {c : Closure} (hc : m.closures[id]? = some c)
      (hlength : arguments.length = c.routine.params.length) :
      CallComesTo n paren arguments m (room + 1) (.closure id) (runClosure n room c arguments m)
  /-- A class without an initializer. -/
  | plainClass {room k : Nat} (hk : m.classes.findMethod k Routine.initializerName = none)
      (hlength : arguments.length = 0) :
      CallComesTo n paren arguments m (room + 1) (.cls k) (Run.newObject k m)
  /-- A class with an initializer, its own or an inherited one, which is bound to the new object. -/
  | initializedClass {room k : Nat} {f : Closure}
      (hk : m.classes.findMethod k Routine.initializerName = some f)
      (hlength : arguments.length = f.routine.params.length) :
      CallComesTo n paren arguments m (room + 1) (.cls k)
        ((do
          let object ← Run.newObject k
          let _ ← runClosure n room (← Run.bindMethod f object) arguments
          return object : Run Value) m)

/-- **A call refuses, or enters a body whose parameters it has counted.** -/
theorem call_comesTo (n room : Nat) (paren : Token) (callee : Value) (arguments : List Value)
    (m : Machine) :
    CallComesTo n paren arguments m room callee (call (n + 1) room paren callee arguments m) := by
  rw [call, get_bind]
  cases hf : m.callable? callee with
  | none => exact .refused .notCallable
  | some f =>
    dsimp only
    by_cases harity : (arguments.length : Int) = f.arity
    · rw [if_pos harity]
      cases room with
      | zero => exact .refused .stackOverflow
      | succ room =>
        cases f with
        | native f => exact .native hf harity
        | closure c =>
          cases callee with
          | closure id =>
            obtain ⟨c', hc, heq⟩ := Option.map_eq_some_iff.1 hf
            cases heq
            exact .closure hc (Int.ofNat_inj.1 harity)
          | native id => obtain ⟨_, -, heq⟩ := Option.map_eq_some_iff.1 hf; cases heq
          | _ => cases hf
        | cls k initializer =>
          cases callee with
          | cls id =>
            obtain ⟨rfl, hk⟩ := Machine.Callable.cls.inj (Option.some.inj hf)
            cases initializer with
            | none => exact .plainClass hk (Int.ofNat_inj.1 harity)
            | some f => exact .initializedClass hk (Int.ofNat_inj.1 harity)
          | closure id => obtain ⟨_, -, heq⟩ := Option.map_eq_some_iff.1 hf; cases heq
          | native id => obtain ⟨_, -, heq⟩ := Option.map_eq_some_iff.1 hf; cases heq
          | _ => cases hf
    · rw [if_neg harity]
      exact .refused (.argumentCount f.arity arguments.length)

/-! ### The ways into a body -/

section

variable {E : Events} {L : Ledger} {n room : Nat} {m m' : Machine} {c : Closure}
  {arguments : List Value}

/-- What is called is entered with as many arguments as it has parameters. -/
theorem Activity.length_of_mem_bodyOf {n' room' : Nat} {callee : Value} {vs : List Value}
    (h : (Activity.closure n room c arguments, m') ∈ Activity.bodyOf n' room' callee vs m) :
    arguments.length = c.routine.params.length := by
  unfold Activity.bodyOf at h
  cases hf : m.callable? callee with
  | none => simp [hf] at h
  | some f =>
    simp only [hf] at h
    split at h
    · rename_i harity
      cases f with
      | closure c' =>
        obtain ⟨heq, rfl⟩ := Prod.mk.inj (List.mem_singleton.1 h)
        cases heq
        exact Int.ofNat_inj.1 harity
      | native f => cases h
      | cls k initializer =>
        cases initializer with
        | none => cases h
        | some f =>
          obtain ⟨object, m₁, -, h⟩ := mem_onResult.1 h
          obtain ⟨c', m₂, hc, h⟩ := mem_onResult.1 h
          obtain ⟨heq, rfl⟩ := Prod.mk.inj (List.mem_singleton.1 h)
          cases heq
          -- The method keeps its parameters when it is bound.
          obtain ⟨rfl, -⟩ := EStateM.Result.ok.inj hc
          exact Int.ofNat_inj.1 harity
    · cases h

/-- A body is entered from a call, and from nothing else. -/
theorem Activity.length_of_mem_starts {a : Activity}
    (h : (Activity.closure n room c arguments, m') ∈ a.starts m) :
    arguments.length = c.routine.params.length := by
  unfold Activity.starts at h
  split at h
  case h_10 => exact length_of_mem_bodyOf h
  -- All other activities start expressions, statements, loops and calls.
  all_goals
    simp only [List.mem_cons, List.mem_nil_iff, mem_onResult, inScope, Prod.mk.injEq,
      reduceCtorEq, false_and, or_false, false_or, and_false, exists_false] at h
  case h_16 elseBranch =>
    obtain ⟨_, _, -, h⟩ := h
    cases elseBranch <;> grind
  all_goals
    obtain ⟨_, _, -, h⟩ := h
    grind [mem_onResult]

/-- Whatever closure a run of statements comes to, it is entered with as many arguments as it has
parameters. -/
theorem Reaches.length_eq {k room' : Nat} {ss : List Stmt} {start : Machine}
    (hreach : Reaches (.statements k room' ss) start (.closure n room c arguments) m) :
    arguments.length = c.routine.params.length := by
  cases hreach with
  | start _ hc => exact Activity.length_of_mem_starts hc

/-- **Whatever closure a run comes to is entered with all its arguments.** -/
theorem Activity.Secure.takes (h : (Activity.closure n room c arguments).Secure E L m)
    (hlength : arguments.length = c.routine.params.length) : c.Takes arguments m := by
  have hfits : c.Secure E L m := h.fits
  cases hfits with
  | function _ _ hscoped _ => exact .of_length hlength ((Routine.scoped_iff ..).1 hscoped).2.1 m
  | method _ _ hscoped => exact .of_length hlength ((Routine.scoped_iff ..).1 hscoped).2.1 m

/-! ### New objects -/

/-- A new object is of the class that it is made from, and stays so. -/
theorem objects_of_newObject {k : Nat} {object : Value} {m₁ m₂ : Machine}
    (hobject : Run.newObject k m = .ok object m₁) (hg : m₁.Grows m₂) :
    object = .object m.objects.size ∧
      ∃ info, m₂.objects[m.objects.size]? = some info ∧ info.cls = k := by
  obtain ⟨rfl, rfl⟩ := EStateM.Result.ok.inj hobject
  refine ⟨rfl, ?_⟩
  obtain ⟨info, hinfo, hcls⟩ := hg.objects m.objects.size ⟨k, .empty⟩ Array.getElem?_push_size
  exact ⟨info, hinfo, hcls⟩

/-- **A class gives a new object of its own**, if the call ends with a value. -/
theorem Activity.Secure.newObject_of_call {k : Nat} {paren : Token} {v : Value}
    (h : (Activity.call n room (.cls k) arguments).Secure E L m)
    (hv : Lox.call n room paren (.cls k) arguments m = .ok v m') :
    v = .object m.objects.size ∧
      ∃ info, m'.objects[m.objects.size]? = some info ∧ info.cls = k := by
  cases n with
  | zero => cases hv
  | succ n =>
    have hcall := call_comesTo n room paren (.cls k) arguments m
    generalize hr : Lox.call (n + 1) room paren (.cls k) arguments m = r at hcall
    rw [hv] at hr
    cases hcall with
    | refused cause => cases hr
    | native hf _ => cases hf
    | plainClass hk _ => exact objects_of_newObject hr.symm (.refl _)
    | @initializedClass room _ f hk hlength =>
      obtain ⟨object, m₁, hobject⟩ : ∃ object m₁, Run.newObject k m = .ok object m₁ :=
        ⟨_, _, rfl⟩
      obtain ⟨c, m₂, hc⟩ : ∃ c m₂, Run.bindMethod f object m₁ = .ok c m₂ := ⟨_, _, rfl⟩
      have hstarts : (Activity.closure n room c arguments, m₂) ∈
          (Activity.call (n + 1) (room + 1) (.cls k) arguments).starts m := by
        have harity : (arguments.length : Int) = (Machine.Callable.cls k (some f)).arity :=
          Int.ofNat_inj.2 hlength
        simp only [Activity.starts, Activity.bodyOf, Machine.callable?, hk, if_pos harity,
          mem_onResult]
        exact ⟨object, m₁, hobject, c, m₂, hc, .head _⟩
      have hbody := (sustains E L n).runClosure room c arguments (h.call_starts hstarts)
      have hbind := (Preserves.bindMethod ((Preserves.newObject h.sane k).of_ok hobject).sane
        f object).of_ok hc
      rw [bind_ok hobject, bind_ok hc] at hr
      cases hrun : runClosure n room c arguments m₂ with
      | error i m₃ =>
        rw [bind_error hrun] at hr
        cases hr
      | ok w m₃ =>
        rw [bind_ok hrun] at hr
        obtain ⟨rfl, rfl⟩ := EStateM.Result.ok.inj hr
        exact objects_of_newObject hobject (hbind.grows.trans (hbody.of_ok hrun).grows)

/-! ### Initializers -/

/-- A bound method is an initializer if it has the name of one. -/
theorem Bound.isInitializer_eq {x : Founding} {o : Nat} (h : Bound E m c x o) :
    c.isInitializer = c.routine.isInitializer := by
  obtain ⟨r, -, heq⟩ := List.mem_map.1 (Bindings.mem_of_get?_ofList h.owned)
  obtain ⟨-, hclosure⟩ := Prod.mk.inj heq
  obtain ⟨rfl, -, hinit⟩ := Closure.mk.inj hclosure
  exact hinit.symm

/-- **The initializers are the bound methods of that name**: there is none without an object. -/
theorem Closure.Secure.isInitializer_iff (h : c.Secure E L m) :
    c.isInitializer = true ↔
      c.routine.name.lexeme = Routine.initializerName ∧ ∃ x o, Bound E m c x o := by
  constructor
  · intro hinit
    rcases h.origin with ⟨⟨_, _, _, -, heq⟩, -⟩ | ⟨x, o, hbound⟩
    · rw [heq] at hinit
      cases hinit
    · rw [hbound.isInitializer_eq] at hinit
      exact ⟨eq_of_beq hinit, x, o, hbound⟩
  · rintro ⟨hname, x, o, hbound⟩
    rw [hbound.isInitializer_eq]
    exact beq_iff_eq.2 hname

/-- An initializer **gives its object**, within `n + 1` steps: if its body comes to its end, and if
it returns, whatever it returns.  Any other way in which the body stops is the way the call
stops. -/
structure Closure.GivesObject (c : Closure) (n room : Nat) (arguments : List Value) (m : Machine)
    (o : Nat) : Prop where
  ended : ∀ m', execAll n room c.routine.body (c.entered arguments m) = .ok () m' →
    runClosure (n + 1) room c arguments m = .ok (.object o) { m' with current := m.current }
  returned : ∀ v m',
    execAll n room c.routine.body (c.entered arguments m) = .error (.returned v) m' →
    runClosure (n + 1) room c arguments m = .ok (.object o) { m' with current := m.current }
  interrupted : ∀ i m', (∀ v, i ≠ .returned v) →
    execAll n room c.routine.body (c.entered arguments m) = .error i m' →
    runClosure (n + 1) room c arguments m = .error i { m' with current := m.current }

namespace Run

variable {step : Run Unit} {i : Nat}

/-- A body that comes to its end gives `nil`. -/
theorem catchReturn_within_ok (h : step { m with current := i } = .ok () m') :
    catchReturn (within i step) m = .ok .nil { m' with current := m.current } := by
  unfold catchReturn within
  rw [h]

/-- A body that returns gives what it returns. -/
theorem catchReturn_within_returned {v : Value}
    (h : step { m with current := i } = .error (.returned v) m') :
    catchReturn (within i step) m = .ok v { m' with current := m.current } := by
  unfold catchReturn within
  rw [h]

/-- Whatever else stops a body goes on. -/
theorem catchReturn_within_error {e : Interrupt} (he : ∀ v, e ≠ .returned v)
    (h : step { m with current := i } = .error e m') :
    catchReturn (within i step) m = .error e { m' with current := m.current } := by
  unfold catchReturn within
  rw [h]
  cases e with
  | returned v => exact absurd rfl (he v)
  | _ => rfl

end Run

/-- A step that keeps a machine sane does so where it stops. -/
theorem Preserves.of_error {α : Type} {step : Run α} {i : Interrupt} (h : Preserves E L step m)
    (hi : step m = .error i m') : Preserved E L m m' := by
  unfold Preserves Run.after at h
  rw [hi] at h
  exact h

/-- **A bound initializer gives the object that it is bound to.** -/
theorem Activity.Secure.givesObject {x : Founding} {o : Nat}
    (h : (Activity.closure (n + 1) room c arguments).Secure E L m) (hbound : Bound E m c x o)
    (hname : c.routine.name.lexeme = Routine.initializerName) :
    c.GivesObject n room arguments m o := by
  have hfits : c.Secure E L m := h.fits
  have hinit : c.isInitializer = true := hfits.isInitializer_iff.2 ⟨hname, x, o, hbound⟩
  have hentered : m.Grows (c.entered arguments m) :=
    (Machine.Grows.push m (some c.scope) _).atScope _
  have hstarts : (Activity.statements n room c.routine.body, c.entered arguments m) ∈
      (Activity.closure (n + 1) room c arguments).starts m := by
    rw [Activity.starts]
    exact mem_onResult.2 ⟨m.heap.size, _, rfl, .head _⟩
  have hbody := (sustains E L n).execAll room c.routine.body (h.closure_starts hstarts)
  -- Whatever the body has done, the scope around it still binds `this` to the object.
  have hthis : ∀ m', (c.entered arguments m).Grows m' →
      m'.heap.getAt c.scope 0 thisName = .ok (.object o) := fun m' hg =>
    Heap.getAt_eq (d := 0) rfl (hbound.mono (hentered.trans hg)).this
  have hrun : runClosure (n + 1) room c arguments m =
      (Run.catchReturn (Run.within m.heap.size (execAll n room c.routine.body)) >>= fun _ =>
        (get >>= fun m => Run.ofDistance (m.heap.getAt c.scope 0 thisName) : Run Value))
        { c.entered arguments m with current := m.current } := by
    rw [runClosure, hinit]
    rfl
  refine ⟨fun m' hend => ?_, fun v m' hend => ?_, fun i m' hi hend => ?_⟩
  · rw [hrun, bind_ok (Run.catchReturn_within_ok hend), get_bind]
    exact congrArg (Run.ofDistance · _) (hthis m' (hbody.of_ok hend).grows)
  · rw [hrun, bind_ok (Run.catchReturn_within_returned hend), get_bind]
    exact congrArg (Run.ofDistance · _) (hthis m' (hbody.of_error hend).grows)
  · rw [hrun, bind_error (Run.catchReturn_within_error hi hend)]

/-- **Calls are right**, as far as an activity goes. -/
structure Activity.CallsRight (E : Events) (a : Activity) (m : Machine) : Prop where
  /-- A call is refused, or enters a body whose parameters it has counted. -/
  counted : ∀ n room callee arguments, a = .call (n + 1) room callee arguments → ∀ paren,
    CallComesTo n paren arguments m room callee (Lox.call (n + 1) room paren callee arguments m)
  /-- A body is entered with all its arguments. -/
  takes : ∀ n room c arguments, a = .closure n room c arguments → c.Takes arguments m
  /-- A class gives a new object of its own. -/
  newObject : ∀ n room k arguments, a = .call n room (.cls k) arguments → ∀ paren v m',
    Lox.call n room paren (.cls k) arguments m = .ok v m' →
    v = .object m.objects.size ∧
      ∃ info, m'.objects[m.objects.size]? = some info ∧ info.cls = k
  /-- Initializers are the bound methods of that name. -/
  initializers : ∀ n room c arguments, a = .closure n room c arguments →
    (c.isInitializer = true ↔
      c.routine.name.lexeme = Routine.initializerName ∧ ∃ x o, Bound E m c x o)
  /-- A bound initializer gives its object, however its body ends. -/
  gives : ∀ n room c arguments x o, a = .closure (n + 1) room c arguments → Bound E m c x o →
    c.routine.name.lexeme = Routine.initializerName → c.GivesObject n room arguments m o
  /-- So does a bound initializer that is called as a value, from wherever it has been kept. -/
  kept : ∀ n room id arguments c x o, a = .call n room (.closure id) arguments →
    m.closures[id]? = some c → Bound E m c x o →
    c.routine.name.lexeme = Routine.initializerName → ∀ paren v m',
    Lox.call n room paren (.closure id) arguments m = .ok v m' → v = .object o

/-- What an initializer gives, if it gives something. -/
theorem Closure.GivesObject.eq_of_ok {o : Nat} {v : Value} (h : c.GivesObject n room arguments m o)
    (hv : runClosure (n + 1) room c arguments m = .ok v m') : v = .object o := by
  cases hbody : execAll n room c.routine.body (c.entered arguments m) with
  | ok u m₁ =>
    rw [h.ended m₁ hbody] at hv
    exact (EStateM.Result.ok.inj hv).1.symm
  | error i m₁ =>
    by_cases hi : ∀ w, i ≠ .returned w
    · rw [h.interrupted i m₁ hi hbody] at hv
      cases hv
    · obtain ⟨w, hw⟩ := Classical.not_forall.1 hi
      obtain rfl := Classical.not_not.1 hw
      rw [h.returned w m₁ hbody] at hv
      exact (EStateM.Result.ok.inj hv).1.symm

/-- A bound initializer that is called as a value gives its object. -/
theorem Activity.Secure.kept {id : Nat} {x : Founding} {o : Nat} {paren : Token} {v : Value}
    (h : (Activity.call n room (.closure id) arguments).Secure E L m)
    (hc : m.closures[id]? = some c) (hbound : Bound E m c x o)
    (hname : c.routine.name.lexeme = Routine.initializerName)
    (hv : Lox.call n room paren (.closure id) arguments m = .ok v m') : v = .object o := by
  cases n with
  | zero => cases hv
  | succ n =>
    have hcall := call_comesTo n room paren (.closure id) arguments m
    generalize hr : Lox.call (n + 1) room paren (.closure id) arguments m = r at hcall
    rw [hv] at hr
    cases hcall with
    | refused cause => cases hr
    | native hf _ => obtain ⟨_, -, heq⟩ := Option.map_eq_some_iff.1 hf; cases heq
    | @closure room _ c' hc' hlength =>
      obtain rfl : c' = c := Option.some.inj (hc'.symm.trans hc)
      have hstarts : (Activity.closure n room c' arguments, m) ∈
          (Activity.call (n + 1) (room + 1) (.closure id) arguments).starts m := by
        have harity : (arguments.length : Int) = (Machine.Callable.closure c').arity :=
          Int.ofNat_inj.2 hlength
        simp only [Activity.starts, Activity.bodyOf, Machine.callable?, hc, Option.map_some,
          if_pos harity, List.mem_singleton]
      cases n with
      | zero => cases hr
      | succ n => exact ((h.call_starts hstarts).givesObject hbound hname).eq_of_ok hr.symm

/-- **The calls that a secure activity makes are right**; a body that it runs must have been entered
with the right number of arguments. -/
theorem Activity.Secure.callsRight {a : Activity} (h : a.Secure E L m)
    (hlength : ∀ n room c arguments, a = .closure n room c arguments →
      arguments.length = c.routine.params.length) : a.CallsRight E m where
  counted := fun n room callee arguments _ paren => call_comesTo n room paren callee arguments m
  takes := by
    rintro n room c arguments rfl
    exact h.takes (hlength n room c arguments rfl)
  newObject := by
    rintro n room k arguments rfl paren v m' hv
    exact h.newObject_of_call hv
  initializers := by
    rintro n room c arguments rfl
    exact Closure.Secure.isInitializer_iff h.fits
  gives := by
    rintro n room c arguments x o rfl hbound hname
    exact h.givesObject hbound hname
  kept := by
    rintro n room id arguments c x o rfl hc hbound hname paren v m' hv
    exact h.kept hc hbound hname hv

end

end Lox
