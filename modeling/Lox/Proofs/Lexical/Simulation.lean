/-
**The machine follows the names.**

Expressions, calls and statements that are scoped end alike over scopes with distances and over
cells with names.  Both sides take the same allowance of steps, and the argument is by induction on
it: every form is put together from steps of a smaller allowance, and from the steps of a single
reference, method or declaration.

Main definitions:

* `Lox.Simulates` — everything ends alike within a given allowance.

Main results:

* `Lox.simulates` — **everything ends alike**, within any allowance.
-/

import Lox.Proofs.Lexical.Declarations

set_option relaxedAutoImplicit false
set_option autoImplicit false

namespace Lox

open Placement

/-- Everything that is scoped **ends alike** within `n` steps. -/
structure Simulates (L : Ledger) (n : Nat) : Prop where
  eval : ∀ {W m μ Γ ρ} (room : Nat) {e : Expr}, Corresponds L W m μ →
    Mirrors W m.heap Γ m.current ρ → e.Scoped L Γ →
    EndsAlike L Nowhere false W m Same (eval n room e m) (Lexical.eval n room ρ e μ)
  evalAll : ∀ {W m μ Γ ρ} (room : Nat) {es : List Expr}, Corresponds L W m μ →
    Mirrors W m.heap Γ m.current ρ → argumentsScoped L Γ es →
    EndsAlike L Nowhere false W m Same (evalAll n room es m) (Lexical.evalAll n room ρ es μ)
  call : ∀ {W m μ} (room : Nat) (paren : Token) (callee : Value) (arguments : List Value),
    Corresponds L W m μ →
    EndsAlike L Nowhere false W m Same (call n room paren callee arguments m)
      (Lexical.call n room paren callee arguments μ)
  runClosure : ∀ {W m μ} (room : Nat) {c : Closure} {c' : Lexical.Closure}
    {arguments : List Value}, Corresponds L W m μ → ClosureMirrors L W m.heap c c' →
    arguments.length = c.routine.params.length →
    EndsAlike L Nowhere false W m Same (runClosure n room c arguments m)
      (Lexical.runClosure n room c' arguments μ)
  exec : ∀ {W m μ Γ ρ} (room : Nat) {inBody : Bool} {s : Stmt}, Corresponds L W m μ →
    InForce W m Γ ρ → s.Scoped L inBody Γ →
    EndsAlike L (Here m.current) inBody W m (fun W' m' _ ρ' => InForce W' m' (Γ.after s) ρ')
      (exec n room s m) (Lexical.exec n room ρ s μ)
  execAll : ∀ {W m μ Γ ρ} (room : Nat) {inBody : Bool} {ss : List Stmt}, Corresponds L W m μ →
    InForce W m Γ ρ → bodyScoped L inBody Γ ss →
    EndsAlike L (Here m.current) inBody W m Whatever (execAll n room ss m)
      (Lexical.execAll n room ρ ss μ)
  execLoop : ∀ {W m μ Γ ρ} (room : Nat) {inBody : Bool} {c : Expr} {body : Stmt},
    Corresponds L W m μ → InForce W m Γ ρ → c.Scoped L Γ → body.declared? = none →
    body.Scoped L inBody Γ →
    EndsAlike L (Here m.current) inBody W m (fun W' m' _ ρ' => InForce W' m' Γ ρ')
      (execLoop n room c body m) (Lexical.execLoop n room ρ c body μ)

section

variable {L : Ledger} {W : Placement} {m : Machine} {μ : Lexical.State} {Γ : Scopes}
  {ρ : Lexical.Names} {n : Nat}

/-- Names are mirrored again after an expression. -/
theorem Mirrors.next {W' : Placement} {m' : Machine} (hm : Mirrors W m.heap Γ m.current ρ)
    (hg : Grows Nowhere W m.heap W' m'.heap) (hcur : m'.current = m.current) :
    Mirrors W' m'.heap Γ m'.current ρ := by
  rw [hcur]
  exact hm.mono hg fun _ _ hS => hS.elim

/-! ### Expressions -/

theorem eval_alike (ih : Simulates L n) (room : Nat) {e : Expr} (hc : Corresponds L W m μ)
    (hm : Mirrors W m.heap Γ m.current ρ) (he : e.Scoped L Γ) :
    EndsAlike L Nowhere false W m Same (eval (n + 1) room e m)
      (Lexical.eval (n + 1) room ρ e μ) := by
  cases e with
  | literal value => exact .pure hc rfl
  | grouping e => exact ih.eval room hc hm he
  | unary operator e =>
    refine (ih.eval room hc hm he.2).bind ?_
    rintro _ v W' m' μ' - - hc' rfl
    exact ofOperator_alike hc' fun _ => applyUnary_harmless he.1
  | binary left operator right =>
    obtain ⟨hop, hl, hr⟩ := he
    refine (ih.eval room hc hm hl).bind ?_
    rintro _ v W' m' μ' hg hcur hc' rfl
    refine (ih.eval room hc' (hm.next hg hcur) hr).bind ?_
    rintro _ w W'' m'' μ'' - - hc'' rfl
    exact ofOperator_alike hc'' fun _ => applyBinary_harmless hop
  | logical left operator right =>
    obtain ⟨hl, hr⟩ := he
    refine (ih.eval room hc hm hl).bind ?_
    rintro _ v W' m' μ' hg hcur hc' rfl
    by_cases hv : (v.isTruthy == (operator.kind == .keyword .or)) = true
    · simp only [if_pos hv]
      exact .pure hc' rfl
    · simp only [if_neg hv]
      exact ih.eval room hc' (hm.next hg hcur) hr
  | «variable» ref => exact lookUp_alike hc hm he
  | assign ref e =>
    obtain ⟨hr, he⟩ := he
    refine (ih.eval room hc hm he).bind ?_
    rintro _ v W' m' μ' hg hcur hc' rfl
    exact assign_alike hc' (hm.next hg hcur) hr v
  | call callee paren arguments =>
    obtain ⟨hf, has⟩ := he
    refine (ih.eval room hc hm hf).bind ?_
    rintro _ f W' m' μ' hg hcur hc' rfl
    refine (ih.evalAll room hc' (hm.next hg hcur) has).bind ?_
    rintro _ vs W'' m'' μ'' - - hc'' rfl
    exact ih.call room paren f vs hc''
  | get object name =>
    refine (ih.eval (e := object) room hc hm he).bind ?_
    rintro _ v W' m' μ' - - hc' rfl
    cases v with
    | object id => exact getProperty_alike hc' id name
    | _ => exact .throw hc' trivial
  | set object name e =>
    obtain ⟨ho, he⟩ := he
    refine (ih.eval room hc hm ho).bind ?_
    rintro _ v W' m' μ' hg hcur hc' rfl
    cases v with
    | object id =>
      refine (ih.eval room hc' (hm.next hg hcur) he).bind ?_
      rintro _ w W'' m'' μ'' - - hc'' rfl
      refine (setField_alike hc'' id name.lexeme w).bind ?_
      rintro - - W₃ m₃ μ₃ - - hc₃ -
      exact .pure hc₃ rfl
    | _ => exact .throw hc' trivial
  | this ref => exact this_alike hc hm he
  | super ref method => exact superMethod_alike hc hm he method
  | hole h => exact he.elim

theorem evalAll_alike (ih : Simulates L n) (room : Nat) {es : List Expr} (hc : Corresponds L W m μ)
    (hm : Mirrors W m.heap Γ m.current ρ) (hes : argumentsScoped L Γ es) :
    EndsAlike L Nowhere false W m Same (evalAll (n + 1) room es m)
      (Lexical.evalAll (n + 1) room ρ es μ) := by
  cases es with
  | nil => exact .pure hc rfl
  | cons e es =>
    refine (ih.eval room hc hm hes.1).bind ?_
    rintro _ v W' m' μ' hg hcur hc' rfl
    refine (ih.evalAll room hc' (hm.next hg hcur) hes.2).bind ?_
    rintro _ vs W'' m'' μ'' - - hc'' rfl
    exact .pure hc'' rfl

/-! ### Calls -/

theorem call_alike (ih : Simulates L n) (room : Nat) (paren : Token) (callee : Value)
    (arguments : List Value) (hc : Corresponds L W m μ) :
    EndsAlike L Nowhere false W m Same (call (n + 1) room paren callee arguments m)
      (Lexical.call (n + 1) room paren callee arguments μ) := by
  have hcallable := hc.callable callee
  simp only [call, Lexical.call]
  rw [get_bind, get_bind]
  generalize m.callable? callee = f at hcallable ⊢
  generalize μ.callable? callee = f' at hcallable ⊢
  cases hcallable with
  | none => exact .throw hc trivial
  | @some f f' hf =>
    simp only [hf.arity_eq]
    by_cases harity : (arguments.length : Int) = f.arity
    · simp only [if_pos harity]
      cases room with
      | zero => exact .throw hc trivial
      | succ room =>
        cases hf with
        | native f => exact callNative_alike hc f arguments
        | closure hcc => exact ih.runClosure room hc hcc (Int.ofNat.inj harity)
        | cls id hinit =>
          cases hinit with
          | none => exact newObject_alike hc id
          | some hcc =>
            refine (newObject_alike hc id).bind ?_
            rintro _ object W₁ m₁ μ₁ hg₁ - hc₁ rfl
            -- The initializer mirrors its counterpart still, after the object is made.
            have hcc₁ := hcc.mono (.refl L) hg₁ fun _ _ hS => hS.elim
            refine (bindMethod_alike hc₁ hcc₁ object).bind ?_
            rintro b b' W₂ m₂ μ₂ - - hc₂ ⟨hb, hroutine⟩
            have hlen : arguments.length = b.routine.params.length := by
              rw [hroutine]
              exact Int.ofNat.inj harity
            refine (ih.runClosure room hc₂ hb hlen).bind ?_
            rintro - - W₃ m₃ μ₃ - - hc₃ -
            exact .pure hc₃ rfl
    · simp only [if_neg harity]
      exact .throw hc trivial

theorem runClosure_alike (ih : Simulates L n) (room : Nat) {c : Closure} {c' : Lexical.Closure}
    {arguments : List Value} (hc : Corresponds L W m μ) (hcc : ClosureMirrors L W m.heap c c')
    (hlen : arguments.length = c.routine.params.length) :
    EndsAlike L Nowhere false W m Same (runClosure (n + 1) room c arguments m)
      (Lexical.runClosure (n + 1) room c' arguments μ) := by
  obtain ⟨hroutine, hinit, Γ, hm, hr, hthis⟩ := hcc
  obtain ⟨-, hp, hbody⟩ := (Routine.scoped_iff ..).1 hr
  obtain ⟨W₁, ρ₁, μ₁, hstep, hg₁, hc₁, hm₁, ho₁⟩ := enterBody_alike hc hm hp hlen
  have hexec := ih.execAll room (hc₁.atScope m.heap.size) ⟨hm₁, ho₁⟩ hbody
  simp only [runClosure, Lexical.runClosure, hroutine, hinit]
  rw [bind_ok hstep]
  refine (EndsAlike.within { m with heap := _ } hg₁ rfl (Nat.le_refl _) hexec).catchReturn.bind ?_
  rintro _ v W₂ m₂ μ₂ hg₂ hcur₂ hc₂ rfl
  cases hi : c.isInitializer with
  | false => exact .pure hc₂ rfl
  | true =>
    -- The scope of an initializer is the one that binds the object.
    have hm₂ := hm.mono hg₂ fun _ _ hS => hS.elim
    obtain ⟨j, cell, v, hj, hv, hcell, -, hcv⟩ := (hc₂.atScope c.scope).value hm₂ (hthis hi)
    have hget := Heap.getAt_eq hj hv
    simp only [if_true]
    rw [get_bind, lookUpLocal_eq hcell hcv]
    change EndsAlike L Nowhere false W₂ m₂ Same
      (Run.ofDistance (m₂.heap.getAt c.scope ((0 : Nat) : Int) thisName) m₂) _
    rw [hget]
    exact .pure hc₂ rfl

/-! ### Statements -/

/-- A statement that declares nothing leaves the scopes as they are. -/
theorem Scopes.after_of_declared?_eq_none (Γ : Scopes) {s : Stmt} (hs : s.declared? = none) :
    Γ.after s = Γ := by
  rw [Scopes.after, hs]

/-- The same names are in force again behind a statement that declares nothing. -/
theorem InForce.again {W' : Placement} {m' : Machine} {ρ' : Lexical.Names} (hin : InForce W m Γ ρ)
    (hg : Grows (Here m.current) W m.heap W' m'.heap) (hcur : m'.current = m.current)
    (hin' : InForce W' m' Γ ρ') : InForce W' m' Γ ρ := by
  refine ⟨?_, hin'.owned⟩
  rw [hcur]
  exact hin.mirrors.mono hg fun _ _ hS => hS.2

/-- A branch, or the body of a loop: the names in force behind it are those before it. -/
theorem branch_alike (ih : Simulates L n) (room : Nat) {inBody : Bool} {s : Stmt}
    (hc : Corresponds L W m μ) (hin : InForce W m Γ ρ) (hdecl : s.declared? = none)
    (hs : s.Scoped L inBody Γ) :
    EndsAlike L (Here m.current) inBody W m (fun W' m' _ _ => InForce W' m' Γ ρ)
      (exec n room s m) (Lexical.exec n room ρ s μ) := by
  refine (ih.exec room hc hin hs).imp ?_
  intro W' m' _ ρ' hg hcur hin'
  rw [Γ.after_of_declared?_eq_none hdecl] at hin'
  exact hin.again hg hcur hin'

/-- A variable is declared, with the value of an expression or without one. -/
theorem var_alike (ih : Simulates L n) (room : Nat) {inBody : Bool} {name : Token}
    {initializer : Option Expr} (hc : Corresponds L W m μ) (hin : InForce W m Γ ρ)
    (hd : L.Declares Γ name)
    (he : optionalScoped L (Γ.mark name.lexeme .declared) initializer) :
    EndsAlike L (Here m.current) inBody W m
      (fun W' m' _ ρ' => InForce W' m' (Γ.mark name.lexeme .defined) ρ')
      (exec (n + 1) room (.var name initializer) m)
      (Lexical.exec (n + 1) room ρ (.var name initializer) μ) := by
  cases initializer with
  | none =>
    refine EndsAlike.bind (x := Pure.pure ()) (f := fun _ => Run.define name.lexeme .nil)
      (declare_alike hc hin hd) ?_
    rintro - ⟨ρ', cell?⟩ W' m' μ' - hcur hc' ⟨hin', haw⟩
    rw [← hcur]
    exact (fill_alike hc' hin' haw hd.1 .nil).returning fun _ _ h => h
  | some e =>
    refine EndsAlike.bind (x := Pure.pure ())
      (f := fun _ => do
        let v ← eval n room e
        Run.define name.lexeme v) (declare_alike hc hin hd) ?_
    rintro - ⟨ρ', cell?⟩ W' m' μ' - hcur hc' ⟨hin', haw⟩
    rw [← hcur]
    -- The initializer knows the name, which has its cell but no value yet.
    refine (ih.eval room hc' hin'.mirrors he).bindEval ?_
    rintro _ v W'' m'' μ'' hg' hcur' hc'' rfl
    rw [← hcur']
    exact (fill_alike hc'' (hin'.mono hc' hg' hcur') (haw.mono hg' hcur') hd.1 v).returning
      fun _ _ h => h

/-- A block has a scope of its own. -/
theorem block_alike (ih : Simulates L n) (room : Nat) {inBody : Bool} {body : List Stmt}
    (hc : Corresponds L W m μ) (hin : InForce W m Γ ρ)
    (hbody : bodyScoped L inBody (.empty :: Γ) body) :
    EndsAlike L (Here m.current) inBody W m (fun W' m' _ ρ' => InForce W' m' Γ ρ')
      (exec (n + 1) room (.block body) m) (Lexical.exec (n + 1) room ρ (.block body) μ) := by
  have hg : Grows Nowhere W m.heap W (m.heap.push (some m.current) .empty) :=
    .of_extends Nowhere W (Heap.extends_push ..)
  have hc' := (hc.withHeap hg (fun _ _ hS => hS.elim) hc.stores.push).atScope m.heap.size
  have hexec := ih.execAll room hc' ⟨hin.mirrors.push hc.stores, .fresh hc.stores⟩ hbody
  have hwithin := EndsAlike.within { m with heap := _ } hg rfl (Nat.le_refl _) hexec
  refine (hwithin.returning ?_).mono (fun _ _ hS => hS.elim) fun h => h
  intro W' m' _ _ hg' hcur _
  exact hin.mono hc hg' hcur

theorem exec_alike (ih : Simulates L n) (room : Nat) {inBody : Bool} {s : Stmt}
    (hc : Corresponds L W m μ) (hin : InForce W m Γ ρ) (hs : s.Scoped L inBody Γ) :
    EndsAlike L (Here m.current) inBody W m (fun W' m' _ ρ' => InForce W' m' (Γ.after s) ρ')
      (exec (n + 1) room s m) (Lexical.exec (n + 1) room ρ s μ) := by
  cases s with
  | expression e =>
    refine (ih.eval (e := e) room hc hin.mirrors hs).bindEval ?_
    rintro - - W' m' μ' hg hcur hc' -
    exact .pure hc' (hin.mono hc hg hcur)
  | print e =>
    refine (ih.eval (e := e) room hc hin.mirrors hs).bindEval ?_
    rintro _ v W' m' μ' hg hcur hc' rfl
    rw [get_bind, get_bind, hc'.text_eq]
    refine ((print_alike hc' _).returning ?_).anywhere
    intro W'' m'' _ _ hg' hcur' _
    exact (hin.mono hc hg hcur).mono hc' hg' hcur'
  | var name initializer => exact var_alike ih room hc hin hs.1 hs.2
  | block body => exact block_alike ih room hc hin hs
  | cond condition thenBranch elseBranch =>
    have hcond : condition.Scoped L Γ := by cases elseBranch <;> exact hs.1
    have hthen : thenBranch.declared? = none ∧ thenBranch.Scoped L inBody Γ := by
      cases elseBranch with
      | none => exact hs.2
      | some s => exact hs.2.1
    refine (ih.eval room hc hin.mirrors hcond).bindEval ?_
    rintro _ v W' m' μ' hg hcur hc' rfl
    have hin' := hin.mono hc hg hcur
    rw [← hcur]
    cases v.isTruthy with
    | true => exact (branch_alike ih room hc' hin' hthen.1 hthen.2).returning fun _ _ h => h
    | false =>
      cases elseBranch with
      | none => exact .pure hc' hin'
      | some s => exact (branch_alike ih room hc' hin' hs.2.2.1 hs.2.2.2).returning fun _ _ h => h
  | loop condition body => exact ih.execLoop room hc hin hs.1 hs.2.1 hs.2.2
  | function routine => exact function_alike hc hin hs.1 hs.2
  | ret keyword value =>
    obtain ⟨hbody, hvalue⟩ := hs
    cases value with
    | none => exact .throw hc hbody
    | some e =>
      refine (ih.eval room hc hin.mirrors hvalue).bindEval ?_
      rintro _ v W' m' μ' - - hc' rfl
      exact .throw hc' hbody
  | classDecl name superclass methods =>
    cases superclass with
    | none => exact declareClass_alike hc hin hs.1 (fun _ h => absurd h (by simp)) hs.2
    | some ref =>
      refine declareClass_alike hc hin hs.1 ?_ hs.2.2
      intro ref' h
      obtain rfl := Option.some.inj h
      exact hs.2.1

theorem execAll_alike (ih : Simulates L n) (room : Nat) {inBody : Bool} {ss : List Stmt}
    (hc : Corresponds L W m μ) (hin : InForce W m Γ ρ) (hss : bodyScoped L inBody Γ ss) :
    EndsAlike L (Here m.current) inBody W m Whatever (execAll (n + 1) room ss m)
      (Lexical.execAll (n + 1) room ρ ss μ) := by
  cases ss with
  | nil => exact .pure hc trivial
  | cons s ss =>
    refine (ih.exec room hc hin hss.1).bind ?_
    rintro - ρ' W' m' μ' - hcur hc' hin'
    rw [← hcur]
    exact ih.execAll room hc' hin' hss.2

theorem execLoop_alike (ih : Simulates L n) (room : Nat) {inBody : Bool} {c : Expr} {body : Stmt}
    (hc : Corresponds L W m μ) (hin : InForce W m Γ ρ) (hcond : c.Scoped L Γ)
    (hdecl : body.declared? = none) (hbody : body.Scoped L inBody Γ) :
    EndsAlike L (Here m.current) inBody W m (fun W' m' _ ρ' => InForce W' m' Γ ρ')
      (execLoop (n + 1) room c body m) (Lexical.execLoop (n + 1) room ρ c body μ) := by
  refine (ih.eval room hc hin.mirrors hcond).bindEval ?_
  rintro _ v W' m' μ' hg hcur hc' rfl
  have hin' := hin.mono hc hg hcur
  rw [← hcur]
  cases v.isTruthy with
  | false => exact .pure hc' hin'
  | true =>
    refine (branch_alike ih room hc' hin' hdecl hbody).bind ?_
    rintro - - W'' m'' μ'' - hcur'' hc'' hin''
    rw [← hcur'']
    exact ih.execLoop room hc'' hin'' hcond hdecl hbody

end

/-- **Everything ends alike**, within any allowance. -/
theorem simulates (L : Ledger) (n : Nat) : Simulates L n := by
  induction n with
  | zero =>
    exact
      { eval := fun _ _ hc _ _ => .throw hc trivial
        evalAll := fun _ _ hc _ _ => .throw hc trivial
        call := fun _ _ _ _ hc => .throw hc trivial
        runClosure := fun _ _ _ _ hc _ _ => .throw hc trivial
        exec := fun _ _ _ hc _ _ => .throw hc trivial
        execAll := fun _ _ _ hc _ _ => .throw hc trivial
        execLoop := fun _ _ _ _ hc _ _ _ _ => .throw hc trivial }
  | succ n ih =>
    exact
      { eval := eval_alike ih
        evalAll := evalAll_alike ih
        call := call_alike ih
        runClosure := runClosure_alike ih
        exec := exec_alike ih
        execAll := execAll_alike ih
        execLoop := execLoop_alike ih }

end Lox
