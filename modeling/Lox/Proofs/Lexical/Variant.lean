/-
**Variants run alike.**

Over names and cells nothing depends on what a local variable is called, nor on whether a statement
stands in a block of its own: variants of a program end with the same result.  Braces cost steps, so
the two runs need not be cut short together; but if one of them comes to its end, so does the other,
with an allowance three times as large.  Without braces the two runs take the same steps.

Main definitions:

* `Lox.Lexical.AlikeWithin` — variants run alike, within given allowances;
* `Lox.Lexical.Paced` — allowances that go together.

Main results:

* `Lox.Lexical.alike` — **variants run alike**;
* `Lox.Lexical.execAll_variant` — the same steps, if there are no braces;
* `Lox.Lexical.ends_variant` — the one comes to its end if the other does.
-/

import Lox.Proofs.Lexical.Alike
import Lox.Proofs.Lexical.Concatenation

set_option relaxedAutoImplicit false
set_option autoImplicit false

namespace Lox

namespace Lexical

variable {braces : Prop}

/-! ### Everything within given allowances -/

/-- What the names are behind two statements: the same as before, if nothing is declared. -/
inductive Behind (isLocal : Bool) (Δ : Pairing) (s s' : Stmt) (ρ ρ' : Names) : Names → Names → Prop
  | unchanged (hd : s.declared? = none) : Behind isLocal Δ s s' ρ ρ' ρ ρ'
  | declared {ρ₁ ρ₁' : Names} (hd : s.declared? ≠ none)
      (hnames : Names.Match (Δ.after isLocal s s') ρ₁ ρ₁') (hlocal : ρ₁.isLocal = isLocal)
      (hlocal' : ρ₁'.isLocal = isLocal) : Behind isLocal Δ s s' ρ ρ' ρ₁ ρ₁'

/-- Variants **run alike** within `n` and `n'` steps. -/
structure AlikeWithin (braces short short' : Prop) (n n' : Nat) : Prop where
  eval : ∀ (room : Nat) {Δ : Pairing} {ρ ρ' : Names} {e e' : Expr}, Names.Match Δ ρ ρ' →
    e.Variant Δ e' →
    Alike braces short short' Eq (eval n room ρ e) (eval n' room ρ' e')
  evalAll : ∀ (room : Nat) {Δ : Pairing} {ρ ρ' : Names} {es es' : List Expr}, Names.Match Δ ρ ρ' →
    List.Forall₂ (Expr.Variant Δ) es es' →
    Alike braces short short' Eq (evalAll n room ρ es) (evalAll n' room ρ' es')
  call : ∀ (room : Nat) (paren : Token) (callee : Value) (arguments : List Value),
    Alike braces short short' Eq (call n room paren callee arguments)
      (call n' room paren callee arguments)
  runClosure : ∀ (room : Nat) {c c' : Closure} {arguments : List Value}, c.Variant braces c' →
    arguments.length = c.routine.params.length →
    Alike braces short short' Eq (runClosure n room c arguments) (runClosure n' room c' arguments)
  exec : ∀ (room : Nat) {isLocal : Bool} {Δ : Pairing} {ρ ρ' : Names} {s s' : Stmt},
    Names.Match Δ ρ ρ' →
    (s.declared? ≠ none → ρ.isLocal = isLocal ∧ ρ'.isLocal = isLocal) →
    Stmt.Variant braces isLocal Δ s s' →
    Alike braces short short' (Behind isLocal Δ s s' ρ ρ') (exec n room ρ s) (exec n' room ρ' s')
  execAll : ∀ (room : Nat) {isLocal : Bool} {Δ : Pairing} {ρ ρ' : Names} {ss ss' : List Stmt},
    Names.Match Δ ρ ρ' → ρ.isLocal = isLocal → ρ'.isLocal = isLocal →
    BodyVariant braces isLocal Δ ss ss' →
    Alike braces short short' (fun _ _ => True) (execAll n room ρ ss) (execAll n' room ρ' ss')
  execLoop : ∀ (room : Nat) {isLocal : Bool} {Δ : Pairing} {ρ ρ' : Names} {c c' : Expr}
    {s s' : Stmt}, Names.Match Δ ρ ρ' → c.Variant Δ c' → s.declared? = none →
    Stmt.Variant braces isLocal Δ s s' →
    Alike braces short short' (fun ρ₁ ρ₁' => ρ₁ = ρ ∧ ρ₁' = ρ') (execLoop n room ρ c s)
      (execLoop n' room ρ' c' s')

section

variable {short short' : Prop} {n n' : Nat} {isLocal : Bool} {Δ : Pairing} {ρ ρ' : Names}

/-- The names behind two statements go on in step. -/
theorem Behind.names {s s' : Stmt} {ρ₁ ρ₁' : Names} (hρ : Names.Match Δ ρ ρ')
    (h : Behind isLocal Δ s s' ρ ρ' ρ₁ ρ₁') : Names.Match (Δ.after isLocal s s') ρ₁ ρ₁' := by
  cases h with
  | unchanged hd =>
    rw [Pairing.after, hd]
    exact hρ
  | declared _ hnames => exact hnames

theorem Behind.isLocal_eq {s s' : Stmt} {ρ₁ ρ₁' : Names} (hlocal : ρ.isLocal = isLocal)
    (hlocal' : ρ'.isLocal = isLocal) (h : Behind isLocal Δ s s' ρ ρ' ρ₁ ρ₁') :
    ρ₁.isLocal = isLocal ∧ ρ₁'.isLocal = isLocal := by
  cases h with
  | unchanged _ => exact ⟨hlocal, hlocal'⟩
  | declared _ _ h h' => exact ⟨h, h'⟩

theorem eval_alike (ih : AlikeWithin braces short short' n n') (room : Nat) {e e' : Expr}
    (hρ : Names.Match Δ ρ ρ') (he : e.Variant Δ e') :
    Alike braces short short' Eq (eval (n + 1) room ρ e) (eval (n' + 1) room ρ' e') := by
  cases he with
  | literal value => exact .pure rfl
  | grouping he => exact ih.eval room hρ he
  | unary operator he =>
    exact (ih.eval room hρ he).value fun v => ofOperator_alike _
  | binary hl operator hr =>
    exact (ih.eval room hρ hl).value fun v => (ih.eval room hρ hr).value fun w =>
      ofOperator_alike _
  | logical hl operator hr =>
    refine (ih.eval room hρ hl).value fun v => ?_
    split
    · exact .pure rfl
    · exact ih.eval room hρ hr
  | «variable» h => exact lookUp_alike hρ h
  | assign h he =>
    exact (ih.eval room hρ he).value fun v => (assign_alike hρ h v).value fun _ => .pure rfl
  | call hf paren harguments =>
    exact (ih.eval room hρ hf).value fun f => (ih.evalAll room hρ harguments).value fun vs =>
      ih.call room paren f vs
  | get h name =>
    refine (ih.eval room hρ h).value fun v => ?_
    cases v with
    | object id => exact getProperty_alike id name
    | _ => exact .throwSame _
  | set h name he =>
    refine (ih.eval room hρ h).value fun v => ?_
    cases v with
    | object id =>
      exact (ih.eval room hρ he).value fun w => (setField_alike id _ w).value fun _ => .pure rfl
    | _ => exact .throwSame _
  | this ref h => exact lookUpLocal_alike hρ h
  | super ref method hsuper hthis => exact superMethod_alike hρ hsuper hthis method

theorem evalAll_alike (ih : AlikeWithin braces short short' n n') (room : Nat)
    {es es' : List Expr} (hρ : Names.Match Δ ρ ρ') (h : List.Forall₂ (Expr.Variant Δ) es es') :
    Alike braces short short' Eq (evalAll (n + 1) room ρ es) (evalAll (n' + 1) room ρ' es') := by
  cases h with
  | nil => exact .pure rfl
  | cons he hes =>
    exact (ih.eval room hρ he).value fun v => (ih.evalAll room hρ hes).value fun vs => .pure rfl

theorem call_alike (ih : AlikeWithin braces short short' n n') (room : Nat) (paren : Token)
    (callee : Value) (arguments : List Value) :
    Alike braces short short' Eq (call (n + 1) room paren callee arguments)
      (call (n' + 1) room paren callee arguments) := by
  refine .inspect fun μ μ' hμ => ?_
  have hf := hμ.callable? callee
  generalize μ.callable? callee = f at hf ⊢
  generalize μ'.callable? callee = f' at hf ⊢
  cases hf with
  | none => exact .throwSame _
  | @some f f' hf =>
    simp only [hf.arity_eq]
    by_cases harity : (arguments.length : Int) = f.arity
    · simp only [if_pos harity]
      cases room with
      | zero => exact .throwSame _
      | succ room =>
        cases hf with
        | closure hc => exact ih.runClosure room hc (Int.ofNat.inj harity)
        | native f => exact callNative_alike f arguments
        | cls id hc =>
          cases hc with
          | none => exact newObject_alike id
          | some hc =>
            refine (newObject_alike id).value fun object => ?_
            refine (bindMethod_alike hc object).bind fun b b' hb => ?_
            have hlength := Int.ofNat.inj harity
            rw [← hb.2] at hlength
            exact (ih.runClosure room hb.1 hlength).value fun _ => .pure rfl
    · simp only [if_neg harity]
      exact .throwSame _

theorem runClosure_alike (ih : AlikeWithin braces short short' n n') (room : Nat)
    {c c' : Closure} {arguments : List Value} (hc : c.Variant braces c')
    (harity : arguments.length = c.routine.params.length) :
    Alike braces short short' Eq (runClosure (n + 1) room c arguments)
      (runClosure (n' + 1) room c' arguments) := by
  obtain ⟨Δ, hnames, hroutine, hinit, hthis⟩ := hc
  obtain ⟨⟨name, params, body⟩, names, isInitializer⟩ := c
  obtain ⟨⟨name', params', body'⟩, names', _⟩ := c'
  obtain rfl : _ = isInitializer := hinit
  cases hroutine with
  | mk _ hparams hbody =>
    have hlength : (params'.map (·.lexeme)).length = (params.map (·.lexeme)).length := by
      simpa using hparams.length_eq.symm
    have harity : arguments.length = (params.map (·.lexeme)).length := by
      simpa [Routine.params] using harity
    refine (bindAll_alike hnames.inside hlength harity rfl rfl).bind ?_
    rintro ρ ρ' ⟨hρ, hlocal, hlocal'⟩
    refine (ih.execAll room hρ hlocal hlocal' hbody).catchReturn.value fun v => ?_
    dsimp only
    split
    · exact lookUpLocal_alike hnames (hthis ‹_›)
    · exact .pure rfl

theorem exec_congruent (ih : AlikeWithin braces short short' n n') (room : Nat) {s s' : Stmt}
    (hρ : Names.Match Δ ρ ρ')
    (hlocal : s.declared? ≠ none → ρ.isLocal = isLocal ∧ ρ'.isLocal = isLocal)
    (h : Stmt.Congruent braces isLocal Δ s s') :
    Alike braces short short' (Behind isLocal Δ s s' ρ ρ') (exec (n + 1) room ρ s)
      (exec (n' + 1) room ρ' s') := by
  have hsome : ∀ {name : Token}, some name ≠ none := Option.some_ne_none _
  cases h with
  | expression he => exact (ih.eval room hρ he).value fun _ => .pure (.unchanged rfl)
  | print he =>
    refine (ih.eval room hρ he).value fun v => .inspect fun μ μ' hμ => ?_
    rw [hμ.text_eq]
    exact (print_alike _).value fun _ => .pure (.unchanged rfl)
  | var _ hname he =>
    obtain ⟨hisLocal, hisLocal'⟩ := hlocal hsome
    cases he with
    | none =>
      refine (declare_alike hρ hisLocal hisLocal' hname).bind fun p p' hp => ?_
      exact (fill_alike hp _).value fun _ =>
        .pure (.declared hsome hp.names hp.isLocal_eq hp.isLocal_eq')
    | some he =>
      refine (declare_alike hρ hisLocal hisLocal' hname).bind fun p p' hp => ?_
      exact (ih.eval room hp.names he).value fun v => (fill_alike hp v).value fun _ =>
        .pure (.declared hsome hp.names hp.isLocal_eq hp.isLocal_eq')
  | block hbody =>
    exact (ih.execAll room hρ.inside rfl rfl hbody).bind fun _ _ _ => .pure (.unchanged rfl)
  | cond hc ht hd =>
    refine (ih.eval room hρ hc).value fun v => ?_
    cases v.isTruthy with
    | true =>
      exact (ih.exec room hρ (absurd hd) ht).bind fun _ _ _ => .pure (.unchanged rfl)
    | false => exact .pure (.unchanged rfl)
  | condElse hc ht hd hs hd' =>
    refine (ih.eval room hρ hc).value fun v => ?_
    cases v.isTruthy with
    | true => exact (ih.exec room hρ (absurd hd) ht).bind fun _ _ _ => .pure (.unchanged rfl)
    | false => exact (ih.exec room hρ (absurd hd') hs).bind fun _ _ _ => .pure (.unchanged rfl)
  | loop hc hs hd =>
    refine (ih.execLoop room hρ hc hd hs).imp ?_
    rintro _ _ ⟨rfl, rfl⟩
    exact .unchanged rfl
  | @function _ _ r r' hr =>
    obtain ⟨hisLocal, hisLocal'⟩ := hlocal hsome
    have hname : r'.name = r.name := hr.name_eq
    have hafter : Δ.after isLocal (.function r) (.function r') =
        Δ.declare isLocal r.name.lexeme r.name.lexeme := by
      simp only [Pairing.after, Stmt.declared?, hname]
    simp only [exec, hname]
    refine (declare_alike hρ hisLocal hisLocal' fun _ => rfl).bind fun p p' hp => ?_
    have hclosure : Closure.Variant braces ⟨r, p.1, false⟩ ⟨r', p'.1, false⟩ :=
      ⟨_, hp.names, hr, rfl, fun h => absurd h Bool.false_ne_true⟩
    refine (newClosure_alike hclosure).value fun f => ?_
    refine (fill_alike hp f).value fun _ => .pure (.declared hsome ?_ hp.isLocal_eq hp.isLocal_eq')
    rw [hafter]
    exact hp.names
  | ret keyword he =>
    cases he with
    | none => exact .throwSame _
    | some he => exact (ih.eval room hρ he).value fun v => .throwSame _
  | base name h =>
    obtain ⟨hisLocal, hisLocal'⟩ := hlocal hsome
    exact (base_alike hρ hisLocal hisLocal' h).imp fun _ _ h => .declared hsome h.1 h.2.1 h.2.2
  | derived name href h =>
    obtain ⟨hisLocal, hisLocal'⟩ := hlocal hsome
    exact (derived_alike hρ hisLocal hisLocal' href h).imp fun _ _ h =>
      .declared hsome h.1 h.2.1 h.2.2

theorem execAll_alike (ih : AlikeWithin braces short short' n n') (room : Nat)
    {ss ss' : List Stmt} (hρ : Names.Match Δ ρ ρ') (hlocal : ρ.isLocal = isLocal)
    (hlocal' : ρ'.isLocal = isLocal) (h : BodyVariant braces isLocal Δ ss ss') :
    Alike braces short short' (fun _ _ => True) (execAll (n + 1) room ρ ss)
      (execAll (n' + 1) room ρ' ss') := by
  cases h with
  | nil => exact .pure trivial
  | cons hs hss =>
    refine (ih.exec room hρ (fun _ => ⟨hlocal, hlocal'⟩) hs).bind fun ρ₁ ρ₁' hbehind => ?_
    obtain ⟨hlocal₁, hlocal₁'⟩ := hbehind.isLocal_eq hlocal hlocal'
    exact ih.execAll room (hbehind.names hρ) hlocal₁ hlocal₁' hss

theorem execLoop_alike (ih : AlikeWithin braces short short' n n') (room : Nat) {c c' : Expr}
    {s s' : Stmt} (hρ : Names.Match Δ ρ ρ') (hc : c.Variant Δ c') (hd : s.declared? = none)
    (hs : Stmt.Variant braces isLocal Δ s s') :
    Alike braces short short' (fun ρ₁ ρ₁' => ρ₁ = ρ ∧ ρ₁' = ρ') (execLoop (n + 1) room ρ c s)
      (execLoop (n' + 1) room ρ' c' s') := by
  refine (ih.eval room hρ hc).value fun v => ?_
  cases v.isTruthy with
  | true =>
    exact (ih.exec room hρ (absurd hd) hs).bind fun _ _ _ => ih.execLoop room hρ hc hd hs
  | false => exact .pure ⟨rfl, rfl⟩

end

/-! ### Allowances -/

/-- **Allowances** with which variants end alike.  Without braces they are the same.  With braces,
the side that may fall short is the one with less: the braces cost the other side at most two steps
for each of its own. -/
def Paced (braces short short' : Prop) (n n' : Nat) : Prop :=
  (¬ braces ∧ n' = n) ∨ (short ∧ 3 * n ≤ n') ∨ (short' ∧ n' ≤ n)

section

variable {short short' : Prop} {n n' : Nat}

theorem Paced.pred (h : Paced braces short short' (n + 1) (n' + 1)) :
    Paced braces short short' n n' := by
  rcases h with ⟨hb, h⟩ | ⟨hs, h⟩ | ⟨hs, h⟩
  · exact .inl ⟨hb, by omega⟩
  · exact .inr (.inl ⟨hs, by omega⟩)
  · exact .inr (.inr ⟨hs, by omega⟩)

/-- A statement in a block of its own is executed with two steps less. -/
theorem Paced.braced (hbraces : braces) (h : Paced braces short short' (n + 1) (n' + 3)) :
    Paced braces short short' n n' := by
  rcases h with ⟨hb, -⟩ | ⟨hs, h⟩ | ⟨hs, h⟩
  · exact absurd hbraces hb
  · exact .inr (.inl ⟨hs, by omega⟩)
  · exact .inr (.inr ⟨hs, by omega⟩)

/-- An allowance that does not serve for the braces is that of the side that may fall short. -/
theorem Paced.short_of_braced (hbraces : braces) (h : Paced braces short short' (n + 1) (n' + 1))
    (hn' : n' ≤ 1) : short' := by
  rcases h with ⟨hb, -⟩ | ⟨-, h⟩ | ⟨hs, -⟩
  · exact absurd hbraces hb
  · omega
  · exact hs

theorem exec_alike {isLocal : Bool} {Δ : Pairing} {ρ ρ' : Names} {s s' : Stmt}
    (ih : ∀ m, Paced braces short short' n m → AlikeWithin braces short short' n m)
    (hp : Paced braces short short' (n + 1) (n' + 1)) (room : Nat) (hρ : Names.Match Δ ρ ρ')
    (hlocal : s.declared? ≠ none → ρ.isLocal = isLocal ∧ ρ'.isLocal = isLocal)
    (h : Stmt.Variant braces isLocal Δ s s') :
    Alike braces short short' (Behind isLocal Δ s s' ρ ρ') (exec (n + 1) room ρ s)
      (exec (n' + 1) room ρ' s') := by
  cases h with
  | congruent h => exact exec_congruent (ih n' hp.pred) room hρ hlocal h
  | @braced _ _ _ s' hbraces hd hd' h =>
    -- The block, its one statement and the end of its body take a step each.
    match n' with
    | 0 => exact fun _ _ _ => .right (hp.short_of_braced hbraces (by omega)) ⟨_, rfl⟩
    | 1 => exact fun _ _ _ => .right (hp.short_of_braced hbraces (by omega)) ⟨_, rfl⟩
    | m + 2 =>
      have hρ' : Names.Match Δ ρ ρ'.inside := hρ
      have hs := exec_congruent (ih m (hp.braced hbraces)) room hρ' (absurd hd) h
      have hblock : exec (m + 3) room ρ' (.block [s']) =
          exec (m + 1) room ρ'.inside s' >>= fun _ => pure ρ' := by
        simp only [exec, execAll, bind_assoc, pure_bind]
      rw [hblock, ← bind_pure (exec (n + 1) room ρ s)]
      refine hs.bind fun ρ₁ ρ₁' hbehind => .pure ?_
      cases hbehind with
      | unchanged => exact .unchanged hd
      | declared hne => exact absurd hd hne

/-- **Variants run alike**, with allowances that go together. -/
theorem alike (hp : Paced braces short short' n n') : AlikeWithin braces short short' n n' := by
  induction n generalizing n' with
  | zero =>
    -- Nothing is done on the left; on the right nothing is done either, or the left falls short.
    have hzero : ∀ {α β : Type} {R : α → β → Prop} {step : Run α} (step' : Nat → Run β),
        step = throw .outOfFuel → step' 0 = throw .outOfFuel →
        Alike braces short short' R step (step' n') := by
      rintro α β R _ step' rfl h0
      rcases hp with ⟨-, rfl⟩ | ⟨hs, -⟩ | ⟨-, h⟩
      · rw [h0]
        exact .throwSame _
      · exact fun μ _ _ => .left hs ⟨μ, rfl⟩
      · obtain rfl := Nat.le_zero.1 h
        rw [h0]
        exact .throwSame _
    exact
      { eval := fun room _ _ ρ' _ e' _ _ => hzero (fun n' => eval n' room ρ' e') rfl rfl
        evalAll := fun room _ _ ρ' _ es' _ _ =>
          hzero (fun n' => evalAll n' room ρ' es') rfl rfl
        call := fun room paren callee arguments =>
          hzero (fun n' => call n' room paren callee arguments) rfl rfl
        runClosure := fun room _ c' arguments _ _ =>
          hzero (fun n' => runClosure n' room c' arguments) rfl rfl
        exec := fun room _ _ _ ρ' _ s' _ _ _ => hzero (fun n' => exec n' room ρ' s') rfl rfl
        execAll := fun room _ _ _ ρ' _ ss' _ _ _ _ =>
          hzero (fun n' => execAll n' room ρ' ss') rfl rfl
        execLoop := fun room _ _ _ ρ' _ c' _ s' _ _ _ _ =>
          hzero (fun n' => execLoop n' room ρ' c' s') rfl rfl }
  | succ n ih =>
    cases n' with
    | zero =>
      have hshort : short' := by
        rcases hp with ⟨-, h⟩ | ⟨-, h⟩ | ⟨hs, -⟩
        · omega
        · omega
        · exact hs
      exact
        { eval := fun _ _ _ _ _ _ _ _ _ μ' _ => .right hshort ⟨μ', rfl⟩
          evalAll := fun _ _ _ _ _ _ _ _ _ μ' _ => .right hshort ⟨μ', rfl⟩
          call := fun _ _ _ _ _ μ' _ => .right hshort ⟨μ', rfl⟩
          runClosure := fun _ _ _ _ _ _ _ μ' _ => .right hshort ⟨μ', rfl⟩
          exec := fun _ _ _ _ _ _ _ _ _ _ _ μ' _ => .right hshort ⟨μ', rfl⟩
          execAll := fun _ _ _ _ _ _ _ _ _ _ _ _ μ' _ => .right hshort ⟨μ', rfl⟩
          execLoop := fun _ _ _ _ _ _ _ _ _ _ _ _ _ _ μ' _ => .right hshort ⟨μ', rfl⟩ }
    | succ n' =>
      have ih' := ih hp.pred
      exact
        { eval := fun room _ _ _ _ _ => eval_alike ih' room
          evalAll := fun room _ _ _ _ _ => evalAll_alike ih' room
          call := call_alike ih'
          runClosure := fun room _ _ _ => runClosure_alike ih' room
          exec := fun room _ _ _ _ _ _ => exec_alike (fun _ => ih) hp room
          execAll := fun room _ _ _ _ _ _ => execAll_alike ih' room
          execLoop := fun room _ _ _ _ _ _ _ _ => execLoop_alike ih' room }

end

/-! ### Whole programs -/

section

variable {short short' : Prop} {α β : Type} {R : α → β → Prop}
  {r : EStateM.Result Interrupt State α} {r' : EStateM.Result Interrupt State β}

/-- Results neither of which falls short are alike. -/
theorem EndsVariant.exact (h : EndsVariant braces short short' R r r') (hr : short → ¬ UsedUp r)
    (hr' : short' → ¬ UsedUp r') : EndsVariant braces False False R r r' := by
  cases h with
  | ok hμ h => exact .ok hμ h
  | error hμ hi => exact .error hμ hi
  | left hshort h => exact absurd h (hr hshort)
  | right hshort h => exact absurd h (hr' hshort)

theorem EndsVariant.usedUp_iff (h : EndsVariant braces False False R r r') :
    UsedUp r ↔ UsedUp r' := by
  cases h with
  | ok => simp [UsedUp]
  | error _ hi =>
    cases hi with
    | same i => simp [UsedUp]
    | error cause => simp [UsedUp, Interrupt.at]
    | unbound => simp [UsedUp]
  | left hshort => exact hshort.elim
  | right hshort => exact hshort.elim

end

section

variable {room : Nat} {program program' : List Stmt} {μ : State}

theorem execAll_paced (room : Nat) {short short' : Prop} {n n' : Nat}
    (hp : Paced braces short short' n n')
    (h : BodyVariant braces false .same program program') (hμ : μ.Variant braces μ) :
    EndsVariant braces short short' (fun _ _ => True) (execAll n room .top program μ)
      (execAll n' room .top program' μ) :=
  (alike hp).execAll room .top rfl rfl h μ μ hμ

/-- Without braces **the same steps** lead to the same. -/
theorem execAll_variant (hbraces : ¬ braces) (h : BodyVariant braces false .same program program')
    (hμ : μ.Variant braces μ) (n room : Nat) :
    EndsVariant braces False False (fun _ _ => True) (execAll n room .top program μ)
      (execAll n room .top program' μ) :=
  execAll_paced room (.inl ⟨hbraces, rfl⟩) h hμ

/-- Of two variants **the one comes to its end if the other does**, and they end alike. -/
theorem ends_variant (h : BodyVariant braces false .same program program')
    (hμ : μ.Variant braces μ) :
    (∀ r, Ends room program μ r → ∃ r', Ends room program' μ r' ∧
      EndsVariant braces False False (fun _ _ => True) r r') ∧
    (∀ r', Ends room program' μ r' → ∃ r, Ends room program μ r ∧
      EndsVariant braces False False (fun _ _ => True) r r') := by
  constructor
  · rintro _ ⟨hr, n, rfl⟩
    have hp : Paced braces True False n (3 * n) := .inr (.inl ⟨trivial, Nat.le_refl _⟩)
    have hends := (execAll_paced room hp h hμ).exact (fun _ => hr) False.elim
    exact ⟨_, ⟨fun hused => hr (hends.usedUp_iff.2 hused), 3 * n, rfl⟩, hends⟩
  · rintro _ ⟨hr, n, rfl⟩
    have hp : Paced braces False True n n := .inr (.inr ⟨trivial, Nat.le_refl _⟩)
    have hends := (execAll_paced room hp h hμ).exact False.elim fun _ => hr
    exact ⟨_, ⟨fun hused => hr (hends.usedUp_iff.1 hused), n, rfl⟩, hends⟩

end

end Lexical

end Lox
