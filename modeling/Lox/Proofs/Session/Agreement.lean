/-
**Twins agree.**

A session and a state that have come through the same steps correspond: the machine of the session
and the state show the same program, under the ledger that goes with the session.  Between the steps
the scope in force is the global one, and no distance is noted under a number that is still free.

Main definitions:

* `Lox.Agrees` — **a session and a state agree**.

Main results:

* `Lox.Agrees.execute`, `Lox.Agrees.evaluate` — an accepted tree ends alike on both sides;
* `Lox.Session.accepted_program`, `Lox.Session.accepted_expression` — what is accepted may be run;
* `Lox.Agrees.step` — what agrees, agrees after any step;
* `Lox.Twins.agrees` — **twins agree**.
-/

import Lox.Proofs.Lexical.Session
import Lox.Proofs.Lexical.Simulation
import Lox.Proofs.Session.Front

set_option relaxedAutoImplicit false
set_option autoImplicit false

namespace Lox

open Placement

/-- A session and a state **agree**, under a rule for what may be declared how deep. -/
structure Agrees (M : Nat → String → Prop) (s : Session) (μ : Lexical.State) : Prop where
  corresponds : ∃ W, Corresponds (s.ledger M) W s.machine μ
  current : s.machine.current = Machine.globalScope
  fresh : s.Fresh

section

variable {M : Nat → String → Prop} {s s' : Session} {μ μ' : Lexical.State}

/-! ### Beginnings and changes -/

theorem get?_blank {α : Type} (j : Nat) (x : String) :
    (Heap.empty.push none .empty : Heap α).get? j x = none := by
  rw [Heap.get?_push]
  split <;> rfl

/-- A new machine and a new state, before anything is known by a global name. -/
theorem corresponds_blank (L : Ledger) (hL : L.distances = {}) (time : Number) :
    Corresponds L (fun _ _ => none)
      { heap := Heap.empty.push none .empty
        current := Machine.globalScope
        distances := {}
        closures := #[]
        natives := #[]
        classes := .empty
        objects := #[]
        printed := #[]
        time := time }
      { cells := #[]
        globals := .empty
        closures := #[]
        classes := #[]
        natives := #[]
        objects := #[]
        printed := #[]
        time := time } where
  stores :=
    { global := rfl
      placed := nofun
      stored := nofun
      injective := nofun
      covered := by
        intro j x hj hb
        rw [Heap.binds, get?_blank] at hb
        cases hb
      depth := nofun
      supers := by
        intro j v hj hv
        rw [get?_blank] at hv
        cases hv }
  distances := hL.symm
  closures_size := rfl
  closures := nofun
  classes_size := rfl
  classes := nofun
  objects := rfl
  natives := rfl
  printed := rfl
  time := rfl

/-- A native function is made known on both sides. -/
theorem Corresponds.register {L : Ledger} {W : Placement} {m : Machine} (hc : Corresponds L W m μ)
    (name : String) (f : Native) : Corresponds L W (m.register name f) (μ.register name f) := by
  have hg : Grows Nowhere W m.heap W
      (m.heap.define Machine.globalScope name (.native m.natives.size)) :=
    .of_extends _ W (Heap.extends_define ..)
  have hs := hc.stores.writeGlobal name (.native m.natives.size)
  have h := hc.withHeap hg (fun _ _ hS => hS.elim) hs
  rw [Machine.register, Lexical.State.register, hc.natives]
  exact { h with natives := rfl }

/-- What corresponds, corresponds under a ledger that goes on. -/
theorem Corresponds.extend {L L' : Ledger} {W : Placement} {m : Machine} (hc : Corresponds L W m μ)
    (he : L.Extends L') : Corresponds L' W { m with distances := L'.distances } μ :=
  { hc with
    stores := hc.stores.mono he
    distances := rfl
    closures := fun id c c' h₁ h₂ =>
      (hc.closures id c c' h₁ h₂).mono he (.refl Nowhere W m.heap) fun _ _ hS => hS.elim
    classes := fun id k k' h₁ h₂ =>
      (hc.classes id k k' h₁ h₂).mono he (.refl Nowhere W m.heap) fun _ _ hS => hS.elim }

namespace Agrees

theorem initial (M : Nat → String → Prop) (time : Number) (traced : Bool) :
    Agrees M (.initial time traced) (.initial time) where
  corresponds := ⟨_, (corresponds_blank _ rfl time).register Machine.clock.name Machine.clock⟩
  current := rfl
  fresh := fun _ _ => by simp [Session.initial, Machine.initial, Machine.register]

theorem register (h : Agrees M s μ) (name : String) (f : Native) :
    Agrees M (s.register name f) (μ.register name f) where
  corresponds := by
    obtain ⟨W, hc⟩ := h.corresponds
    exact ⟨W, hc.register name f⟩
  current := h.current
  fresh := h.fresh

/-- The phases before a run keep the agreement. -/
theorem advances {ds : List Diagnostic} (h : Agrees M s μ) (ha : Session.Advances s s' ds) :
    Agrees M s' μ := by
  obtain ⟨W, hc⟩ := h.corresponds
  obtain ⟨D, hD⟩ := ha.machine
  refine ⟨⟨W, ?_⟩, by rw [hD]; exact h.current, h.fresh.advances ha⟩
  have hext := hc.extend (ha.ledger_extends M)
  have hm : { s.machine with distances := (s'.ledger M).distances } = s'.machine := by
    rw [Session.ledger, hD]
  rw [hm] at hext
  exact hext

/-- Something else has been printed, on both sides. -/
theorem withPrinted (h : Agrees M s μ) (printed : Array String) (report : Report) :
    Agrees M { s with machine := { s.machine with printed := printed }, report := report }
      { μ with printed := printed } := by
  obtain ⟨W, hc⟩ := h.corresponds
  exact ⟨⟨W, { hc with printed := rfl }⟩, h.current, h.fresh⟩

/-- Time passes, on both sides. -/
theorem withTime (h : Agrees M s μ) (time : Number) :
    Agrees M { s with machine := { s.machine with time := time } } { μ with time := time } := by
  obtain ⟨W, hc⟩ := h.corresponds
  exact ⟨⟨W, { hc with time := rfl }⟩, h.current, h.fresh⟩

end Agrees

/-! ### Runs -/

/-- How a step that is run in a session **ends**, beside the same step over names and cells: with a
value, with a runtime error that is reported, or for want of fuel. -/
inductive RunEnds {α β : Type} (M : Nat → String → Prop) (s : Session) (Q : α → β → Prop) :
    Session × Except Interrupt (Option α) → EStateM.Result Interrupt Lexical.State β → Prop
  | value {a : α} {b : β} {m : Machine} {μ : Lexical.State}
      (agrees : Agrees M { s with machine := m } μ) (result : Q a b) :
      RunEnds M s Q ({ s with machine := m }, .ok (some a)) (.ok b μ)
  | error {e : RuntimeError} {m : Machine} {μ : Lexical.State}
      (agrees : Agrees M { s with machine := m, report := s.report.runtimeError e } μ) :
      RunEnds M s Q ({ s with machine := m, report := s.report.runtimeError e }, .ok none)
        (.error (.error e) μ)
  | outOfFuel {m : Machine} {μ : Lexical.State} (agrees : Agrees M { s with machine := m } μ) :
      RunEnds M s Q ({ s with machine := m }, .error .outOfFuel) (.error .outOfFuel μ)

/-- A machine that the run of a step leaves agrees again. -/
theorem Agrees.leaves (h : Agrees M s μ) {m : Machine} {W : Placement} (report : Report)
    (hcur : m.current = s.machine.current) (hc : Corresponds (s.ledger M) W m μ') :
    Agrees M { s with machine := m, report := report } μ' := by
  have hd : m.distances = s.machine.distances := hc.distances
  have hL : Session.ledger { s with machine := m, report := report } M = s.ledger M := by
    simp only [Session.ledger, hd]
  refine ⟨⟨W, hL ▸ hc⟩, hcur.trans h.current, fun id hid => ?_⟩
  dsimp only
  rw [hd]
  exact h.fresh id hid

/-- Steps that end alike end so in a session. -/
theorem runStep_ends {α β : Type} {S : Nat → String → Prop} {W : Placement} {Q : α → β → Prop}
    {step : Run α} {r : EStateM.Result Interrupt Lexical.State β} (h : Agrees M s μ)
    (hends : EndsAlike (s.ledger M) S false W s.machine (fun _ _ => Q) (step s.machine) r) :
    RunEnds M s Q (s.runStep step) r := by
  unfold Session.runStep
  generalize step s.machine = r' at hends ⊢
  cases hends with
  | ok _ hcur hc hq => exact .value (h.leaves s.report hcur hc) hq
  | @error i W' m' μ' hi _ hcur hc =>
    cases i with
    | error e => exact .error (h.leaves _ hcur hc)
    | outOfFuel => exact .outOfFuel (h.leaves s.report hcur hc)
    | returned v => exact absurd hi (by simp [Interrupt.IsHarmless])
    | fault f => exact hi.elim

/-- A program that may run ends alike on both sides, within any allowance of steps. -/
theorem Agrees.executeFor (h : Agrees M s μ) {program : List Stmt}
    (hprogram : bodyScoped (s.ledger M) false [] program) (n : Nat) :
    RunEnds M s (fun _ _ => True) (s.runStep (execAll n maxCallDepth program))
      (Lexical.execAll n maxCallDepth .top program μ) := by
  obtain ⟨W, hc⟩ := h.corresponds
  have hin : InForce W s.machine [] .top := ⟨⟨h.current, rfl, fun _ => rfl⟩, trivial⟩
  exact runStep_ends h ((simulates _ n).execAll maxCallDepth hc hin hprogram)

theorem Agrees.execute (h : Agrees M s μ) {program : List Stmt}
    (hprogram : bodyScoped (s.ledger M) false [] program) :
    RunEnds M s (fun _ _ => True) (s.runStep (Machine.execute program))
      (Lexical.execute program μ) :=
  h.executeFor hprogram maxSteps

/-- The evaluation of an expression within the given allowance of steps, to the text of its
value. -/
def Machine.evaluateFor (n : Nat) (e : Expr) : Run String := do
  let v ← eval n maxExpressionCallDepth e
  return (← get).text v

/-- The same over names and cells. -/
def Lexical.evaluateFor (n : Nat) (e : Expr) : Lexical.Run String := do
  let v ← Lexical.eval n maxExpressionCallDepth .top e
  return (← get).text v

/-- An expression that may be evaluated has the same text on both sides, within any allowance of
steps. -/
theorem Agrees.evaluateFor (h : Agrees M s μ) {e : Expr} (he : e.Scoped (s.ledger M) [])
    (n : Nat) :
    RunEnds M s (fun a b => b = a) (s.runStep (Machine.evaluateFor n e))
      (Lexical.evaluateFor n e μ) := by
  obtain ⟨W, hc⟩ := h.corresponds
  have hm : Mirrors W s.machine.heap [] s.machine.current .top := ⟨h.current, rfl, fun _ => rfl⟩
  refine runStep_ends h (EndsAlike.bind ((simulates _ n).eval maxExpressionCallDepth hc hm he) ?_)
  rintro _ v W' m' μ' - - hc' rfl
  exact .pure hc' (hc'.text_eq _)

theorem Agrees.evaluate (h : Agrees M s μ) {e : Expr} (he : e.Scoped (s.ledger M) []) :
    RunEnds M s (fun a b => b = a) (s.runStep (Machine.evaluate e)) (Lexical.evaluate e μ) :=
  h.evaluateFor he maxSteps

/-! ### Accepted texts -/

namespace Session

/-- An accepted program may be run behind the phases before. -/
theorem accepted_program (hs : s.Fresh) {source : String} {program : List Stmt}
    (h : s.acceptedProgram? source = some program) :
    (∃ ds, Advances s (s.parsedProgram source).1 ds) ∧
      (s.parsedProgram source).1.Accepted program := by
  obtain ⟨ds, ha, hcases⟩ := parsedProgram_cases s hs source
  refine ⟨⟨ds, ha⟩, ?_⟩
  rw [acceptedProgram?] at h
  rcases hcases with hnone | ⟨program', hsome, -, haccepted⟩
  · rw [hnone] at h
    cases h
  · rw [hsome] at h
    obtain rfl : program' = program := Option.some.inj h
    exact haccepted

/-- An accepted expression may be evaluated behind the phases before. -/
theorem accepted_expression (hs : s.Fresh) {source : String} {e : Expr}
    (h : s.acceptedExpression? source = some e) :
    (∃ ds, Advances s (s.resolvedExpression source e) ds) ∧
      ∀ mayDeclare, e.Scoped ((s.resolvedExpression source e).ledger mayDeclare) [] := by
  obtain ⟨ds, ha, hmachine, hcases⟩ := parsedExpression_cases s source
  obtain ⟨hparsed, hclear⟩ := Option.filter_eq_some_iff.1 h
  rcases hcases with hnone | ⟨e', hsome, -, hproper, hnumbers⟩
  · rw [hnone] at hparsed
    cases hparsed
  · obtain rfl := Option.some.inj (hsome.symm.trans hparsed)
    obtain ⟨-, ha₂, hscoped⟩ := resolve_expression hs ha hmachine hproper hnumbers
    have hclear : (s.resolvedExpression source e').report.hadError = false := by
      simpa using hclear
    exact ⟨⟨_, ha₂⟩, hscoped hclear⟩

end Session

/-! ### Steps of a session -/

/-- The names that a step declares, with the numbers of local scopes around their declarations:
those of the program, if a text is run. -/
def Session.declares (s : Session) : Step → List (Nat × String)
  | .perform .run source => (s.acceptedProgram? source).elim [] (declarationsOfBody 0)
  | _ => []

/-- What comes of a text that is given to a session: at most one runtime error is reported, behind
no findings; nothing escapes but the end of the allowance; and session and state agree again. -/
structure Performs (M : Nat → String → Prop) (s : Session) (r : Session × Option Interrupt)
    (μ : Lexical.State) : Prop where
  agrees : Agrees M r.1 μ
  escaped : r.2 = none ∨ r.2 = some .outOfFuel
  reported : (∃ ds, s.report.Gains r.1.report ds) ∨
    ∃ q e, s.report.Gains q [] ∧ r.1.report = q.runtimeError e

/-- A text that is refused. -/
theorem Agrees.refuses {ds : List Diagnostic} (h : Agrees M s μ) (ha : Session.Advances s s' ds) :
    Performs M s (s', none) μ :=
  ⟨h.advances ha, .inl rfl, .inl ⟨ds, ha.gains⟩⟩

/-- Lines that are printed change nothing else. -/
theorem foldl_print (ts : List Token) (s : Session) :
    ∃ printed, ts.foldl (fun s t => s.print t.listing) s =
      { s with machine := { s.machine with printed := printed } } := by
  induction ts generalizing s with
  | nil => exact ⟨s.machine.printed, rfl⟩
  | cons t ts ih =>
    obtain ⟨printed, h⟩ := ih (s.print t.listing)
    exact ⟨printed, by rw [List.foldl_cons, h]; rfl⟩

theorem tokenize_performs (h : Agrees M s μ) (source : String) :
    Performs M s (s.perform .tokenize source)
      { μ with printed := (s.perform .tokenize source).1.machine.printed } := by
  have ha := Session.scanned_advances s source
  obtain ⟨printed, hprint⟩ := foldl_print (s.scanned source).2.allTokens (s.scanned source).1
  have hstep : s.perform .tokenize source =
      ({ (s.scanned source).1 with
        machine := { (s.scanned source).1.machine with printed := printed } }, none) := by
    rw [← hprint]
    rfl
  rw [hstep]
  exact ⟨(h.advances ha).withPrinted printed _, .inl rfl, .inl ⟨_, ha.gains⟩⟩

mutual

/-- A proper expression has a printed form. -/
theorem Expr.Proper.render : ∀ e : Expr, e.Proper → ∃ text, e.render = .ok text
  | .literal _, _ => ⟨_, rfl⟩
  | .grouping e, he => by
    obtain ⟨t, ht⟩ := Expr.Proper.render e he
    exact ⟨_, by rw [Expr.render, ht]; rfl⟩
  | .unary _ e, ⟨_, he⟩ => by
    obtain ⟨t, ht⟩ := Expr.Proper.render e he
    exact ⟨_, by rw [Expr.render, ht]; rfl⟩
  | .binary l _ r, ⟨_, hl, hr⟩ => by
    obtain ⟨t, ht⟩ := Expr.Proper.render l hl
    obtain ⟨u, hu⟩ := Expr.Proper.render r hr
    exact ⟨_, by rw [Expr.render, ht, hu]; rfl⟩
  | .logical l _ r, ⟨hl, hr⟩ => by
    obtain ⟨t, ht⟩ := Expr.Proper.render l hl
    obtain ⟨u, hu⟩ := Expr.Proper.render r hr
    exact ⟨_, by rw [Expr.render, ht, hu]; rfl⟩
  | .variable _, _ => ⟨_, rfl⟩
  | .assign _ e, ⟨_, he⟩ => by
    obtain ⟨t, ht⟩ := Expr.Proper.render e he
    exact ⟨_, by rw [Expr.render, ht]; rfl⟩
  | .call f _ as, ⟨hf, has⟩ => by
    obtain ⟨t, ht⟩ := Expr.Proper.render f hf
    obtain ⟨us, hus⟩ := argumentsProper.render as has
    exact ⟨_, by rw [Expr.render, ht, hus]; rfl⟩
  | .get o _, ho => by
    obtain ⟨t, ht⟩ := Expr.Proper.render o ho
    exact ⟨_, by rw [Expr.render, ht]; rfl⟩
  | .set o _ e, ⟨ho, he⟩ => by
    obtain ⟨t, ht⟩ := Expr.Proper.render o ho
    obtain ⟨u, hu⟩ := Expr.Proper.render e he
    exact ⟨_, by rw [Expr.render, ht, hu]; rfl⟩
  | .this _, _ => ⟨_, rfl⟩
  | .super _ _, _ => ⟨_, rfl⟩

theorem argumentsProper.render : ∀ es : List Expr, argumentsProper es →
    ∃ texts, renderArguments es = .ok texts
  | [], _ => ⟨_, rfl⟩
  | e :: es, ⟨he, hes⟩ => by
    obtain ⟨t, ht⟩ := Expr.Proper.render e he
    obtain ⟨us, hus⟩ := argumentsProper.render es hes
    exact ⟨_, by rw [renderArguments, ht, hus]; rfl⟩

end

theorem parse_performs (h : Agrees M s μ) (source : String) :
    Performs M s (s.perform .parse source)
      { μ with printed := (s.perform .parse source).1.machine.printed } := by
  obtain ⟨ds, ha, hmachine, hcases⟩ := Session.parsedExpression_cases s source
  have hstep : s.perform .parse source = s.parse source := rfl
  rw [hstep]
  unfold Session.parse
  generalize s.parsedExpression source = parsed at ha hmachine hcases ⊢
  obtain ⟨s₁, e?⟩ := parsed
  dsimp only at ha hmachine hcases ⊢
  rcases hcases with rfl | ⟨e, rfl, -, hproper, -⟩
  · have hrefuses := h.refuses ha
    obtain ⟨W, hc⟩ := hrefuses.agrees.corresponds
    dsimp only
    rw [← hc.printed]
    exact hrefuses
  · obtain ⟨text, htext⟩ := Expr.Proper.render e hproper
    simp only [htext]
    exact ⟨(h.advances ha).withPrinted _ _, .inl rfl, .inl ⟨ds, ha.gains⟩⟩

theorem run_performs (h : Agrees M s μ) (source : String)
    (hM : (s.ledger M).Allows (s.declares (.perform .run source))) :
    Performs M s (s.perform .run source) (μ.apply s (.perform .run source)) := by
  obtain ⟨ds, ha, hcases⟩ := Session.parsedProgram_cases s h.fresh source
  rw [Session.declares, Session.acceptedProgram?] at hM
  have hstep : s.perform .run source = s.run source := rfl
  rw [hstep, Lexical.State.apply, Session.run, Session.acceptedProgram?]
  generalize s.parsedProgram source = parsed at ha hcases hM ⊢
  obtain ⟨s₁, result⟩ := parsed
  dsimp only at ha hcases hM ⊢
  rcases hcases with rfl | ⟨program, rfl, rfl, hprogram⟩
  · exact h.refuses ha
  · have hends := (h.advances ha).execute (hprogram M hM)
    dsimp only [Option.elim_some]
    generalize s₁.runStep (Machine.execute program) = r at hends ⊢
    generalize Lexical.execute program μ = r' at hends ⊢
    cases hends with
    | value hagrees => exact ⟨hagrees, .inl rfl, .inl ⟨[], ha.gains⟩⟩
    | error hagrees => exact ⟨hagrees, .inl rfl, .inr ⟨_, _, ha.gains, rfl⟩⟩
    | outOfFuel hagrees => exact ⟨hagrees, .inr rfl, .inl ⟨[], ha.gains⟩⟩

theorem evaluate_performs (h : Agrees M s μ) (source : String) :
    Performs M s (s.perform .evaluate source) (μ.apply s (.perform .evaluate source)) := by
  obtain ⟨ds, ha, hmachine, hcases⟩ := Session.parsedExpression_cases s source
  have hstep : s.perform .evaluate source = s.evaluate source := rfl
  rw [hstep, Lexical.State.apply, Session.acceptedExpression?]
  unfold Session.evaluate Session.resolvedExpression
  generalize s.parsedExpression source = parsed at ha hmachine hcases ⊢
  obtain ⟨s₁, e?⟩ := parsed
  dsimp only at ha hmachine hcases ⊢
  rcases hcases with rfl | ⟨e, rfl, rfl, hproper, hnumbers⟩
  · exact h.refuses ha
  -- The analysis of a proper tree comes to an end.
  obtain ⟨hfault, ha₂, hscoped⟩ := Session.resolve_expression h.fresh ha hmachine hproper hnumbers
  have hres : s₁.resolve (resolveExpression e) = ((s₁.resolve (resolveExpression e)).1, none) :=
    Prod.ext rfl hfault
  simp only [Option.filter_some]
  rw [hres]
  generalize (s₁.resolve (resolveExpression e)).1 = s₂ at ha₂ hscoped ⊢
  dsimp only
  by_cases herror : s₂.report.hadError = true
  · simp only [herror, if_true, Bool.not_true, Bool.false_eq_true, if_false, Option.elim_none]
    exact h.refuses ha₂
  · have hclear : s₂.report.hadError = false := by simpa using herror
    have hnil := ha₂.findings_eq_nil hclear
    have hends := (h.advances ha₂).evaluate (hscoped hclear M)
    simp only [hclear, Bool.not_false, if_true, Bool.false_eq_true, if_false, Option.elim_some,
      Lexical.State.printValue]
    generalize s₂.runStep (Machine.evaluate e) = r at hends ⊢
    generalize Lexical.evaluate e μ = r' at hends ⊢
    rw [hnil] at ha₂
    cases hends with
    | @value text _ m μ' hagrees heq =>
      subst heq
      obtain ⟨W, hc⟩ := hagrees.corresponds
      refine ⟨?_, .inl rfl, .inl ⟨[], ha₂.gains⟩⟩
      dsimp only
      rw [hc.printed]
      exact hagrees.withPrinted _ _
    | error hagrees => exact ⟨hagrees, .inl rfl, .inr ⟨_, _, ha₂.gains, rfl⟩⟩
    | outOfFuel hagrees => exact ⟨hagrees, .inr rfl, .inl ⟨[], ha₂.gains⟩⟩

/-- **What comes of a text**, in any mode. -/
theorem Agrees.performs (h : Agrees M s μ) (mode : Mode) (source : String)
    (hM : (s.ledger M).Allows (s.declares (.perform mode source))) :
    Performs M s (s.perform mode source) (μ.apply s (.perform mode source)) := by
  cases mode with
  | tokenize => exact tokenize_performs h source
  | parse => exact parse_performs h source
  | evaluate => exact evaluate_performs h source
  | run => exact run_performs h source hM

/-- What agrees, agrees after any step that declares nothing but what may be declared. -/
theorem Agrees.step (h : Agrees M s μ) (step : Step) (hM : (s.ledger M).Allows (s.declares step)) :
    Agrees M (s.apply step).1 (μ.apply s step) := by
  cases step with
  | perform mode source => exact (h.performs mode source hM).agrees
  | reset => exact ⟨h.corresponds, h.current, h.fresh⟩
  | register name f => exact h.register name f

/-- **Twins agree.** -/
theorem Twins.agrees (hM : ∀ k x, M k x) (h : Twins s μ) : Agrees M s μ := by
  induction h with
  | initial time traced => exact .initial M time traced
  | step _ step ih => exact ih.step step fun d _ => hM d.1 d.2
  | flush _ ih => exact ih.withPrinted #[] _
  | tick _ time ih => exact ih.withTime time

end

end Lox
