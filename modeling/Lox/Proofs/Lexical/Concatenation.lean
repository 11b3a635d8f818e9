/-
**Programs one after the other.**

At the top of a program all names are global, so nothing but the state goes from one statement to
the next: a program that is put together from two runs as the one and then the other.  This is said
of runs that come to their end; how many steps they are allowed makes no difference to these.

Which tokens stand in a program is of consequence for its errors alone.  Two programs that differ in
lines and numbers end with the same result but for its lines, and the token of an error is always
one of the program's own.

Main definitions:

* `Lox.Lexical.Ends` — **a program ends**, within some allowance of steps;
* `Lox.Lexical.Resembles` — the same result on other lines.

Main results:

* `Lox.Lexical.Ends.unique` — a program has one end only;
* `Lox.Lexical.ends_append_iff` — **programs one after the other**;
* `Lox.Lexical.execAll_resembles`, `Lox.Lexical.execAll_unnumbered`,
  `Lox.Lexical.ends_resembles` — programs that differ in lines and numbers;
* `Lox.Lexical.Ends.token_mem` — the token of an error is one of the program.
-/

import Lox.Proofs.Grammar.Exact
import Lox.Proofs.Lexical.Relabel
import Lox.Proofs.Lexical.Session
import Lox.Proofs.Scope.Scoped

set_option relaxedAutoImplicit false
set_option autoImplicit false

namespace Lox

namespace Lexical

/-! ### Names at the top -/

section

variable {ρ : Names} {n room : Nat}

theorem declare_top (hρ : ρ.isLocal = false) (x : String) :
    Gives (fun r => r.1 = ρ) (Run.declare ρ x) := by
  rw [Run.declare, hρ]
  exact .pure rfl

theorem execLoop_top (c : Expr) (body : Stmt) : Gives (· = ρ) (execLoop n room ρ c body) := by
  induction n with
  | zero => exact .throw _
  | succ n ih =>
    refine .behind fun v => ?_
    cases v.isTruthy with
    | true => exact .behind fun _ => ih
    | false => exact .pure rfl

/-- Behind a statement that declares nothing the names in force are those before it. -/
theorem exec_undeclaring {s : Stmt} (hd : s.declared? = none) :
    Gives (· = ρ) (exec n room ρ s) := by
  cases n with
  | zero => exact .throw _
  | succ n =>
    cases s with
    | expression e => exact .behind fun _ => .pure rfl
    | print e => exact .behind fun _ => .behind fun _ => .behind fun _ => .pure rfl
    | block body => exact .behind fun _ => .pure rfl
    | cond condition thenBranch elseBranch =>
      refine .behind fun v => ?_
      cases v.isTruthy with
      | true => exact .behind fun _ => .pure rfl
      | false =>
        cases elseBranch with
        | none => exact .pure rfl
        | some s => exact .behind fun _ => .pure rfl
    | loop condition body => exact execLoop_top condition body
    | ret keyword value =>
      cases value with
      | none => exact .throw _
      | some e => exact .behind fun _ => .throw _
    | _ => cases hd

theorem exec_top (hρ : ρ.isLocal = false) (s : Stmt) : Gives (· = ρ) (exec n room ρ s) := by
  cases n with
  | zero => exact .throw _
  | succ n =>
    cases s with
    | var name initializer =>
      cases initializer with
      | none => exact (declare_top hρ _).bind fun _ h => .behind fun _ => .pure h
      | some e =>
        exact (declare_top hρ _).bind fun _ h => .behind fun _ => .behind fun _ => .pure h
    | function routine =>
      exact (declare_top hρ _).bind fun _ h => .behind fun _ => .behind fun _ => .pure h
    | classDecl name superclass methods =>
      refine (declare_top hρ _).bind fun _ h => ?_
      refine .behind fun _ => .behind fun _ => .behind fun _ => .behind fun _ => .behind fun _ => ?_
      exact .pure h
    | _ => exact exec_undeclaring rfl

/-- Behind a program all names are global still. -/
theorem execAll_top (hρ : ρ.isLocal = false) (ss : List Stmt) :
    Gives (· = ρ) (execAll n room ρ ss) := by
  induction n generalizing ss with
  | zero => exact .throw _
  | succ n ih =>
    cases ss with
    | nil => exact .pure rfl
    | cons s ss =>
      refine (exec_top hρ s).bind fun ρ' h => ?_
      subst h
      exact ih ss

end

/-! ### Programs that end -/

/-- A program **ends** with the given result, within some allowance of steps. -/
def Ends (room : Nat) (program : List Stmt) (μ : State)
    (r : EStateM.Result Interrupt State Names) : Prop :=
  ¬ UsedUp r ∧ ∃ n, execAll n room .top program μ = r

section

variable {room : Nat} {program program' : List Stmt} {μ μ' : State}
  {r r' : EStateM.Result Interrupt State Names}

/-- From some allowance on a program ends within every one. -/
theorem Ends.eventually (h : Ends room program μ r) :
    ∃ n, ∀ n', n ≤ n' → execAll n' room .top program μ = r := by
  obtain ⟨hr, n, rfl⟩ := h
  exact ⟨n, fun n' hle => execAll_mono hle hr⟩

/-- A program has one end only. -/
theorem Ends.unique (h : Ends room program μ r) (h' : Ends room program μ r') : r = r' := by
  obtain ⟨n, hn⟩ := h.eventually
  obtain ⟨n', hn'⟩ := h'.eventually
  rw [← hn (max n n') (Nat.le_max_left ..), ← hn' (max n n') (Nat.le_max_right ..)]

/-- The names behind a program that ends without an error are those at the top. -/
theorem Ends.names {ρ : Names} (h : Ends room program μ (.ok ρ μ')) : ρ = .top := by
  obtain ⟨-, n, hn⟩ := h
  exact execAll_top rfl program μ ρ μ' hn

/-- Statements one after the other: the second part has what the first one leaves of the
allowance. -/
theorem execAll_append (n room : Nat) (ρ : Names) (ss ss' : List Stmt) :
    execAll (n + 1 + ss.length) room ρ (ss ++ ss') =
      execAll (n + 1 + ss.length) room ρ ss >>= fun ρ' => execAll (n + 1) room ρ' ss' := by
  induction ss generalizing ρ with
  | nil => rfl
  | cons s ss ih =>
    rw [List.length_cons, ← Nat.add_assoc, List.cons_append, execAll, execAll, bind_assoc]
    exact congrArg _ (funext fun ρ' => ih ρ')

/-- **Programs one after the other** end as the second one does, from the state that the first one
leaves. -/
theorem ends_append_iff (h : Ends room program μ (.ok .top μ')) :
    Ends room (program ++ program') μ r ↔ Ends room program' μ' r := by
  obtain ⟨n, hn⟩ := h.eventually
  -- With an allowance that serves both parts the run of the whole is that of the second part.
  have hwhole : ∀ m, n ≤ m → execAll (m + 1 + program.length) room .top (program ++ program') μ =
      execAll (m + 1) room .top program' μ' := by
    intro m hm
    rw [execAll_append, bind_ok (hn _ (by omega))]
  constructor
  · intro h'
    obtain ⟨n', hn'⟩ := h'.eventually
    refine ⟨h'.1, max n n' + 1, ?_⟩
    rw [← hwhole _ (Nat.le_max_left ..)]
    exact hn' _ (by omega)
  · intro h'
    obtain ⟨n', hn'⟩ := h'.eventually
    refine ⟨h'.1, max n n' + 1 + program.length, ?_⟩
    rw [hwhole _ (Nat.le_max_left ..)]
    exact hn' _ (by omega)

end

/-! ### Programs that differ in lines and numbers -/

theorem usedUp_relabelResult {α β : Type} (σ : Relabeling) (g : α → β)
    (r : EStateM.Result Interrupt State α) : UsedUp (relabelResult σ g r) ↔ UsedUp r := by
  constructor
  · rintro ⟨μ, hr⟩
    cases r with
    | ok a μ => cases hr
    | error i μ =>
      cases i with
      | outOfFuel => exact ⟨μ, rfl⟩
      | _ => cases hr
  · rintro ⟨μ, rfl⟩
    exact ⟨_, rfl⟩

theorem finalInterrupt_relabelResult {α β : Type} (σ : Relabeling) (g : α → β)
    (r : EStateM.Result Interrupt State α) :
    finalInterrupt (relabelResult σ g r) = (finalInterrupt r).map (Interrupt.relabel σ) := by
  cases r <;> rfl

theorem finalState_relabelResult {α β : Type} (σ : Relabeling) (g : α → β)
    (r : EStateM.Result Interrupt State α) :
    finalState (relabelResult σ g r) = (finalState r).relabel σ := by
  cases r <;> rfl

/-- The second result is the first one **on other lines**, numbers apart. -/
def Resembles (σ : Relabeling) (r r' : EStateM.Result Interrupt State Names) : Prop :=
  relabelResult .unnumbering id r' = relabelResult .unnumbering id (relabelResult σ id r)

namespace Resembles

variable {σ : Relabeling} {r r' : EStateM.Result Interrupt State Names}

theorem usedUp_iff (h : Resembles σ r r') : UsedUp r' ↔ UsedUp r := by
  rw [← usedUp_relabelResult .unnumbering id r', h, usedUp_relabelResult, usedUp_relabelResult]

/-- The interrupt is the same on other lines. -/
theorem interrupt (h : Resembles σ r r') :
    finalInterrupt r' = (finalInterrupt r).map (Interrupt.relabel σ) := by
  have hnumbers : Interrupt.relabel .unnumbering = id :=
    funext fun i => i.relabel_of_line rfl
  have hi := congrArg finalInterrupt h
  simp only [finalInterrupt_relabelResult, hnumbers, Option.map_id_fun, id_eq] at hi
  exact hi

/-- What is shown of the state is the same. -/
theorem state (h : Resembles σ r r') :
    (finalState r').printed = (finalState r).printed ∧
      (finalState r').globals = (finalState r).globals ∧
      ∀ v, (finalState r').text v = (finalState r).text v := by
  have hμ := congrArg finalState h
  simp only [finalState_relabelResult] at hμ
  have hprinted := congrArg State.printed hμ
  have hglobals := congrArg State.globals hμ
  refine ⟨hprinted, hglobals, fun v => ?_⟩
  have htext := congrArg (State.text · v) hμ
  simp only [State.text_relabel] at htext
  exact htext

end Resembles

/-- Programs that differ in lines and numbers end alike. -/
theorem execAll_resembles {σ : Relabeling} {program program' : List Stmt}
    (h : unnumberedBody (relabelBody σ program) = unnumberedBody program') (n room : Nat)
    (time : Number) :
    Resembles σ (execAll n room .top program (.initial time))
      (execAll n room .top program' (.initial time)) := by
  rw [unnumberedBody_eq_relabelBody, unnumberedBody_eq_relabelBody] at h
  rw [Resembles, ← execAll_relabel, ← execAll_relabel, ← execAll_relabel, ← h]
  simp only [State.initial_relabel]

/-- Programs and states that differ in nothing but numbers end alike. -/
theorem execAll_unnumbered {program program' : List Stmt} {μ ν : State}
    (hprogram : unnumberedBody program = unnumberedBody program')
    (hstate : μ.relabel .unnumbering = ν.relabel .unnumbering) (n room : Nat) :
    Resembles .plain (execAll n room .top program μ) (execAll n room .top program' ν) := by
  rw [unnumberedBody_eq_relabelBody, unnumberedBody_eq_relabelBody] at hprogram
  rw [Resembles, relabelResult_plain, ← execAll_relabel, ← execAll_relabel, hprogram, hstate]

/-- From any state, programs that differ in nothing but numbers end alike. -/
theorem execAll_renumbered {program program' : List Stmt}
    (h : unnumberedBody program = unnumberedBody program') (n room : Nat) (μ : State) :
    Resembles .plain (execAll n room .top program μ) (execAll n room .top program' μ) :=
  execAll_unnumbered h rfl n room

/-- If two programs resemble each other within every allowance, the one ends if the other does. -/
theorem ends_of_resembles {σ : Relabeling} {program program' : List Stmt} {room : Nat} {μ : State}
    (h : ∀ n, Resembles σ (execAll n room .top program μ) (execAll n room .top program' μ)) :
    (∀ r, Ends room program μ r → ∃ r', Ends room program' μ r' ∧ Resembles σ r r') ∧
    (∀ r', Ends room program' μ r' → ∃ r, Ends room program μ r ∧ Resembles σ r r') := by
  constructor
  · rintro _ ⟨hr, n, rfl⟩
    exact ⟨_, ⟨fun hused => hr ((h n).usedUp_iff.1 hused), n, rfl⟩, h n⟩
  · rintro _ ⟨hr, n, rfl⟩
    exact ⟨_, ⟨fun hused => hr ((h n).usedUp_iff.2 hused), n, rfl⟩, h n⟩

/-- The one ends if the other does, with a result that is the same on other lines. -/
theorem ends_resembles {σ : Relabeling} {program program' : List Stmt}
    (h : unnumberedBody (relabelBody σ program) = unnumberedBody program') (room : Nat)
    (time : Number) :
    (∀ r, Ends room program (.initial time) r →
      ∃ r', Ends room program' (.initial time) r' ∧ Resembles σ r r') ∧
    (∀ r', Ends room program' (.initial time) r' →
      ∃ r, Ends room program (.initial time) r ∧ Resembles σ r r') :=
  ends_of_resembles fun n => execAll_resembles h n room time

/-! ### The tokens of errors -/

/-- The token of an error is one of the program. -/
theorem Ends.token_mem {tokens : List Token} {program : List Stmt} {room : Nat} {time : Number}
    {μ : State} {e : RuntimeError} {t : Token} (hprogram : Grammar.Program tokens program)
    (h : Ends room program (.initial time) (.error (.error e) μ)) (ht : e.token = some t) :
    t ∈ tokens := by
  -- If every other token were on another line, the program and its error would be the same.
  let σ : Relabeling := ⟨fun t => if t ∈ tokens then t.line else t.line + 1, fun id => id⟩
  have htoken : ∀ t, t ∈ tokens → σ.token t = t := by
    intro t ht
    simp only [Relabeling.token, σ, if_pos ht]
  have htokens : tokens.map σ.token = tokens := by
    rw [List.map_congr_left htoken, List.map_id']
  have hrelabel := hprogram.relabel σ
  rw [htokens] at hrelabel
  obtain ⟨r', hends, hresembles⟩ := (ends_resembles (hrelabel.unique hprogram) room time).1 _ h
  obtain rfl := h.unique hends
  have hline : t.line = σ.line t := by
    have herror := hresembles.interrupt
    obtain ⟨token, cause⟩ := e
    obtain rfl : token = some t := ht
    simp only [finalInterrupt, Option.map_some, Interrupt.relabel, RuntimeError.relabel,
      Option.some.injEq, Interrupt.error.injEq, RuntimeError.mk.injEq, and_true] at herror
    exact congrArg Token.line herror
  by_cases hmem : t ∈ tokens
  · exact hmem
  · simp only [σ, if_neg hmem] at hline
    omega

end Lexical

end Lox
