/-
**Accepted trees are scoped.**

The analysis of scopes goes through a tree once and notes distances as it goes.  On a tree that a
text can give it never stops; it leaves the scopes as the tree's own declarations demand, notes
distances of the tree's own references only, and if it reports nothing the tree is scoped.

The table of distances goes on growing after a reference is settled.  So what is known of a tree is
said of any ledger that agrees with the final distances on the tree's references.

Main definitions:

* `Lox.Resolves` — **what a step of the analysis does**: the scopes it leaves, the references it
  settles, and what holds if nothing is reported;
* `Lox.Placed` — how the surroundings of a place go with the scopes around it;
* `Lox.Stmt.declarations` — the names that a statement declares, with their depths.

Main results:

* `Lox.Resolves.seq`, `Lox.Resolves.inScope` — steps put together;
* `Lox.resolveExpr_resolves`, `Lox.resolveStmt_resolves` — **the analysis settles proper trees**;
* `Lox.resolveProgram_scoped`, `Lox.resolveExpression_scoped` — the same for whole trees.
-/

import Lox.Proofs.Grammar.Proper

set_option relaxedAutoImplicit false
set_option autoImplicit false

namespace Lox

/-! ### Steps of the analysis -/

/-- The ledger agrees with the given distances on the given references. -/
def Ledger.Covers (L : Ledger) (refs : List Reference) (D : Distances) : Prop :=
  ∀ ref ∈ refs, ref.id < L.bound ∧ L.distances[ref.id]? = D[ref.id]?

/-- How a step of the analysis leaves the state. -/
structure Settles (L : Ledger) (Γ : Scopes) (refs : List Reference) (P : Prop) (r r' : Resolution) :
    Prop where
  scopes : r'.scopes = Γ
  place : r'.place = r.place
  findings : r.findings <:+ r'.findings
  frame : ∀ id, (∀ ref ∈ refs, ref.id ≠ id) → r'.distances[id]? = r.distances[id]?
  result : r'.findings = r.findings → L.Covers refs r'.distances → P

/-- What a **step of the analysis** does inside the scopes `Γ`: it does not fail, leaves the scopes
`Γ'` and the surroundings as they were, notes no distances but those of the given references, and if
it reports nothing, `P` holds. -/
def Resolves (L : Ledger) (place : Surroundings) (step : Resolve Unit) (Γ Γ' : Scopes)
    (refs : List Reference) (P : Prop) : Prop :=
  ∀ r : Resolution, r.scopes = Γ → r.place = place →
    (∀ ref ∈ refs, r.distances[ref.id]? = none) →
    ∃ r', step r = .ok () r' ∧ Settles L Γ' refs P r r'

/-- References with different numbers. -/
def Apart (refs refs' : List Reference) : Prop := ∀ a ∈ refs, ∀ b ∈ refs', a.id ≠ b.id

namespace Resolves

variable {L : Ledger} {place : Surroundings} {step step' : Resolve Unit} {Γ Γ' Γ'' : Scopes}
  {refs refs' : List Reference} {P P' : Prop}

theorem pure (Γ : Scopes) : Resolves L place (Pure.pure ()) Γ Γ [] True :=
  fun r hΓ _ _ => ⟨r, rfl, hΓ, rfl, List.suffix_refl _, fun _ _ => rfl, fun _ _ => trivial⟩

theorem imp (h : Resolves L place step Γ Γ' refs P) (hP : P → P') :
    Resolves L place step Γ Γ' refs P' := by
  intro r hΓ hplace hfresh
  obtain ⟨r', hstep, hr'⟩ := h r hΓ hplace hfresh
  exact ⟨r', hstep, { hr' with result := fun hf hc => hP (hr'.result hf hc) }⟩

/-- More references may be given than the step settles, and in any order. -/
theorem weaken (h : Resolves L place step Γ Γ' refs P) (hrefs : ∀ ref ∈ refs, ref ∈ refs') :
    Resolves L place step Γ Γ' refs' P := by
  intro r hΓ hplace hfresh
  obtain ⟨r', hstep, hr'⟩ := h r hΓ hplace fun ref href => hfresh ref (hrefs ref href)
  refine ⟨r', hstep, hr'.scopes, hr'.place, hr'.findings, fun id hid => ?_, fun hf hc => ?_⟩
  · exact hr'.frame id fun ref href => hid ref (hrefs ref href)
  · exact hr'.result hf fun ref href => hc ref (hrefs ref href)

/-- Steps put together.  The second one does not touch the references of the first. -/
theorem seq (h : Resolves L place step Γ Γ' refs P) (h' : Resolves L place step' Γ' Γ'' refs' P')
    (hapart : Apart refs refs') :
    Resolves L place (step >>= fun _ => step') Γ Γ'' (refs ++ refs') (P ∧ P') := by
  intro r hΓ hplace hfresh
  obtain ⟨r₁, hstep, hr₁⟩ := h r hΓ hplace fun ref href => hfresh ref (List.mem_append_left _ href)
  have hfresh₁ : ∀ ref ∈ refs', r₁.distances[ref.id]? = none := by
    intro ref href
    rw [hr₁.frame ref.id fun a ha => hapart a ha ref href]
    exact hfresh ref (List.mem_append_right _ href)
  obtain ⟨r₂, hstep', hr₂⟩ := h' r₁ hr₁.scopes (hr₁.place.trans hplace) hfresh₁
  refine ⟨r₂, by rw [bind_ok hstep, hstep'], hr₂.scopes, hr₂.place.trans hr₁.place,
    hr₁.findings.trans hr₂.findings, ?_, ?_⟩
  · intro id hid
    rw [hr₂.frame id fun ref href => hid ref (List.mem_append_right _ href),
      hr₁.frame id fun ref href => hid ref (List.mem_append_left _ href)]
  · intro hf hc
    obtain ⟨hf₂, hf₁⟩ := findings_eq_of_suffix hr₁.findings hr₂.findings hf
    refine ⟨hr₁.result hf₁ fun ref href => ?_,
      hr₂.result hf₂ fun ref href => hc ref (List.mem_append_right _ href)⟩
    -- What the first step noted is as it was.
    obtain ⟨hlt, hd⟩ := hc ref (List.mem_append_left _ href)
    exact ⟨hlt, by rw [hd, hr₂.frame ref.id fun b hb => (hapart ref href b hb).symm]⟩

/-- A step that settles no references goes before. -/
theorem before (h : Resolves L place step Γ Γ' [] P) (h' : Resolves L place step' Γ' Γ'' refs P') :
    Resolves L place (step >>= fun _ => step') Γ Γ'' refs (P ∧ P') :=
  h.seq h' fun _ ha => absurd ha (by simp)

/-- A step that settles no references comes last. -/
theorem last (h : Resolves L place step Γ Γ' refs P) (h' : Resolves L place step' Γ' Γ'' [] P') :
    Resolves L place (step >>= fun _ => step') Γ Γ'' refs (P ∧ P') := by
  have h := h.seq h' fun _ _ _ hb => absurd hb (by simp)
  rw [List.append_nil] at h
  exact h

/-- A step that looks at the open scopes and the surroundings. -/
theorem inspect {f : Resolution → Resolve Unit}
    (h : ∀ r, r.scopes = Γ → r.place = place → Resolves L place (f r) Γ Γ' refs P) :
    Resolves L place (get >>= f) Γ Γ' refs P :=
  fun r hΓ hplace hfresh => h r hΓ hplace r hΓ hplace hfresh

/-- A step inside a new scope. -/
theorem inScope {names : List String} {γ : Bindings Readiness}
    (h : Resolves L place step (Resolve.newScope names :: Γ) (γ :: Γ) refs P) :
    Resolves L place (Resolve.inScope names step) Γ Γ refs P := by
  intro r hΓ hplace hfresh
  have hΓ' : ({ r with scopes := Resolve.newScope names :: r.scopes } : Resolution).scopes =
      Resolve.newScope names :: Γ := by rw [hΓ]
  obtain ⟨r', hstep, hr'⟩ := h _ hΓ' hplace hfresh
  refine ⟨{ r' with scopes := r'.scopes.tail }, ?_, ?_, hr'.place, hr'.findings, hr'.frame,
    hr'.result⟩
  · unfold Resolve.inScope
    rw [hstep]
  · rw [hr'.scopes, List.tail_cons]

/-- A step inside a body of another kind. -/
theorem inBody {kind : BodyKind}
    (h : Resolves L { place with body := kind } step Γ Γ' refs P) :
    Resolves L place (Resolve.inBody kind step) Γ Γ' refs P := by
  rintro r hΓ rfl hfresh
  obtain ⟨r', hstep, hr'⟩ := h { r with place := { r.place with body := kind } } hΓ rfl hfresh
  refine ⟨{ r' with place := { r'.place with body := r.place.body } }, ?_, hr'.scopes, ?_,
    hr'.findings, hr'.frame, hr'.result⟩
  · change (step >>= fun _ => Resolve.setBody r.place.body)
      { r with place := { r.place with body := kind } } = _
    rw [bind_ok hstep]
    rfl
  · simp only [hr'.place]

/-- A step inside a class of another kind. -/
theorem inClass {kind : ClassKind}
    (h : Resolves L { place with cls := kind } step Γ Γ' refs P) :
    Resolves L place (Resolve.inClass kind step) Γ Γ' refs P := by
  rintro r hΓ rfl hfresh
  obtain ⟨r', hstep, hr'⟩ := h { r with place := { r.place with cls := kind } } hΓ rfl hfresh
  refine ⟨{ r' with place := { r'.place with cls := r.place.cls } }, ?_, hr'.scopes, ?_,
    hr'.findings, hr'.frame, hr'.result⟩
  · change (step >>= fun _ => Resolve.setClass r.place.cls)
      { r with place := { r.place with cls := kind } } = _
    rw [bind_ok hstep]
    rfl
  · simp only [hr'.place]

/-! ### Basic steps -/

/-- A problem that is reported leaves nothing to be known. -/
theorem report (t : Token) (p : Problem) (Γ : Scopes) :
    Resolves L place (Resolve.report t p) Γ Γ [] False := by
  intro r hΓ _ _
  refine ⟨_, rfl, hΓ, rfl, List.suffix_cons .., fun _ _ => rfl, fun hf _ => ?_⟩
  exact absurd (congrArg List.length hf) (by simp)

theorem report? (t : Token) (p? : Option Problem) (Γ : Scopes) :
    Resolves L place (Resolve.report? t p?) Γ Γ [] (p? = none) := by
  cases p? with
  | none => exact (pure Γ).imp fun _ => rfl
  | some p => exact (report t p Γ).imp False.elim

theorem mark (name : Token) (state : Readiness) (Γ : Scopes) :
    Resolves L place (Resolve.mark name state) Γ (Γ.mark name.lexeme state) [] True := by
  rintro ⟨Γ, _, D, fs⟩ rfl _ _
  cases Γ <;> exact ⟨_, rfl, rfl, rfl, List.suffix_refl _, fun _ _ => rfl, fun _ _ => trivial⟩

/-- A name is declared: the innermost scope does not hold it yet. -/
theorem declare {name : Token} (hname : IsPlain name.lexeme)
    (hmay : L.mayDeclare Γ.length name.lexeme) :
    Resolves L place (Resolve.declare name) Γ (Γ.mark name.lexeme .declared) []
      (L.Declares Γ name) := by
  refine .inspect fun r hΓ _ => ((report? name _ Γ).before (mark name .declared Γ)).imp ?_
  rintro ⟨hproblem, -⟩
  refine ⟨hname, ?_⟩
  rintro scope outer rfl
  refine ⟨?_, hmay⟩
  simp only [Resolution.declarationProblem?, hΓ, List.head?_cons, Option.any_some] at hproblem
  rw [Bindings.get?_eq_none_iff]
  cases hb : scope.binds name.lexeme with
  | false => rfl
  | true => simp [hb] at hproblem

/-- A name is declared and has its value at once. -/
theorem introduce {name : Token} (hname : IsPlain name.lexeme)
    (hmay : L.mayDeclare Γ.length name.lexeme) :
    Resolves L place (Resolve.introduce name) Γ (Γ.mark name.lexeme .defined) []
      (L.Declares Γ name) := by
  rw [← Scopes.mark_mark Γ name.lexeme .declared .defined]
  exact ((declare hname hmay).before (mark name .defined _)).imp And.left

/-- The distance of a reference is the one of the nearest scope that holds its name. -/
theorem locate (ref : Reference) (Γ : Scopes) :
    Resolves L place (Resolve.locate ref) Γ Γ [ref]
      (L.Records ref ((Γ.nearest? ref.name.lexeme).map Prod.fst)) := by
  rintro r rfl _ hfresh
  have hfresh : r.distances[ref.id]? = none := hfresh ref (List.mem_singleton_self _)
  rw [Scopes.map_fst_nearest?]
  cases hd : r.scopes.findIdx? fun scope => scope.binds ref.name.lexeme with
  | none =>
    have hstep : Resolve.locate ref r = .ok () r := by
      change EStateM.Result.ok () _ = _
      simp only [hd]
    refine ⟨r, hstep, rfl, rfl, List.suffix_refl _, fun _ _ => rfl, fun _ hc => ?_⟩
    obtain ⟨hlt, heq⟩ := hc ref (List.mem_singleton_self _)
    exact ⟨hlt, heq.trans hfresh⟩
  | some d =>
    have hstep : Resolve.locate ref r =
        .ok () { r with distances := r.distances.insert ref.id d } := by
      change EStateM.Result.ok () _ = _
      simp only [hd]
    refine ⟨_, hstep, rfl, rfl, List.suffix_refl _, fun id hid => ?_, fun _ hc => ?_⟩
    · have hne := hid ref (List.mem_singleton_self _)
      simp [Std.TreeMap.getElem?_insert, hne]
    · obtain ⟨hlt, heq⟩ := hc ref (List.mem_singleton_self _)
      refine ⟨hlt, heq.trans ?_⟩
      simp

end Resolves

/-! ### Places -/

/-- The scopes around a place hold what its surroundings promise.  Only in the innermost one may a
name wait for its value, while its initializer is gone through. -/
structure Placed (place : Surroundings) (Γ : Scopes) : Prop where
  outer : Settled Γ.tail
  this : place.cls ≠ .none → ∃ d, Γ.nearest? thisName = some (d, .defined)
  super : place.cls = .derived → ∃ d, Γ.nearest? superName = some (d + 1, .defined) ∧
    Γ.nearest? thisName = some (d, .defined)

namespace Settled

theorem nearest?_ne {Γ : Scopes} (h : Settled Γ) (x : String) :
    ∀ d, Γ.nearest? x ≠ some (d, .declared) := by
  induction Γ with
  | nil => exact nofun
  | cons γ Γ ih =>
    intro d hd
    cases hg : γ.get? x with
    | some state =>
      rw [Scopes.nearest?_cons_of_get? Γ hg] at hd
      obtain ⟨-, rfl⟩ := Prod.mk.inj (Option.some.inj hd)
      exact h γ (List.mem_cons_self ..) x hg
    | none =>
      rw [Scopes.nearest?_cons_of_none Γ hg] at hd
      obtain ⟨⟨d', state⟩, hd', heq⟩ := Option.map_eq_some_iff.1 hd
      obtain ⟨-, rfl⟩ := Prod.mk.inj heq
      exact ih (fun γ' hγ' => h γ' (List.mem_cons_of_mem _ hγ')) d' hd'

theorem mark {Γ : Scopes} (h : Settled Γ) (x : String) : Settled (Γ.mark x .defined) := by
  cases Γ with
  | nil => exact h
  | cons γ Γ =>
    intro γ' hγ' y
    rcases List.mem_cons.1 hγ' with rfl | hγ'
    · rw [Bindings.get?_set]
      split
      · exact nofun
      · exact h γ (List.mem_cons_self ..) y
    · exact h γ' (List.mem_cons_of_mem _ hγ') y

theorem push {Γ : Scopes} (h : Settled Γ) (names : List String) :
    Settled (Resolve.newScope names :: Γ) := by
  intro γ hγ x
  rcases List.mem_cons.1 hγ with rfl | hγ
  · rw [Resolve.get?_newScope]
    split <;> nofun
  · exact h γ hγ x

end Settled

namespace Placed

variable {place : Surroundings} {Γ : Scopes}

/-- Another name in the innermost scope changes nothing. -/
theorem mark (h : Placed place Γ) {x : String} (hx : IsPlain x) (state : Readiness) :
    Placed place (Γ.mark x state) where
  outer := by cases Γ <;> exact h.outer
  this := by
    rw [Scopes.nearest?_mark_of_ne Γ state hx.1.symm]
    exact h.this
  super := by
    rw [Scopes.nearest?_mark_of_ne Γ state hx.1.symm, Scopes.nearest?_mark_of_ne Γ state hx.2.symm]
    exact h.super

/-- Inside a block or a body the surroundings are the same. -/
theorem push (h : Placed place Γ) (hΓ : Settled Γ) : Placed place (Resolve.newScope [] :: Γ) where
  outer := hΓ
  this := by
    intro hc
    obtain ⟨d, hd⟩ := h.this hc
    exact ⟨d + 1, by rw [Scopes.nearest?_cons_of_none Γ rfl, hd]; rfl⟩
  super := by
    intro hc
    obtain ⟨d, hs, ht⟩ := h.super hc
    exact ⟨d + 1, by rw [Scopes.nearest?_cons_of_none Γ rfl, hs]; rfl,
      by rw [Scopes.nearest?_cons_of_none Γ rfl, ht]; rfl⟩

/-- Inside a class without a superclass. -/
theorem base (hΓ : Settled Γ) (body : BodyKind) : Placed ⟨body, .base⟩ (thisScope :: Γ) where
  outer := hΓ
  this := fun _ => ⟨0, Scopes.nearest?_cons_of_get? Γ rfl⟩
  super := nofun

/-- Inside a class with a superclass. -/
theorem derived (hΓ : Settled Γ) (body : BodyKind) :
    Placed ⟨body, .derived⟩ (thisScope :: superScope :: Γ) where
  outer := hΓ.push [superName]
  this := fun _ => ⟨0, Scopes.nearest?_cons_of_get? _ rfl⟩
  super := by
    have hsuper : superScope.get? superName = some .defined := rfl
    refine fun _ => ⟨0, ?_, Scopes.nearest?_cons_of_get? _ rfl⟩
    rw [Scopes.nearest?_cons_of_none _ (by decide), Scopes.nearest?_cons_of_get? Γ hsuper]
    rfl

end Placed

/-! ### Expressions -/

/-- The numbers of two parts of a tree differ. -/
theorem apart_of_nodup {refs refs' : List Reference}
    (h : ((refs ++ refs').map (·.id)).Nodup) :
    (refs.map (·.id)).Nodup ∧ (refs'.map (·.id)).Nodup ∧ Apart refs refs' := by
  rw [List.map_append, List.nodup_append] at h
  exact ⟨h.1, h.2.1, fun a ha b hb => h.2.2 _ (List.mem_map_of_mem ha) _ (List.mem_map_of_mem hb)⟩

theorem Apart.symm {refs refs' : List Reference} (h : Apart refs refs') : Apart refs' refs :=
  fun a ha b hb => (h b hb a ha).symm

section

variable {L : Ledger} {place : Surroundings} {Γ : Scopes}

/-- A variable that is read: no scope that holds it waits for its value. -/
theorem resolveVariable_resolves (place : Surroundings) {ref : Reference}
    (hname : IsPlain ref.name.lexeme) (hΓ : Settled Γ.tail) :
    Resolves L place (resolveVariable ref) Γ Γ [ref] (ref.ReadScoped L Γ) := by
  refine .inspect fun r hr _ => ((Resolves.report? ref.name _ Γ).before (.locate ref Γ)).imp ?_
  rintro ⟨hproblem, hrec⟩
  refine ⟨⟨hname, hrec⟩, fun d hd => ?_⟩
  rw [Resolution.readProblem?, hr] at hproblem
  cases Γ with
  | nil => cases hd
  | cons γ Γ =>
    cases hg : γ.get? ref.name.lexeme with
    | some state =>
      rw [Scopes.nearest?_cons_of_get? Γ hg] at hd
      obtain ⟨-, rfl⟩ := Prod.mk.inj (Option.some.inj hd)
      simp [hg] at hproblem
    | none =>
      rw [Scopes.nearest?_cons_of_none Γ hg] at hd
      obtain ⟨⟨d', state⟩, hd', heq⟩ := Option.map_eq_some_iff.1 hd
      obtain ⟨-, rfl⟩ := Prod.mk.inj heq
      exact hΓ.nearest?_ne _ d' hd'

theorem resolveThis_resolves {ref : Reference} (hname : ref.name.lexeme = thisName)
    (hp : Placed place Γ) :
    Resolves L place (resolveExpr (.this ref)) Γ Γ [ref] (ref.ThisScoped L Γ) := by
  refine .inspect fun r _ hplace => ?_
  rw [hplace]
  split
  · exact ((Resolves.report ref.name .thisOutsideClass Γ).imp False.elim).weaken (by simp)
  · rename_i hcls
    obtain ⟨d, hd⟩ := hp.this hcls
    refine (Resolves.locate ref Γ).imp fun hrec => ⟨hname, d, ?_, hd⟩
    rw [hname, hd] at hrec
    exact hrec

theorem resolveSuper_resolves {ref : Reference} (hname : ref.name.lexeme = superName)
    (hp : Placed place Γ) (method : Token) :
    Resolves L place (resolveExpr (.super ref method)) Γ Γ [ref] (ref.SuperScoped L Γ) := by
  refine .inspect fun r _ hplace => ?_
  rw [hplace]
  refine ((Resolves.report? ref.name _ Γ).before (.locate ref Γ)).imp ?_
  rintro ⟨hproblem, hrec⟩
  have hcls : place.cls = .derived := by
    unfold Surroundings.superProblem? at hproblem
    cases hc : place.cls <;> simp [hc] at hproblem ⊢
  obtain ⟨d, hs, ht⟩ := hp.super hcls
  rw [hname, hs] at hrec
  exact ⟨hname, d, hrec, hs, ht⟩

mutual

/-- **The analysis settles proper expressions.** -/
theorem resolveExpr_resolves (hp : Placed place Γ) : ∀ e : Expr, e.Proper →
    (e.references.map (·.id)).Nodup →
    Resolves L place (resolveExpr e) Γ Γ e.references (e.Scoped L Γ)
  | .literal _, _, _ => .pure Γ
  | .grouping e, he, hids => resolveExpr_resolves hp e he hids
  | .unary _ e, ⟨hop, he⟩, hids => (resolveExpr_resolves hp e he hids).imp fun h => ⟨hop, h⟩
  | .binary l _ r, ⟨hop, hl, hr⟩, hids => by
    obtain ⟨hlids, hrids, hapart⟩ := apart_of_nodup hids
    exact ((resolveExpr_resolves hp l hl hlids).seq (resolveExpr_resolves hp r hr hrids) hapart).imp
      fun h => ⟨hop, h⟩
  | .logical l _ r, ⟨hl, hr⟩, hids => by
    obtain ⟨hlids, hrids, hapart⟩ := apart_of_nodup hids
    exact (resolveExpr_resolves hp l hl hlids).seq (resolveExpr_resolves hp r hr hrids) hapart
  | .variable _, hname, _ => resolveVariable_resolves place hname hp.outer
  | .assign ref e, ⟨hname, he⟩, hids => by
    have hids : (([ref] ++ e.references).map (·.id)).Nodup := hids
    obtain ⟨-, heids, hapart⟩ := apart_of_nodup hids
    -- The value is gone through before the variable.
    have h := (resolveExpr_resolves hp e he heids).seq (.locate ref Γ) hapart.symm
    exact (h.imp fun h => ⟨⟨hname, h.2⟩, h.1⟩).weaken (by simp [Expr.references, or_comm])
  | .call f _ arguments, ⟨hf, has⟩, hids => by
    obtain ⟨hfids, haids, hapart⟩ := apart_of_nodup hids
    exact (resolveExpr_resolves hp f hf hfids).seq
      (resolveArguments_resolves hp arguments has haids) hapart
  | .get object _, ho, hids => resolveExpr_resolves hp object ho hids
  | .set object _ e, ⟨ho, he⟩, hids => by
    obtain ⟨hoids, heids, hapart⟩ := apart_of_nodup hids
    have h := (resolveExpr_resolves hp e he heids).seq (resolveExpr_resolves hp object ho hoids)
      hapart.symm
    exact (h.imp fun h => ⟨h.2, h.1⟩).weaken (by simp [Expr.references, or_comm])
  | .this _, hname, _ => resolveThis_resolves hname hp
  | .super _ method, hname, _ => resolveSuper_resolves hname hp method

theorem resolveArguments_resolves (hp : Placed place Γ) : ∀ es : List Expr, argumentsProper es →
    ((referencesOfArguments es).map (·.id)).Nodup →
    Resolves L place (resolveArguments es) Γ Γ (referencesOfArguments es) (argumentsScoped L Γ es)
  | [], _, _ => .pure Γ
  | e :: es, ⟨he, hes⟩, hids => by
    obtain ⟨heids, hesids, hapart⟩ := apart_of_nodup hids
    have hes' := resolveArguments_resolves hp es hes hesids
    exact (resolveExpr_resolves hp e he heids).seq hes' hapart

end

theorem resolveOptional_resolves (hp : Placed place Γ) (e? : Option Expr) (he : optionalProper e?)
    (hids : ((e?.elim [] Expr.references).map (·.id)).Nodup) :
    Resolves L place (resolveOptional e?) Γ Γ (e?.elim [] Expr.references)
      (optionalScoped L Γ e?) := by
  cases e? with
  | none => exact .pure Γ
  | some e => exact resolveExpr_resolves hp e (he e rfl) hids

end

/-! ### Declared names -/

mutual

/-- The names that a statement inside `k` local scopes declares, with the numbers of local scopes
around their declarations. -/
def Stmt.declarations (k : Nat) : Stmt → List (Nat × String)
  | .var name _ => [(k, name.lexeme)]
  | .block body => declarationsOfBody (k + 1) body
  | .cond _ t none => t.declarations k
  | .cond _ t (some e) => t.declarations k ++ e.declarations k
  | .loop _ body => body.declarations k
  | .function routine => (k, routine.name.lexeme) :: routine.declarations k
  | .classDecl name none methods => (k, name.lexeme) :: declarationsOfMethods (k + 1) methods
  | .classDecl name (some _) methods => (k, name.lexeme) :: declarationsOfMethods (k + 2) methods
  | _ => []

/-- The names that a body declares, its parameters included. -/
def Routine.declarations (k : Nat) : Routine → List (Nat × String)
  | .mk _ params body => params.map (fun p => (k + 1, p.lexeme)) ++ declarationsOfBody (k + 1) body

/-- The names that statements declare. -/
def declarationsOfBody (k : Nat) : List Stmt → List (Nat × String)
  | [] => []
  | s :: ss => s.declarations k ++ declarationsOfBody k ss

/-- The names that methods declare. -/
def declarationsOfMethods (k : Nat) : List Routine → List (Nat × String)
  | [] => []
  | m :: ms => m.declarations k ++ declarationsOfMethods k ms

end

/-- The ledger lets all of the given names be declared. -/
def Ledger.Allows (L : Ledger) (ds : List (Nat × String)) : Prop :=
  ∀ d ∈ ds, L.mayDeclare d.1 d.2

theorem Ledger.Allows.append {L : Ledger} {ds ds' : List (Nat × String)}
    (h : L.Allows (ds ++ ds')) : L.Allows ds ∧ L.Allows ds' :=
  ⟨fun d hd => h d (List.mem_append_left _ hd), fun d hd => h d (List.mem_append_right _ hd)⟩

theorem Ledger.Allows.cons {L : Ledger} {d : Nat × String} {ds : List (Nat × String)}
    (h : L.Allows (d :: ds)) : L.mayDeclare d.1 d.2 ∧ L.Allows ds :=
  ⟨h d (List.mem_cons_self ..), fun d' hd => h d' (List.mem_cons_of_mem _ hd)⟩

/-! ### Statements -/

/-- The scopes behind statements. -/
def Scopes.afterBody (Γ : Scopes) (ss : List Stmt) : Scopes := ss.foldl Scopes.after Γ

/-- The scopes behind parameters. -/
def Scopes.afterParameters (Γ : Scopes) (params : List Token) : Scopes :=
  params.foldl (fun Γ p => Γ.mark p.lexeme .defined) Γ

theorem Scopes.after_cons (γ : Bindings Readiness) (Γ : Scopes) (s : Stmt) :
    ∃ γ', Scopes.after (γ :: Γ) s = γ' :: Γ := by
  unfold Scopes.after
  cases s.declared? with
  | none => exact ⟨γ, rfl⟩
  | some name => exact ⟨_, rfl⟩

/-- Statements leave the outer scopes as they are. -/
theorem Scopes.afterBody_cons (ss : List Stmt) (γ : Bindings Readiness) (Γ : Scopes) :
    ∃ γ', Scopes.afterBody (γ :: Γ) ss = γ' :: Γ := by
  induction ss generalizing γ with
  | nil => exact ⟨γ, rfl⟩
  | cons s ss ih =>
    obtain ⟨γ', hγ'⟩ := Scopes.after_cons γ Γ s
    obtain ⟨γ'', hγ''⟩ := ih γ'
    refine ⟨γ'', ?_⟩
    rw [Scopes.afterBody, List.foldl_cons, hγ']
    exact hγ''

theorem Scopes.length_after (Γ : Scopes) (s : Stmt) : (Γ.after s).length = Γ.length := by
  unfold Scopes.after
  cases s.declared? with
  | none => rfl
  | some name => exact Scopes.length_mark ..

/-- A name that a proper statement declares is a plain one. -/
theorem Stmt.Proper.declared? {s : Stmt} (h : s.Proper) {name : Token}
    (hname : s.declared? = some name) : IsPlain name.lexeme := by
  cases s with
  | var x e =>
    obtain rfl := Option.some.inj hname
    exact h.1
  | function r =>
    obtain rfl := Option.some.inj hname
    cases r
    exact h.1
  | classDecl x sup ms =>
    obtain rfl := Option.some.inj hname
    exact h.1
  | _ => cases hname

theorem Settled.after {Γ : Scopes} (hΓ : Settled Γ) (s : Stmt) : Settled (Γ.after s) := by
  unfold Scopes.after
  cases s.declared? with
  | none => exact hΓ
  | some name => exact hΓ.mark _

theorem Placed.after {place : Surroundings} {Γ : Scopes} (hp : Placed place Γ) {s : Stmt}
    (hs : s.Proper) : Placed place (Γ.after s) := by
  unfold Scopes.after
  cases hd : s.declared? with
  | none => exact hp
  | some name => exact hp.mark (hs.declared? hd) _

section

variable {L : Ledger} {place : Surroundings} {Γ : Scopes}

/-- Parameters have names of their own. -/
theorem resolveParameters_resolves (place : Surroundings) (params : List Token) :
    ∀ {γ : Bindings Readiness}, (∀ p ∈ params, IsPlain p.lexeme) →
      (∀ p ∈ params, L.mayDeclare (Γ.length + 1) p.lexeme) →
      Resolves L place (resolveParameters params) (γ :: Γ) (Scopes.afterParameters (γ :: Γ) params)
        [] ((params.map (·.lexeme)).Nodup ∧ ∀ p ∈ params, γ.get? p.lexeme = none) := by
  induction params with
  | nil =>
    intro γ _ _
    exact (Resolves.pure _).imp fun _ => ⟨List.nodup_nil, nofun⟩
  | cons p ps ih =>
    intro γ hplain hmay
    have hp := hplain p (List.mem_cons_self ..)
    have hps := ih (γ := γ.set p.lexeme .defined) (fun q hq => hplain q (List.mem_cons_of_mem _ hq))
      fun q hq => hmay q (List.mem_cons_of_mem _ hq)
    refine ((Resolves.introduce hp (hmay p (List.mem_cons_self ..))).before hps).imp ?_
    rintro ⟨⟨-, hdeclares⟩, hnodup, hfree⟩
    -- A later parameter is free in the scope that holds this one, so that it is another one.
    have hne : ∀ q ∈ ps, q.lexeme ≠ p.lexeme ∧ γ.get? q.lexeme = none := by
      intro q hq
      have h := hfree q hq
      rw [Bindings.get?_set] at h
      split at h
      · cases h
      · exact ⟨‹_›, h⟩
    refine ⟨List.nodup_cons.2 ⟨?_, hnodup⟩, fun q hq => ?_⟩
    · intro hmem
      obtain ⟨q, hq, heq⟩ := List.mem_map.1 hmem
      exact (hne q hq).1 heq
    · rcases List.mem_cons.1 hq with rfl | hq
      · exact (hdeclares γ Γ rfl).1
      · exact (hne q hq).2

theorem afterParameters_eq (params : List Token) :
    Scopes.afterParameters (Resolve.newScope [] :: Γ) params = parameterScope params :: Γ := by
  have h : ∀ (ps : List Token) (γ : Bindings Readiness), Scopes.afterParameters (γ :: Γ) ps =
      ps.foldl (fun b p => b.set p.lexeme Readiness.defined) γ :: Γ := by
    intro ps
    induction ps with
    | nil => exact fun _ => rfl
    | cons p ps ih => exact fun γ => ih (γ.set p.lexeme .defined)
  rw [h params]
  simp only [parameterScope, Resolve.newScope, Bindings.ofList, List.foldl_map, List.foldl_nil]

theorem Settled.afterParameters (hΓ : Settled Γ) (params : List Token) :
    Settled (Γ.afterParameters params) := by
  induction params generalizing Γ with
  | nil => exact hΓ
  | cons p ps ih => exact ih (hΓ.mark p.lexeme)

theorem Placed.afterParameters (hp : Placed place Γ) {params : List Token}
    (hparams : ∀ p ∈ params, IsPlain p.lexeme) : Placed place (Γ.afterParameters params) := by
  induction params generalizing Γ with
  | nil => exact hp
  | cons p ps ih =>
    exact ih (hp.mark (hparams p (List.mem_cons_self ..)) _)
      fun q hq => hparams q (List.mem_cons_of_mem _ hq)

/-- A reference to another name does not depend on whether a name has its value. -/
theorem Reference.ReadScoped.mark_of_ne {ref : Reference} {x : String} {s : Readiness}
    (hne : x ≠ ref.name.lexeme) (h : ref.ReadScoped L (Γ.mark x s)) (t : Readiness) :
    ref.ReadScoped L (Γ.mark x t) := by
  obtain ⟨⟨hname, hrec⟩, hvalue⟩ := h
  simp only [Scopes.nearest?_mark_of_ne Γ s hne.symm] at hrec hvalue
  refine ⟨⟨hname, ?_⟩, ?_⟩
  · rw [Scopes.nearest?_mark_of_ne Γ t hne.symm]
    exact hrec
  · rw [Scopes.nearest?_mark_of_ne Γ t hne.symm]
    exact hvalue

theorem returns_of_returnProblem? (h : place.returnProblem? = none) :
    (place.body != .top) = true := by
  unfold Surroundings.returnProblem? at h
  split at h
  · cases h
  · simpa using ‹_›

mutual

/-- **The analysis settles proper statements.** -/
theorem resolveStmt_resolves {Γ : Scopes} {place : Surroundings} (hp : Placed place Γ)
    (hΓ : Settled Γ) : ∀ s : Stmt, s.Proper → (s.references.map (·.id)).Nodup →
    L.Allows (s.declarations Γ.length) →
    Resolves L place (resolveStmt s) Γ (Γ.after s) s.references
      (s.Scoped L (place.body != .top) Γ)
  | .expression e, he, hids, _ => resolveExpr_resolves hp e he hids
  | .print e, he, hids, _ => resolveExpr_resolves hp e he hids
  | .var name e?, ⟨hname, he⟩, hids, hmay => by
    have hp' := hp.mark hname .declared
    have h := (Resolves.declare hname (hmay _ (List.mem_cons_self ..))).before
      ((resolveOptional_resolves hp' e? he hids).last (.mark name .defined _))
    -- The name is declared before the initializer is gone through, and defined behind it.
    rw [Scopes.mark_mark] at h
    exact h.imp fun h => ⟨h.1, h.2.1⟩
  | .block body, hb, hids, hmay => by
    have h := resolveBody_resolves (hp.push hΓ) (hΓ.push []) body hb hids hmay
    obtain ⟨γ, hγ⟩ := Scopes.afterBody_cons body (Resolve.newScope []) Γ
    rw [hγ] at h
    exact h.inScope
  | .cond c t none, ⟨hc, hd, ht⟩, hids, hmay => by
    obtain ⟨hcids, htids, hapart⟩ := apart_of_nodup hids
    have h := resolveStmt_resolves hp hΓ t ht htids hmay
    rw [Scopes.after, hd] at h
    exact ((resolveExpr_resolves hp c hc hcids).seq h hapart).imp fun h => ⟨h.1, hd, h.2⟩
  | .cond c t (some e), ⟨hc, ⟨hd, ht⟩, hd', he⟩, hids, hmay => by
    simp only [Stmt.references, List.append_assoc] at hids
    obtain ⟨hcids, hids, hapart⟩ := apart_of_nodup hids
    obtain ⟨htids, heids, hapart'⟩ := apart_of_nodup hids
    obtain ⟨hmay, hmay'⟩ := Ledger.Allows.append hmay
    have h := resolveStmt_resolves hp hΓ t ht htids hmay
    have h' := resolveStmt_resolves hp hΓ e he heids hmay'
    rw [Scopes.after, hd] at h
    rw [Scopes.after, hd'] at h'
    have hall := (resolveExpr_resolves hp c hc hcids).seq (h.seq h' hapart') hapart
    rw [← List.append_assoc] at hall
    exact hall.imp fun h => ⟨h.1, ⟨hd, h.2.1⟩, hd', h.2.2⟩
  | .loop c body, ⟨hc, hd, hb⟩, hids, hmay => by
    obtain ⟨hcids, hbids, hapart⟩ := apart_of_nodup hids
    have h := resolveStmt_resolves hp hΓ body hb hbids hmay
    rw [Scopes.after, hd] at h
    exact ((resolveExpr_resolves hp c hc hcids).seq h hapart).imp fun h => ⟨h.1, hd, h.2⟩
  | .function (.mk name params body), hr, hids, hmay => by
    obtain ⟨hmay, hmay'⟩ := Ledger.Allows.cons hmay
    have hkind : BodyKind.function ≠ .top := nofun
    have h := resolveRoutine_resolves (hp.mark hr.1 .defined) (hΓ.mark name.lexeme) hkind
      (.mk name params body) hr hids (by rw [Scopes.length_mark]; exact hmay')
    exact (Resolves.introduce hr.1 hmay).before h
  | .ret keyword value, hv, hids, _ => by
    have hvalue := resolveOptional_resolves (L := L) hp value hv hids
    refine .inspect fun r _ hplace => ?_
    rw [hplace]
    have h := (Resolves.report? keyword place.returnProblem? Γ).before
      ((Resolves.report? keyword
        (if value.isSome then place.returnValueProblem? else none) Γ).before hvalue)
    exact h.imp fun h => ⟨returns_of_returnProblem? h.1, h.2.2⟩
  | .classDecl name none methods, ⟨hname, _, hms⟩, hids, hmay => by
    obtain ⟨hmay, hmay'⟩ := Ledger.Allows.cons hmay
    have h := resolveMethods_resolves (Placed.base (hΓ.mark name.lexeme) place.body)
      ((hΓ.mark name.lexeme).push [thisName]) methods hms hids
      (by simpa using hmay')
    exact ((Resolves.introduce hname hmay).before h.inScope).inClass
  | .classDecl name (some ref) methods, ⟨hname, hsup, hms⟩, hids, hmay => by
    have hids : (([ref] ++ referencesOfMethods methods).map (·.id)).Nodup := hids
    obtain ⟨-, hmids, hapart⟩ := apart_of_nodup hids
    obtain ⟨hmay, hmay'⟩ := Ledger.Allows.cons hmay
    have h := resolveMethods_resolves (Placed.derived (hΓ.mark name.lexeme) place.body)
      (((hΓ.mark name.lexeme).push [superName]).push [thisName]) methods hms hmids
      (by simpa using hmay')
    have hread := resolveVariable_resolves (L := L) ⟨place.body, .derived⟩ (hsup ref rfl)
      (fun γ hγ => hΓ.mark name.lexeme γ (List.mem_of_mem_tail hγ))
    have hclass := (Resolves.introduce hname hmay).before ((Resolves.report? ref.name
      (if name.lexeme = ref.name.lexeme then some .inheritsFromItself else none) _).before
        (hread.seq h.inScope.inScope hapart))
    refine (hclass.imp ?_).inClass
    rintro ⟨hdeclares, hother, hscoped, hmethods⟩
    -- That a class inherits from itself would have been found.
    have hne : name.lexeme ≠ ref.name.lexeme := by
      intro heq
      simp [heq] at hother
    exact ⟨hdeclares, hscoped.mark_of_ne hne .declared, hmethods⟩

/-- The analysis settles proper bodies. -/
theorem resolveRoutine_resolves {Γ : Scopes} {place : Surroundings} (hp : Placed place Γ)
    (hΓ : Settled Γ) {kind : BodyKind} (hkind : kind ≠ .top) : ∀ r : Routine, r.Proper →
    (r.references.map (·.id)).Nodup → L.Allows (r.declarations Γ.length) →
    Resolves L place (resolveRoutine kind r) Γ Γ r.references (r.Scoped L Γ)
  | .mk _ params body, ⟨_, hparams, hb⟩, hids, hmay => by
    obtain ⟨hmay, hmay'⟩ := Ledger.Allows.append hmay
    have hmay : ∀ p ∈ params, L.mayDeclare (Γ.length + 1) p.lexeme :=
      fun p hmem => hmay _ (List.mem_map_of_mem hmem)
    have hps := resolveParameters_resolves ⟨kind, place.cls⟩ params (γ := Resolve.newScope [])
      hparams hmay
    have hin : Placed { place with body := kind } Γ := { hp with }
    have hp' := (hin.push hΓ).afterParameters hparams
    have hΓ' := (hΓ.push []).afterParameters params
    rw [afterParameters_eq] at hps hp' hΓ'
    have h := resolveBody_resolves hp' hΓ' body hb hids hmay'
    obtain ⟨γ, hγ⟩ := Scopes.afterBody_cons body (parameterScope params) Γ
    have hbody : (kind != .top) = true := by simpa using hkind
    rw [hγ, hbody] at h
    exact ((hps.before h).imp fun h => ⟨hΓ, ⟨h.1.1, hparams, hmay⟩, h.2⟩).inScope.inBody

/-- The analysis settles proper statements, one after the other. -/
theorem resolveBody_resolves {Γ : Scopes} {place : Surroundings} (hp : Placed place Γ)
    (hΓ : Settled Γ) : ∀ ss : List Stmt, bodyProper ss →
    ((referencesOfBody ss).map (·.id)).Nodup → L.Allows (declarationsOfBody Γ.length ss) →
    Resolves L place (resolveBody ss) Γ (Γ.afterBody ss) (referencesOfBody ss)
      (bodyScoped L (place.body != .top) Γ ss)
  | [], _, _, _ => .pure Γ
  | s :: ss, ⟨hs, hss⟩, hids, hmay => by
    obtain ⟨hsids, hssids, hapart⟩ := apart_of_nodup hids
    obtain ⟨hmay, hmay'⟩ := Ledger.Allows.append hmay
    have h := resolveBody_resolves (hp.after hs) (hΓ.after s) ss hss hssids
      (by rw [Scopes.length_after]; exact hmay')
    exact (resolveStmt_resolves hp hΓ s hs hsids hmay).seq h hapart

/-- The analysis settles proper methods. -/
theorem resolveMethods_resolves {Γ : Scopes} {place : Surroundings} (hp : Placed place Γ)
    (hΓ : Settled Γ) : ∀ ms : List Routine, methodsProper ms →
    ((referencesOfMethods ms).map (·.id)).Nodup → L.Allows (declarationsOfMethods Γ.length ms) →
    Resolves L place (resolveMethods ms) Γ Γ (referencesOfMethods ms) (methodsScoped L Γ ms)
  | [], _, _, _ => .pure Γ
  | m :: ms, ⟨hm, hms⟩, hids, hmay => by
    obtain ⟨hmids, hmsids, hapart⟩ := apart_of_nodup hids
    obtain ⟨hmay, hmay'⟩ := Ledger.Allows.append hmay
    have hkind : (if m.isInitializer then BodyKind.initializer else .method) ≠ .top := by
      split <;> nofun
    exact (resolveRoutine_resolves hp hΓ hkind m hm hmids hmay).seq
      (resolveMethods_resolves hp hΓ ms hms hmsids hmay') hapart

end

end

/-! ### Whole trees -/

/-- What the analysis of a whole tree gives: no fault, the distances of other trees as they were,
and the given property, if there are no findings. -/
structure Resolved.Settles (L : Ledger) (refs : List Reference) (D : Distances) (P : Prop)
    (resolved : Resolved) : Prop where
  fault : resolved.fault = none
  frame : ∀ id, (∀ ref ∈ refs, ref.id ≠ id) → resolved.distances[id]? = D[id]?
  result : resolved.findings = [] → L.Covers refs resolved.distances → P

theorem runResolve_settles {L : Ledger} {step : Resolve Unit} {Γ : Scopes} {refs : List Reference}
    {D : Distances} {P : Prop} (h : Resolves L {} step [] Γ refs P)
    (hfresh : ∀ ref ∈ refs, D[ref.id]? = none) : (runResolve step D).Settles L refs D P := by
  obtain ⟨r, hstep, hr⟩ := h (.start D) rfl rfl hfresh
  unfold runResolve
  rw [hstep]
  exact ⟨rfl, hr.frame, fun hf hc => hr.result (List.reverse_eq_nil_iff.1 hf) hc⟩

theorem placed_top : Placed {} [] := ⟨nofun, fun h => absurd rfl h, nofun⟩

/-- **A program without findings is scoped.** -/
theorem resolveProgram_scoped {L : Ledger} {program : List Stmt} {D : Distances}
    (hproper : bodyProper program) (hids : ((referencesOfBody program).map (·.id)).Nodup)
    (hfresh : ∀ ref ∈ referencesOfBody program, D[ref.id]? = none)
    (hmay : L.Allows (declarationsOfBody 0 program)) :
    (resolveProgram program D).Settles L (referencesOfBody program) D
      (bodyScoped L false [] program) :=
  runResolve_settles (resolveBody_resolves placed_top nofun program hproper hids hmay) hfresh

/-- An expression without findings is scoped. -/
theorem resolveExpression_scoped {L : Ledger} {e : Expr} {D : Distances} (hproper : e.Proper)
    (hids : (e.references.map (·.id)).Nodup) (hfresh : ∀ ref ∈ e.references, D[ref.id]? = none) :
    (resolveExpression e D).Settles L e.references D (e.Scoped L []) :=
  runResolve_settles (resolveExpr_resolves placed_top e hproper hids) hfresh

end Lox
