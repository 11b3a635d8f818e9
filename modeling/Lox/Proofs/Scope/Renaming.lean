/-
**A renamed variable among the scopes around it.**

A local declaration is renamed, and with it the references whose distances lead to it.  If the new
name is not used otherwise, the tree is a variant of the one it was: where the declaration is in
sight the old name is paired with the new one, and where a declaration of the same name hides it,
with itself.  Whether it is hidden can be told from the scopes around a place, and these are what
distances are recorded by.  For the same reason no rule is broken: the only names that can clash are
those of one scope.

Main definitions:

* `Lox.Renaming.Pairs` — **what the names stand for** `k` scopes inside the scope of the
  declaration.

Main results:

* `Lox.Stmt.Scoped.renamed` — a tree with new names is a variant;
* `Lox.Stmt.lawfulAt_rename` — and breaks no rule;
* `Lox.Stmt.Renames.variant`, `Lox.Stmt.Renames.lawfulAt` — **one declaration renamed**.
-/

import Lox.Proofs.Scope.Braces
import Lox.Proofs.Tree.Renaming

set_option relaxedAutoImplicit false
set_option autoImplicit false

namespace Lox

/-! ### Pairings -/

namespace Pairing

variable {Δ : Pairing} {a a' : String}

/-- A name that is declared on both sides, or was paired with itself, is paired with itself. -/
theorem bindAll_self (ys : List String) (h : a ∈ ys ∨ Δ a a) : Δ.bindAll ys ys a a := by
  induction ys generalizing Δ with
  | nil => exact h.resolve_left List.not_mem_nil
  | cons y ys ih =>
    refine ih ?_
    by_cases hy : a = y
    · exact .inr (.inl ⟨hy, hy⟩)
    · exact h.imp (fun hmem => (List.mem_cons.1 hmem).resolve_left hy) fun h => .inr ⟨hy, hy, h⟩

/-- Other names stay paired. -/
theorem bindAll_of_not_mem {ys : List String} (ha : a ∉ ys) (ha' : a' ∉ ys) (h : Δ a a') :
    Δ.bindAll ys ys a a' := by
  induction ys generalizing Δ with
  | nil => exact h
  | cons y ys ih =>
    rw [List.mem_cons, not_or] at ha ha'
    exact ih ha.2 ha'.2 (.inr ⟨ha.1, ha'.1, h⟩)

/-- The parameters before one that is renamed are the same on both sides. -/
theorem bindAll_same_append (xs : List String) (x x' : String) (ys : List String) :
    same.bindAll (xs ++ x :: ys) (xs ++ x' :: ys) = (same.bind x x').bindAll ys ys := by
  induction xs with
  | nil => rfl
  | cons y xs ih => rw [List.cons_append, List.cons_append, bindAll, bind_same, ih]

end Pairing

/-! ### What names stand for -/

theorem Stmt.Scoped.declares {L : Ledger} {inBody : Bool} {Γ : Scopes} {s : Stmt} {name : Token}
    (h : s.Scoped L inBody Γ) (hd : s.declared? = some name) : L.Declares Γ name := by
  cases s with
  | var x e? => exact Option.some.inj hd ▸ h.1
  | function r => exact Option.some.inj hd ▸ h.1
  | classDecl x superclass methods =>
    cases superclass <;> exact Option.some.inj hd ▸ h.1
  | _ => cases hd

theorem Stmt.Avoids.declared {z : String} {k : Nat} {s : Stmt} {name : Token} (h : s.Avoids z k)
    (hd : s.declared? = some name) : name.lexeme ≠ z := by
  have hnames := Stmt.Avoids.introduces s h
  cases s with
  | var x e? => exact Option.some.inj hd ▸ hnames _ List.mem_cons_self
  | function r => exact Option.some.inj hd ▸ hnames _ List.mem_cons_self
  | classDecl x superclass methods => exact Option.some.inj hd ▸ hnames _ List.mem_cons_self
  | _ => cases hd

namespace Renaming

/-- A renaming that a ledger gives the distances for. -/
structure Fits (σ : Renaming) (L : Ledger) : Prop where
  distances_eq : L.distances = σ.distances
  old : IsPlain σ.old
  new : IsName σ.new

/-- **What the names stand for** at a place `k` scopes inside the scope of the declaration. -/
structure Pairs (σ : Renaming) (k : Nat) (Γ : Scopes) (Δ : Pairing) : Prop where
  held : ∃ γ, Γ[k]? = some γ ∧ γ.get? σ.old ≠ none
  same : ∀ a, a ≠ σ.old → a ≠ σ.new → Δ a a
  bound : (Γ.nearest? σ.old).map Prod.fst = some k → Δ σ.old σ.new
  hidden : (Γ.nearest? σ.old).map Prod.fst ≠ some k → Δ σ.old σ.old

namespace Pairs

variable {σ : Renaming} {L : Ledger} {k : Nat} {Γ : Scopes} {Δ : Pairing}

/-- A name is declared in the innermost scope. -/
theorem mark (h : σ.Pairs k Γ Δ) {name : Token} (hd : L.Declares Γ name)
    (hname : name.lexeme ≠ σ.new) (state : Readiness) :
    σ.Pairs k (Γ.mark name.lexeme state) (Δ.bind name.lexeme name.lexeme) := by
  obtain ⟨γ, hγ, hold⟩ := h.held
  obtain ⟨scope, outer, rfl⟩ : ∃ scope outer, Γ = scope :: outer := by
    cases Γ with
    | nil => cases hγ
    | cons scope outer => exact ⟨scope, outer, rfl⟩
  have hheld : ∃ γ, (Scopes.mark (scope :: outer) name.lexeme state)[k]? = some γ ∧
      γ.get? σ.old ≠ none := by
    cases k with
    | zero =>
      obtain rfl := Option.some.inj hγ
      refine ⟨_, rfl, ?_⟩
      rw [Bindings.get?_set]
      split
      · exact nofun
      · exact hold
    | succ k => exact ⟨γ, hγ, hold⟩
  have hsame : ∀ a, a ≠ σ.old → a ≠ σ.new → Δ.bind name.lexeme name.lexeme a a :=
    fun a ha ha' => Pairing.bindAll_self [name.lexeme] (.inr (h.same a ha ha'))
  by_cases heq : name.lexeme = σ.old
  · -- The scope of the declaration holds the old name, which cannot be declared there again.
    have hk : k ≠ 0 := by
      rintro rfl
      obtain rfl := Option.some.inj hγ
      exact hold (heq ▸ (hd.2 scope outer rfl).1)
    have hget : (scope.set name.lexeme state).get? σ.old = some state := by
      rw [← heq, Bindings.get?_set_self]
    refine ⟨hheld, hsame, fun hnearest => ?_, fun _ => .inl ⟨heq.symm, heq.symm⟩⟩
    rw [Scopes.mark_cons, Scopes.nearest?_cons_of_get? outer hget] at hnearest
    exact absurd (Option.some.inj hnearest).symm hk
  · have hnearest := Scopes.nearest?_mark_of_ne (scope :: outer) state (Ne.symm heq)
    refine ⟨hheld, hsame, ?_, ?_⟩
    · rw [hnearest]
      exact fun hk => .inr ⟨Ne.symm heq, hname.symm, h.bound hk⟩
    · rw [hnearest]
      exact fun hk => .inr ⟨Ne.symm heq, Ne.symm heq, h.hidden hk⟩

/-- A scope is opened. -/
theorem push (h : σ.Pairs k Γ Δ) (names : List String) (hnames : ∀ x ∈ names, x ≠ σ.new) :
    σ.Pairs (k + 1) (Resolve.newScope names :: Γ) (Δ.bindAll names names) := by
  have hnew : σ.new ∉ names := fun hmem => hnames _ hmem rfl
  have hget := Resolve.get?_newScope names σ.old
  refine ⟨h.held, fun a ha ha' => Pairing.bindAll_self names (.inr (h.same a ha ha')), ?_, ?_⟩
  · by_cases hmem : σ.old ∈ names
    · rw [if_pos hmem] at hget
      rw [Scopes.nearest?_cons_of_get? Γ hget]
      exact nofun
    · rw [if_neg hmem] at hget
      rw [Scopes.nearest?_cons_of_none Γ hget]
      intro hk
      refine Pairing.bindAll_of_not_mem hmem hnew (h.bound ?_)
      cases hn : Γ.nearest? σ.old <;> simp_all
  · by_cases hmem : σ.old ∈ names
    · exact fun _ => Pairing.bindAll_self names (.inl hmem)
    · rw [if_neg hmem] at hget
      rw [Scopes.nearest?_cons_of_none Γ hget]
      intro hk
      refine Pairing.bindAll_self names (.inr (h.hidden ?_))
      cases hn : Γ.nearest? σ.old <;> simp_all

/-- Behind a statement. -/
theorem after (h : σ.Pairs k Γ Δ) {inBody : Bool} {d : Nat} {s s' : Stmt}
    (hs : s.Scoped L inBody Γ) (havoids : s.Avoids σ.new d) (hd : s'.declared? = s.declared?) :
    σ.Pairs k (Γ.after s) (Δ.after true s s') := by
  unfold Scopes.after Pairing.after
  rw [hd]
  cases hname : s.declared? with
  | none => exact h
  | some name => exact h.mark (hs.declares hname) (havoids.declared hname) .defined

/-- A reference, renamed or not, is paired with what it was. -/
theorem reference (h : σ.Pairs k Γ Δ) (hfits : σ.Fits L) {ref : Reference}
    (href : ref.WriteScoped L Γ) (hne : ref.name.lexeme ≠ σ.new) :
    ref.Variant Δ (ref.rename σ k) := by
  have hrecorded := href.2.2
  rw [hfits.distances_eq] at hrecorded
  unfold Reference.rename
  split
  · next hbound =>
    obtain ⟨hdistance, hold⟩ := hbound
    refine ⟨?_, .anew _ hfits.new⟩
    rw [hold] at hrecorded ⊢
    exact h.bound (hrecorded.symm.trans hdistance)
  · next hfree =>
    refine ⟨?_, .same _⟩
    by_cases hold : ref.name.lexeme = σ.old
    · rw [hold] at hrecorded ⊢
      exact h.hidden fun hk => hfree ⟨hrecorded.trans hk, hold⟩
    · exact h.same _ hold hne

/-- What methods bind by themselves stands for itself. -/
theorem special (h : σ.Pairs k Γ Δ) (hfits : σ.Fits L) {x : String} (hx : ¬ IsPlain x) : Δ x x :=
  h.same x (fun heq => hx (heq ▸ hfits.old)) fun heq => hx (heq ▸ hfits.new.plain)

end Pairs

end Renaming

theorem not_isPlain_thisName : ¬ IsPlain thisName := by decide

theorem not_isPlain_superName : ¬ IsPlain superName := by decide

/-! ### Trees with new names are variants -/

section

variable {σ : Renaming} {L : Ledger}

mutual

theorem Expr.Scoped.renamed {k : Nat} {Γ : Scopes} {Δ : Pairing} (hfits : σ.Fits L)
    (h : σ.Pairs k Γ Δ) : ∀ e : Expr, e.Scoped L Γ →
    (∀ ref ∈ e.references, ref.name.lexeme ≠ σ.new) → e.Variant Δ (e.rename σ k)
  | .literal value, _, _ => .literal value
  | .grouping e, he, hz => .grouping (Expr.Scoped.renamed hfits h e he hz)
  | .unary operator e, ⟨_, he⟩, hz => .unary operator (Expr.Scoped.renamed hfits h e he hz)
  | .binary l operator r, ⟨_, hl, hr⟩, hz => by
    simp only [Expr.references, List.forall_mem_append] at hz
    exact .binary (Expr.Scoped.renamed hfits h l hl hz.1) operator
      (Expr.Scoped.renamed hfits h r hr hz.2)
  | .logical l operator r, ⟨hl, hr⟩, hz => by
    simp only [Expr.references, List.forall_mem_append] at hz
    exact .logical (Expr.Scoped.renamed hfits h l hl hz.1) operator
      (Expr.Scoped.renamed hfits h r hr hz.2)
  | .variable ref, hr, hz => .variable (h.reference hfits hr.1 (hz ref List.mem_cons_self))
  | .assign ref e, ⟨hr, he⟩, hz => by
    simp only [Expr.references, List.forall_mem_cons] at hz
    exact .assign (h.reference hfits hr hz.1) (Expr.Scoped.renamed hfits h e he hz.2)
  | .call f paren es, ⟨hf, hes⟩, hz => by
    simp only [Expr.references, List.forall_mem_append] at hz
    exact .call (Expr.Scoped.renamed hfits h f hf hz.1) paren
      (argumentsScoped.renamed hfits h es hes hz.2)
  | .get object name, ho, hz => .get (Expr.Scoped.renamed hfits h object ho hz) name
  | .set object name e, ⟨ho, he⟩, hz => by
    simp only [Expr.references, List.forall_mem_append] at hz
    exact .set (Expr.Scoped.renamed hfits h object ho hz.1) name
      (Expr.Scoped.renamed hfits h e he hz.2)
  | .this ref, _, _ => .this ref (h.special hfits not_isPlain_thisName)
  | .super ref method, _, _ => .super ref method (h.special hfits not_isPlain_superName)
    (h.special hfits not_isPlain_thisName)

theorem argumentsScoped.renamed {k : Nat} {Γ : Scopes} {Δ : Pairing} (hfits : σ.Fits L)
    (h : σ.Pairs k Γ Δ) : ∀ es : List Expr, argumentsScoped L Γ es →
    (∀ ref ∈ referencesOfArguments es, ref.name.lexeme ≠ σ.new) →
    List.Forall₂ (Expr.Variant Δ) es (renameArguments σ k es)
  | [], _, _ => .nil
  | e :: es, ⟨he, hes⟩, hz => by
    simp only [referencesOfArguments, List.forall_mem_append] at hz
    exact .cons (Expr.Scoped.renamed hfits h e he hz.1)
      (argumentsScoped.renamed hfits h es hes hz.2)

end

theorem optionalScoped.renamed {k : Nat} {Γ : Scopes} {Δ : Pairing} (hfits : σ.Fits L)
    (h : σ.Pairs k Γ Δ) (e? : Option Expr) (he : optionalScoped L Γ e?)
    (hz : ∀ ref ∈ e?.elim [] Expr.references, ref.name.lexeme ≠ σ.new) :
    OptionalVariant Δ e? (e?.map (Expr.rename σ k)) := by
  cases e? with
  | none => exact .none
  | some e => exact .some (Expr.Scoped.renamed hfits h e he hz)

mutual

/-- **A statement with new names is a variant** of the one that it was. -/
theorem Stmt.Scoped.renamed {inBody : Bool} {k d : Nat} {Γ : Scopes} {Δ : Pairing}
    (hfits : σ.Fits L) (h : σ.Pairs k Γ Δ) : ∀ s : Stmt, s.Scoped L inBody Γ →
    s.Avoids σ.new d → Stmt.Congruent False true Δ s (s.rename σ k)
  | .expression e, he, hz => .expression (Expr.Scoped.renamed hfits h e he hz.1)
  | .print e, he, hz => .print (Expr.Scoped.renamed hfits h e he hz.1)
  | .var name e?, ⟨hd, he⟩, hz =>
    .var (.same name) nofun
      (optionalScoped.renamed hfits (h.mark hd (hz.declared rfl) .declared) e? he hz.1)
  | .block body, hb, hz =>
    .block (bodyScoped.renamed hfits (h.push [] nofun) body hb hz)
  | .cond c t none, ⟨hc, hdt, ht⟩, hz => by
    obtain ⟨hzc, hzt⟩ := Stmt.avoids_cond.1 hz
    exact .cond (Expr.Scoped.renamed hfits h c hc hzc)
      (.congruent (Stmt.Scoped.renamed hfits h t ht hzt)) hdt
  | .cond c t (some e), ⟨hc, ⟨hdt, ht⟩, hde, he⟩, hz => by
    obtain ⟨hzc, hzt, hze⟩ := Stmt.avoids_condElse.1 hz
    exact .condElse (Expr.Scoped.renamed hfits h c hc hzc)
      (.congruent (Stmt.Scoped.renamed hfits h t ht hzt)) hdt
      (.congruent (Stmt.Scoped.renamed hfits h e he hze)) hde
  | .loop c body, ⟨hc, hdb, hb⟩, hz => by
    obtain ⟨hzc, hzb⟩ := Stmt.avoids_loop.1 hz
    exact .loop (Expr.Scoped.renamed hfits h c hc hzc)
      (.congruent (Stmt.Scoped.renamed hfits h body hb hzb)) hdb
  | .function r, ⟨hd, hr⟩, hz => by
    obtain ⟨hname, hzr⟩ := Stmt.avoids_function.1 hz
    exact .function (Routine.Scoped.renamed hfits (h.mark hd hname .defined) r hr hzr)
  | .ret keyword e?, ⟨_, he⟩, hz => .ret keyword (optionalScoped.renamed hfits h e? he hz.1)
  | .classDecl name none methods, ⟨hd, hms⟩, hz => by
    obtain ⟨d', hclass⟩ := Stmt.avoids_classDecl name none methods
    obtain ⟨hname, -, hzms⟩ := hclass.1 hz
    have hobject := (h.mark hd hname .defined).push [thisName]
      (List.forall_mem_singleton.2 hfits.new.plain.1.symm)
    exact .base name (methodsScoped.renamed hfits hobject methods hms hzms)
  | .classDecl name (some ref) methods, ⟨hd, href, hms⟩, hz => by
    obtain ⟨d', hclass⟩ := Stmt.avoids_classDecl name (some ref) methods
    obtain ⟨hname, hzref, hzms⟩ := hclass.1 hz
    have hsuper := (h.mark hd hname .defined).push [superName]
      (List.forall_mem_singleton.2 hfits.new.plain.2.symm)
    have hobject := hsuper.push [thisName] (List.forall_mem_singleton.2 hfits.new.plain.1.symm)
    exact .derived name ((h.mark hd hname .declared).reference hfits href.1 (hzref ref rfl))
      (methodsScoped.renamed hfits hobject methods hms hzms)

theorem Routine.Scoped.renamed {k d : Nat} {Γ : Scopes} {Δ : Pairing} (hfits : σ.Fits L)
    (h : σ.Pairs k Γ Δ) : ∀ r : Routine, r.Scoped L Γ → r.Avoids σ.new d →
    Routine.Variant False Δ r (r.rename σ k)
  | .mk name params body, ⟨_, _, hb⟩, hz => by
    obtain ⟨hparams, hzb⟩ := Routine.avoids_mk.1 hz
    have hinside := h.push (params.map (·.lexeme)) (List.forall_mem_map.2 hparams)
    exact .mk name (respells_refl params) (bodyScoped.renamed hfits hinside body hb hzb)

theorem bodyScoped.renamed {inBody : Bool} {k d : Nat} {Γ : Scopes} {Δ : Pairing}
    (hfits : σ.Fits L) (h : σ.Pairs k Γ Δ) : ∀ ss : List Stmt, bodyScoped L inBody Γ ss →
    BodyAvoids σ.new d ss → BodyVariant False true Δ ss (renameBody σ k ss)
  | [], _, _ => .nil
  | s :: ss, ⟨hs, hss⟩, hz => by
    obtain ⟨hzs, hzss⟩ := bodyAvoids_cons.1 hz
    have hafter : σ.Pairs k (Γ.after s) (Δ.after true s (s.rename σ k)) :=
      h.after hs hzs (s.declared?_rename k)
    exact .cons (.congruent (Stmt.Scoped.renamed hfits h s hs hzs))
      (bodyScoped.renamed hfits hafter ss hss hzss)

theorem methodsScoped.renamed {k d : Nat} {Γ : Scopes} {Δ : Pairing} (hfits : σ.Fits L)
    (h : σ.Pairs k Γ Δ) : ∀ ms : List Routine, methodsScoped L Γ ms → MethodsAvoid σ.new d ms →
    MethodsVariant False Δ ms (renameMethods σ k ms)
  | [], _, _ => .nil
  | m :: ms, ⟨hm, hms⟩, hz => by
    obtain ⟨hzm, hzms⟩ := methodsAvoid_cons.1 hz
    exact .cons (Routine.Scoped.renamed hfits h m hm hzm)
      (methodsScoped.renamed hfits h ms hms hzms)

end

/-! ### Trees with new names break no rule -/

/-- The variable whose initializer a place stands in: the one that is renamed, or any that does not
have the new name. -/
inductive Renaming.Initializes (σ : Renaming) : Option String → Option String → Prop
  | own : Initializes σ (some σ.old) (some σ.new)
  | other {i : Option String} (h : i ≠ some σ.new) : Initializes σ i i

theorem Renaming.Initializes.outside : σ.Initializes none none := .other nofun

/-- A variable is read in its own initializer only if it was before. -/
theorem Renaming.Initializes.reads {i i' : Option String} (hi : σ.Initializes i i') {k : Nat}
    {ref : Reference} (hz : ref.name.lexeme ≠ σ.new)
    (h : i' = some (ref.rename σ k).name.lexeme) : i = some ref.name.lexeme := by
  unfold Reference.rename at h
  split at h
  · next hbound =>
    cases hi with
    | own => rw [hbound.2]
    | other hne => exact absurd h hne
  · cases hi with
    | own => exact absurd (Option.some.inj h).symm hz
    | other => exact h

section

variable {path path' : Path} {i i' : Option String}

mutual

theorem Expr.lawfulAt_rename (hlike : Path.Like (· ≠ σ.new) path path') (hpath : path ≠ [])
    (hi : σ.Initializes i i') (k : Nat) : ∀ e : Expr,
    (∀ ref ∈ e.references, ref.name.lexeme ≠ σ.new) →
    (∀ site ∈ e.sites path i, site.violation? = none) →
    ∀ site ∈ (e.rename σ k).sites path' i', site.violation? = none
  | .literal _, _, h | .hole _, _, h => h
  | .grouping e, hz, h | .unary _ e, hz, h | .get e _, hz, h =>
    Expr.lawfulAt_rename hlike hpath hi k e hz h
  | .binary l _ r, hz, h | .logical l _ r, hz, h => by
    simp only [Expr.rename, Expr.references, Expr.sites, List.forall_mem_append] at hz h ⊢
    exact ⟨Expr.lawfulAt_rename hlike hpath hi k l hz.1 h.1,
      Expr.lawfulAt_rename hlike hpath hi k r hz.2 h.2⟩
  | .variable ref, hz, h => by
    simp only [Expr.rename, Expr.sites, List.forall_mem_singleton, Site.violation?,
      ite_eq_right_iff, reduceCtorEq, imp_false] at h ⊢
    exact fun hread => h ⟨hpath, hi.reads (hz ref List.mem_cons_self) hread.2⟩
  | .assign ref e, hz, h => by
    rw [Expr.references, List.forall_mem_cons] at hz
    simp only [Expr.rename, Expr.sites, List.forall_mem_append, List.forall_mem_singleton] at h ⊢
    exact ⟨Expr.lawfulAt_rename hlike hpath hi k e hz.2 h.1, rfl⟩
  | .call f _ es, hz, h => by
    simp only [Expr.rename, Expr.references, Expr.sites, List.forall_mem_append] at hz h ⊢
    exact ⟨Expr.lawfulAt_rename hlike hpath hi k f hz.1 h.1,
      argumentSites_rename hlike hpath hi k es hz.2 h.2⟩
  | .set o _ e, hz, h => by
    simp only [Expr.rename, Expr.references, Expr.sites, List.forall_mem_append] at hz h ⊢
    exact ⟨Expr.lawfulAt_rename hlike hpath hi k e hz.2 h.1,
      Expr.lawfulAt_rename hlike hpath hi k o hz.1 h.2⟩
  | .this ref, _, h => by
    simpa only [Expr.rename, Expr.sites, List.forall_mem_singleton, Site.violation?,
      hlike.class?_eq] using h
  | .super ref _, _, h => by
    simpa only [Expr.rename, Expr.sites, List.forall_mem_singleton, Site.violation?,
      hlike.class?_eq] using h

theorem argumentSites_rename (hlike : Path.Like (· ≠ σ.new) path path') (hpath : path ≠ [])
    (hi : σ.Initializes i i') (k : Nat) : ∀ es : List Expr,
    (∀ ref ∈ referencesOfArguments es, ref.name.lexeme ≠ σ.new) →
    (∀ site ∈ argumentSites path i es, site.violation? = none) →
    ∀ site ∈ argumentSites path' i' (renameArguments σ k es), site.violation? = none
  | [], _, h => h
  | e :: es, hz, h => by
    simp only [renameArguments, referencesOfArguments, argumentSites,
      List.forall_mem_append] at hz h ⊢
    exact ⟨Expr.lawfulAt_rename hlike hpath hi k e hz.1 h.1,
      argumentSites_rename hlike hpath hi k es hz.2 h.2⟩

end

theorem optionalSites_rename (hlike : Path.Like (· ≠ σ.new) path path') (hpath : path ≠ [])
    (hi : σ.Initializes i i') (k : Nat) (e? : Option Expr)
    (hz : ∀ ref ∈ e?.elim [] Expr.references, ref.name.lexeme ≠ σ.new)
    (h : ∀ site ∈ optionalSites path i e?, site.violation? = none) :
    ∀ site ∈ optionalSites path' i' (e?.map (Expr.rename σ k)), site.violation? = none := by
  cases e? with
  | none => exact h
  | some e => exact Expr.lawfulAt_rename hlike hpath hi k e hz h

end

theorem Path.declareAll_ne_nil {path : Path} (h : path ≠ []) (xs : List String) :
    path.declareAll xs ≠ [] := by
  cases path with
  | nil => exact absurd rfl h
  | cons frame outer =>
    obtain ⟨names, heq⟩ := Path.declareAll_cons_eq frame outer xs
    rw [heq]
    exact List.cons_ne_nil _ _

mutual

/-- **A statement with new names breaks no rule** if it broke none before. -/
theorem Stmt.lawfulAt_rename {path path' : Path} {k d : Nat}
    (hlike : Path.Like (· ≠ σ.new) path path') (hpath : path ≠ []) : ∀ s : Stmt,
    s.Avoids σ.new d → s.LawfulAt path → (s.rename σ k).LawfulAt path'
  | .expression e, hz, h | .print e, hz, h =>
    Expr.lawfulAt_rename hlike hpath .outside k e hz.1 h
  | .var name e?, hz, h => by
    have hname : name.lexeme ≠ σ.new := hz.declared rfl
    simp only [Stmt.LawfulAt, Stmt.rename, Stmt.sites, List.forall_mem_cons] at h ⊢
    refine ⟨hlike.declaration hname h.1, ?_⟩
    exact optionalSites_rename (hlike.declare name.lexeme)
      (Path.declareAll_ne_nil hpath [name.lexeme]) (.other fun heq => hname (Option.some.inj heq))
      k e? hz.1 h.2
  | .block body, hz, h =>
    bodyLawfulAt_rename (hlike.push ⟨.block, []⟩) (List.cons_ne_nil _ _) body hz h
  | .cond c t none, hz, h => by
    obtain ⟨hzc, hzt⟩ := Stmt.avoids_cond.1 hz
    simp only [Stmt.LawfulAt, Stmt.rename, Stmt.sites, List.forall_mem_append] at h ⊢
    exact ⟨Expr.lawfulAt_rename hlike hpath .outside k c hzc h.1,
      Stmt.lawfulAt_rename hlike hpath t hzt h.2⟩
  | .cond c t (some e), hz, h => by
    obtain ⟨hzc, hzt, hze⟩ := Stmt.avoids_condElse.1 hz
    simp only [Stmt.LawfulAt, Stmt.rename, Stmt.sites, List.forall_mem_append,
      Stmt.introduces_rename] at h ⊢
    exact ⟨Expr.lawfulAt_rename hlike hpath .outside k c hzc h.1,
      Stmt.lawfulAt_rename hlike hpath t hzt h.2.1,
      Stmt.lawfulAt_rename (hlike.declareAll _) (Path.declareAll_ne_nil hpath _) e hze h.2.2⟩
  | .loop c body, hz, h => by
    obtain ⟨hzc, hzb⟩ := Stmt.avoids_loop.1 hz
    simp only [Stmt.LawfulAt, Stmt.rename, Stmt.sites, List.forall_mem_append] at h ⊢
    exact ⟨Expr.lawfulAt_rename hlike hpath .outside k c hzc h.1,
      Stmt.lawfulAt_rename hlike hpath body hzb h.2⟩
  | .function r, hz, h => by
    obtain ⟨hname, hzr⟩ := Stmt.avoids_function.1 hz
    rw [Stmt.rename]
    rw [Stmt.lawfulAt_function] at h ⊢
    rw [Routine.name_rename]
    exact ⟨hlike.declaration hname h.1,
      Routine.lawfulAt_rename (hlike.declare r.name.lexeme) r hzr h.2⟩
  | .ret keyword e?, hz, h => by
    simp only [Stmt.LawfulAt, Stmt.rename, Stmt.sites, List.forall_mem_cons,
      Option.isSome_map] at h ⊢
    refine ⟨?_, optionalSites_rename hlike hpath .outside k e? hz.1 h.2⟩
    simpa only [Site.violation?, hlike.routine?_eq] using h.1
  | .classDecl name none methods, hz, h => by
    obtain ⟨d', hclass⟩ := Stmt.avoids_classDecl name none methods
    obtain ⟨hname, -, hzms⟩ := hclass.1 hz
    simp only [Stmt.LawfulAt, Stmt.rename, Stmt.sites, List.forall_mem_cons] at h ⊢
    exact ⟨hlike.declaration hname h.1,
      methodsLawfulAt_rename ((hlike.declare name.lexeme).push _) methods hzms h.2⟩
  | .classDecl name (some ref) methods, hz, h => by
    obtain ⟨d', hclass⟩ := Stmt.avoids_classDecl name (some ref) methods
    obtain ⟨hname, hzref, hzms⟩ := hclass.1 hz
    simp only [Stmt.LawfulAt, Stmt.rename, Stmt.sites, List.cons_append, List.nil_append,
      List.forall_mem_cons] at h ⊢
    refine ⟨hlike.declaration hname h.1, ?_, by simp [Site.violation?], ?_⟩
    · have hself := h.2.1
      simp only [Site.violation?, ite_eq_right_iff, reduceCtorEq, imp_false] at hself ⊢
      unfold Reference.rename
      split
      · exact hname
      · exact hself
    · have hsuper : Path.Like (· ≠ σ.new) _ _ :=
        (hlike.declare name.lexeme).push ⟨.superclass, [superName]⟩
      exact methodsLawfulAt_rename (hsuper.push _) methods hzms h.2.2.2

theorem Routine.lawfulAt_rename {opener : Enclosure} {path path' : Path} {k d : Nat}
    (hlike : Path.Like (· ≠ σ.new) path path') : ∀ r : Routine, r.Avoids σ.new d →
    r.LawfulAt opener path → (r.rename σ k).LawfulAt opener path'
  | .mk name params body, hz, h => by
    obtain ⟨hparams, hzb⟩ := Routine.avoids_mk.1 hz
    rw [Routine.rename]
    rw [Routine.lawfulAt_mk] at h ⊢
    have hinside : Path.Like (· ≠ σ.new) _ _ := hlike.push ⟨opener, []⟩
    exact ⟨parameterSites_of_like hinside params hparams h.1,
      bodyLawfulAt_rename (hinside.declareAll _) (Path.declareAll_ne_nil (List.cons_ne_nil _ _) _)
        body hzb h.2⟩

theorem bodyLawfulAt_rename {path path' : Path} {k d : Nat}
    (hlike : Path.Like (· ≠ σ.new) path path') (hpath : path ≠ []) : ∀ ss : List Stmt,
    BodyAvoids σ.new d ss → BodyLawfulAt path ss → BodyLawfulAt path' (renameBody σ k ss)
  | [], _, h => h
  | s :: ss, hz, h => by
    obtain ⟨hzs, hzss⟩ := bodyAvoids_cons.1 hz
    rw [renameBody]
    rw [bodyLawfulAt_cons] at h ⊢
    rw [Stmt.introduces_rename]
    exact ⟨Stmt.lawfulAt_rename hlike hpath s hzs h.1,
      bodyLawfulAt_rename (hlike.declareAll _) (Path.declareAll_ne_nil hpath _) ss hzss h.2⟩

theorem methodsLawfulAt_rename {path path' : Path} {k d : Nat}
    (hlike : Path.Like (· ≠ σ.new) path path') : ∀ ms : List Routine, MethodsAvoid σ.new d ms →
    MethodsLawfulAt path ms → MethodsLawfulAt path' (renameMethods σ k ms)
  | [], _, h => h
  | m :: ms, hz, h => by
    obtain ⟨hzm, hzms⟩ := methodsAvoid_cons.1 hz
    rw [renameMethods]
    rw [methodsLawfulAt_cons] at h ⊢
    rw [Routine.isInitializer, Routine.name_rename]
    exact ⟨Routine.lawfulAt_rename hlike m hzm h.1, methodsLawfulAt_rename hlike ms hzms h.2⟩

end

/-! ### One declaration renamed -/

/-- The scope that the declaration itself is in. -/
theorem Renaming.Pairs.start {γ : Bindings Readiness} {Γ : Scopes} {Δ : Pairing}
    {state : Readiness} (hget : γ.get? σ.old = some state)
    (hsame : ∀ a, a ≠ σ.old → a ≠ σ.new → Δ a a) (hbound : Δ σ.old σ.new) :
    σ.Pairs 0 (γ :: Γ) Δ where
  held := ⟨γ, rfl, by rw [hget]; exact nofun⟩
  same := hsame
  bound := fun _ => hbound
  hidden := by
    rw [Scopes.nearest?_cons_of_get? Γ hget]
    exact fun hne => absurd rfl hne

theorem Pairing.bind_same_of_ne {y y' a : String} (ha : a ≠ y) (ha' : a ≠ y') :
    same.bind y y' a a :=
  .inr ⟨ha, ha', rfl⟩

/-- The renamed variable of a body. -/
theorem BodyRenames.variant {inBody : Bool} {d : Nat} {γ : Bindings Readiness} {Γ : Scopes}
    {body body' : List Stmt} (h : BodyRenames σ body body') (hD : L.distances = σ.distances)
    (hnew : IsName σ.new) (hbody : bodyScoped L inBody (γ :: Γ) body)
    (hz : BodyAvoids σ.new d body) : BodyVariant False true .same body body' := by
  obtain ⟨before, hname, e?, after⟩ := h
  induction before generalizing γ with
  | nil =>
    obtain ⟨⟨hd, he⟩, hafter⟩ := hbody
    obtain ⟨hze, hzafter⟩ := bodyAvoids_cons.1 hz
    have hfits : σ.Fits L := ⟨hD, hname ▸ hd.1, hnew⟩
    have hstart : ∀ state, σ.Pairs 0 (Scopes.mark (γ :: Γ) σ.old state)
        (Pairing.same.bind σ.old σ.new) := fun state =>
      .start (Bindings.get?_set_self _ _ _) (fun _ => Pairing.bind_same_of_ne) (.inl ⟨rfl, rfl⟩)
    simp only [Scopes.after, Stmt.declared?, hname] at he hafter
    refine .cons (.congruent (.var (.anew _ hnew) nofun ?_)) ?_
    · simp only [hname]
      exact optionalScoped.renamed hfits (hstart .declared) e? he hze.1
    · simp only [Pairing.after, Stmt.declared?, hname]
      exact bodyScoped.renamed hfits (hstart .defined) after hafter hzafter
  | cons t before ih =>
    obtain ⟨ht, hrest⟩ := hbody
    obtain ⟨γ', hγ'⟩ := Scopes.after_cons γ Γ t
    rw [hγ'] at hrest
    refine .cons (.congruent (Stmt.Scoped.congruent t ht)) ?_
    rw [Pairing.after_same]
    exact ih hrest (bodyAvoids_cons.1 hz).2

/-- The renamed parameter or variable of a declared body. -/
theorem RoutineRenames.variant {d : Nat} {Γ : Scopes} {r r' : Routine} (h : RoutineRenames σ r r')
    (hD : L.distances = σ.distances) (hnew : IsName σ.new) (hr : r.Scoped L Γ)
    (hz : r.Avoids σ.new d) : Routine.Variant False .same r r' := by
  cases h with
  | @parameter name ps p hp qs body =>
    obtain ⟨-, hparams, hbody⟩ := hr
    obtain ⟨hzparams, hzbody⟩ := Routine.avoids_mk.1 hz
    have hnodup := hparams.nodup
    simp only [List.forall_mem_append, List.forall_mem_cons] at hzparams
    simp only [List.map_append, List.map_cons, hp] at hnodup
    have hfits : σ.Fits L := ⟨hD, hp ▸ hparams.plain p (by simp), hnew⟩
    have hold : σ.old ∉ qs.map (·.lexeme) :=
      (List.nodup_cons.1 (List.nodup_append.1 hnodup).2.1).1
    have hnew : σ.new ∉ qs.map (·.lexeme) := by
      intro hmem
      obtain ⟨q, hq, heq⟩ := List.mem_map.1 hmem
      exact hzparams.2.2 q hq heq
    have hget : (parameterScope (ps ++ p :: qs)).get? σ.old = some .defined := by
      rw [parameterScope, Resolve.get?_newScope, if_pos]
      simp [hp]
    refine .mk name (List.rel_append (respells_refl ps) (.cons (.anew p hfits.new)
      (respells_refl qs))) ?_
    simp only [List.map_append, List.map_cons, Token.lexeme_respell, hp,
      Pairing.bindAll_same_append]
    refine bodyScoped.renamed hfits (.start hget (fun a ha ha' => ?_) ?_) body hbody hzbody
    · exact Pairing.bindAll_self _ (.inr (Pairing.bind_same_of_ne ha ha'))
    · exact Pairing.bindAll_of_not_mem hold hnew (.inl ⟨rfl, rfl⟩)
  | body name params h =>
    obtain ⟨-, -, hbody⟩ := hr
    refine .mk name (respells_refl params) ?_
    rw [Pairing.bindAll_same]
    exact h.variant hD hnew hbody (Routine.avoids_mk.1 hz).2

/-- **One declaration renamed** makes a variant. -/
theorem Stmt.Renames.variant {inBody isLocal : Bool} {d : Nat} {Γ : Scopes} {s s' : Stmt}
    (h : Stmt.Renames σ s s') (hD : L.distances = σ.distances) (hnew : IsName σ.new)
    (hs : s.Scoped L inBody Γ) (hz : s.Avoids σ.new d) :
    Stmt.Variant False isLocal .same s s' := by
  cases h with
  | block h => exact .congruent (.block (h.variant hD hnew hs hz))
  | function h =>
    refine .congruent (.function ?_)
    rw [Pairing.declare_same]
    exact h.variant hD hnew hs.2 (Stmt.avoids_function.1 hz).2
  | @method name superclass earlier r r' h later =>
    obtain ⟨d', hclass⟩ := Stmt.avoids_classDecl name superclass (earlier ++ r :: later)
    have hzr := (methodsAvoid_cons.1 (methodsAvoid_append.1 (hclass.1 hz).2.2).2).1
    cases superclass with
    | none =>
      refine .congruent (.base name ?_)
      rw [Pairing.declare_same, Pairing.bind_same]
      exact methodsVariant_swap (fun hr => h.variant hD hnew hr hzr) earlier later hs.2
    | some ref =>
      refine .congruent (.derived name ?_ ?_)
      · rw [Pairing.declare_same]
        exact .refl ref
      · rw [Pairing.declare_same, Pairing.bind_same, Pairing.bind_same]
        exact methodsVariant_swap (fun hr => h.variant hD hnew hr hzr) earlier later hs.2.2

theorem Path.not_mem_innermost_declareAll {path : Path} {x : String} {xs : List String}
    (h : x ∉ path.innermost) (hxs : x ∉ xs) : x ∉ (path.declareAll xs).innermost := by
  induction xs generalizing path with
  | nil => exact h
  | cons y ys ih =>
    rw [List.mem_cons, not_or] at hxs
    refine ih ?_ hxs.2
    cases path with
    | nil => exact h
    | cons frame outer => exact fun hmem => (List.mem_cons.1 hmem).elim hxs.1 h

/-- The renamed parameter is not declared twice. -/
theorem parameterSites_renamed {path : Path} {p : Token} (hp : p.lexeme = σ.old) (ps : List Token)
    {qs : List Token} (hqs : ∀ q ∈ qs, q.lexeme ≠ σ.new) (hfree : σ.new ∉ path.innermost)
    (hps : ∀ q ∈ ps, q.lexeme ≠ σ.new)
    (h : ∀ site ∈ parameterSites path (ps ++ p :: qs), site.violation? = none) :
    ∀ site ∈ parameterSites path (ps ++ p.respell σ.new :: qs), site.violation? = none := by
  induction ps generalizing path with
  | nil =>
    simp only [List.nil_append, parameterSites, List.forall_mem_cons, hp] at h ⊢
    refine ⟨if_neg hfree, ?_⟩
    have hlike : Path.Like (· ≠ σ.new) (path.declare σ.old) (path.declare σ.new) :=
      (Path.Like.refl path).declarePair σ.old σ.new fun hne => absurd rfl hne
    exact parameterSites_of_like hlike qs hqs h.2
  | cons q ps ih =>
    simp only [List.cons_append, parameterSites, List.forall_mem_cons] at h hps ⊢
    have hq : σ.new ∉ [q.lexeme] := fun hmem => hps.1 (List.mem_singleton.1 hmem).symm
    exact ⟨h.1, ih (Path.not_mem_innermost_declareAll hfree hq) hps.2 h.2⟩

/-- The renamed variable of a body is not declared twice. -/
theorem BodyRenames.lawfulAt {d : Nat} {path : Path} {body body' : List Stmt}
    (h : BodyRenames σ body body') (hpath : path ≠ []) (hfree : σ.new ∉ path.innermost)
    (hz : BodyAvoids σ.new d body) (hlawful : BodyLawfulAt path body) :
    BodyLawfulAt path body' := by
  obtain ⟨before, hname, e?, after⟩ := h
  induction before generalizing path with
  | nil =>
    obtain ⟨hze, hzafter⟩ := bodyAvoids_cons.1 hz
    have hlike : Path.Like (· ≠ σ.new) (path.declare σ.old) (path.declare σ.new) :=
      (Path.Like.refl path).declarePair σ.old σ.new fun hne => absurd rfl hne
    have hinside : path.declare σ.old ≠ [] := Path.declareAll_ne_nil hpath [σ.old]
    rw [List.nil_append, bodyLawfulAt_cons] at hlawful ⊢
    obtain ⟨hvar, hafter⟩ := hlawful
    simp only [Stmt.LawfulAt, Stmt.sites, List.forall_mem_cons, hname] at hvar ⊢
    simp only [Stmt.introduces, Path.declareAll_cons, Path.declareAll_nil, hname,
      Token.lexeme_respell] at hafter ⊢
    exact ⟨⟨if_neg hfree, optionalSites_rename hlike hinside .own 0 e? hze.1 hvar.2⟩,
      bodyLawfulAt_rename hlike hinside after hzafter hafter⟩
  | cons t before ih =>
    rw [List.cons_append, bodyLawfulAt_cons] at hlawful ⊢
    obtain ⟨hzt, hzrest⟩ := bodyAvoids_cons.1 hz
    refine ⟨hlawful.1, ih (Path.declareAll_ne_nil hpath _) ?_ hzrest hlawful.2⟩
    exact Path.not_mem_innermost_declareAll hfree
      fun hmem => Stmt.Avoids.introduces t hzt _ hmem rfl

/-- The renamed parameter or variable of a declared body is not declared twice. -/
theorem RoutineRenames.lawfulAt {opener : Enclosure} {d : Nat} {path : Path} {r r' : Routine}
    (h : RoutineRenames σ r r') (hz : r.Avoids σ.new d) (hlawful : r.LawfulAt opener path) :
    r'.LawfulAt opener path := by
  have hpath : (⟨opener, []⟩ :: path : Path) ≠ [] := List.cons_ne_nil _ _
  cases h with
  | @parameter name ps p hp qs body =>
    obtain ⟨hzparams, hzbody⟩ := Routine.avoids_mk.1 hz
    simp only [List.forall_mem_append, List.forall_mem_cons] at hzparams
    rw [Routine.lawfulAt_mk] at hlawful ⊢
    obtain ⟨hparams, hbody⟩ := hlawful
    refine ⟨parameterSites_renamed hp ps hzparams.2.2 List.not_mem_nil hzparams.1 hparams, ?_⟩
    refine bodyLawfulAt_rename ?_ (Path.declareAll_ne_nil hpath _) body hzbody hbody
    simp only [List.map_append, List.map_cons, Path.declareAll_append, Path.declareAll_cons]
    exact ((Path.Like.refl _).declarePair _ _ fun hne => absurd rfl hne).declareAll _
  | body name params h =>
    obtain ⟨hzparams, hzbody⟩ := Routine.avoids_mk.1 hz
    rw [Routine.lawfulAt_mk] at hlawful ⊢
    refine ⟨hlawful.1, h.lawfulAt (Path.declareAll_ne_nil hpath _) ?_ hzbody hlawful.2⟩
    refine Path.not_mem_innermost_declareAll List.not_mem_nil fun hmem => ?_
    obtain ⟨p, hp, heq⟩ := List.mem_map.1 hmem
    exact hzparams p hp heq

/-- **One declaration renamed** breaks no rule. -/
theorem Stmt.Renames.lawfulAt {d : Nat} {s s' : Stmt} (h : Stmt.Renames σ s s')
    (hz : s.Avoids σ.new d) (path : Path) (hlawful : s.LawfulAt path) : s'.LawfulAt path := by
  cases h with
  | block h => exact h.lawfulAt (List.cons_ne_nil _ _) List.not_mem_nil hz hlawful
  | function h =>
    rw [Stmt.lawfulAt_function] at hlawful ⊢
    rw [h.name_eq]
    exact ⟨hlawful.1, h.lawfulAt (Stmt.avoids_function.1 hz).2 hlawful.2⟩
  | @method name superclass earlier r r' h later =>
    obtain ⟨d', hclass⟩ := Stmt.avoids_classDecl name superclass (earlier ++ r :: later)
    have hzr := (methodsAvoid_cons.1 (methodsAvoid_append.1 (hclass.1 hz).2.2).2).1
    obtain ⟨path', P, hmethods⟩ := Stmt.lawfulAt_classDecl path name superclass
    rw [hmethods] at hlawful ⊢
    exact ⟨hlawful.1, methodsLawfulAt_swap h.name_eq (fun _ => h.lawfulAt hzr) earlier later
      hlawful.2⟩

end

end Lox
