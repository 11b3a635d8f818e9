/-
**The grammar does not look at lines.**

Tokens that differ in nothing but their lines make the same trees, but for the lines in these: if
there is a tree for the one, there is a tree for the other, and on common lines the two are the
same.

Main definitions:

* `Lox.Relabeling.Merges` — **tokens that are the same** on their other lines;
* `Lox.Relabeling.bare` — all lines and numbers are left out;
* `Lox.Grammar.Elsewhere` — a part of a program with its tree, **on any other lines**.

Main results:

* `Lox.relabelBody_relabel` — one relabelling after the other;
* `Lox.Grammar.Derives.elsewhere`, `Lox.Grammar.Parses.elsewhere` — expressions and statements on
  other lines;
* `Lox.Grammar.Program.elsewhere` — **programs on other lines**.
-/

import Lox.Proofs.Tree.Relabel
import Mathlib.Data.List.Forall2

set_option relaxedAutoImplicit false
set_option autoImplicit false

namespace Lox

namespace Relabeling

/-- All lines and numbers are left out. -/
def bare : Relabeling := ⟨fun _ => 0, fun _ => 0⟩

/-- One relabelling after the other. -/
def andThen (σ τ : Relabeling) : Relabeling :=
  ⟨fun t => τ.line (σ.token t), fun id => τ.number (σ.number id)⟩

end Relabeling

/-! ### One relabelling after the other -/

section

variable (σ τ : Relabeling)

mutual

theorem Expr.relabel_relabel : ∀ e : Expr, (e.relabel σ).relabel τ = e.relabel (σ.andThen τ)
  | .literal _ | .variable _ | .this _ | .super .. | .hole _ => rfl
  | .grouping e => by simp only [Expr.relabel, Expr.relabel_relabel e]
  | .unary _ e | .get e _ | .assign _ e => by
    simp only [Expr.relabel, Expr.relabel_relabel e]
    rfl
  | .binary l _ r | .logical l _ r | .set l _ r => by
    simp only [Expr.relabel, Expr.relabel_relabel l, Expr.relabel_relabel r]
    rfl
  | .call f _ es => by
    simp only [Expr.relabel, Expr.relabel_relabel f, relabelArguments_relabel es]
    rfl

theorem relabelArguments_relabel : ∀ es : List Expr,
    relabelArguments τ (relabelArguments σ es) = relabelArguments (σ.andThen τ) es
  | [] => rfl
  | e :: es => by
    simp only [relabelArguments, Expr.relabel_relabel e, relabelArguments_relabel es]

end

mutual

theorem Stmt.relabel_relabel : ∀ s : Stmt, (s.relabel σ).relabel τ = s.relabel (σ.andThen τ)
  | .expression e | .print e => by simp only [Stmt.relabel, Expr.relabel_relabel]
  | .var _ none | .ret _ none => rfl
  | .var _ (some e) | .ret _ (some e) => by
    simp only [Stmt.relabel, Option.map_some, Expr.relabel_relabel]
    rfl
  | .block body => by simp only [Stmt.relabel, relabelBody_relabel body]
  | .cond c t none => by simp only [Stmt.relabel, Expr.relabel_relabel, Stmt.relabel_relabel t]
  | .cond c t (some e) => by
    simp only [Stmt.relabel, Expr.relabel_relabel, Stmt.relabel_relabel t, Stmt.relabel_relabel e]
  | .loop c body => by simp only [Stmt.relabel, Expr.relabel_relabel, Stmt.relabel_relabel body]
  | .function routine => by simp only [Stmt.relabel, Routine.relabel_relabel routine]
  | .classDecl _ superclass methods => by
    simp only [Stmt.relabel, relabelMethods_relabel methods]
    cases superclass <;> rfl

theorem Routine.relabel_relabel : ∀ r : Routine,
    (r.relabel σ).relabel τ = r.relabel (σ.andThen τ)
  | .mk name params body => by
    simp only [Routine.relabel, relabelBody_relabel body, List.map_map]
    rfl

theorem relabelBody_relabel : ∀ ss : List Stmt,
    relabelBody τ (relabelBody σ ss) = relabelBody (σ.andThen τ) ss
  | [] => rfl
  | s :: ss => by simp only [relabelBody, Stmt.relabel_relabel s, relabelBody_relabel ss]

theorem relabelMethods_relabel : ∀ rs : List Routine,
    relabelMethods τ (relabelMethods σ rs) = relabelMethods (σ.andThen τ) rs
  | [] => rfl
  | r :: rs => by simp only [relabelMethods, Routine.relabel_relabel r, relabelMethods_relabel rs]

end

end

/-- Trees that differ in nothing but numbers are the same without lines and numbers. -/
theorem relabelBody_bare_of_unnumbered {ss ss' : List Stmt}
    (h : unnumberedBody ss = unnumberedBody ss') :
    relabelBody .bare ss = relabelBody .bare ss' := by
  have hbare : ∀ ss, relabelBody .bare ss = relabelBody .bare (unnumberedBody ss) := fun ss => by
    rw [unnumberedBody_eq_relabelBody, relabelBody_relabel]
    rfl
  rw [hbare ss, h, ← hbare ss']

namespace Relabeling

variable {σ : Relabeling}

/-- Tokens that are **the same** on their other lines. -/
def Merges (σ : Relabeling) (us ts : List Token) : Prop := us.map σ.token = ts.map σ.token

theorem kind_eq {t t' : Token} (h : σ.token t' = σ.token t) : t'.kind = t.kind := by
  rw [← σ.kind_token t', h, σ.kind_token]

theorem literal_eq {t t' : Token} (h : σ.token t' = σ.token t) : t'.literal = t.literal :=
  show (σ.token t').literal = (σ.token t).literal from congrArg Token.literal h

namespace Merges

variable {us ts ts' : List Token} {t : Token}

theorem nil_right (h : σ.Merges us []) : us = [] := List.map_eq_nil_iff.1 h

theorem cons_right (h : σ.Merges us (t :: ts)) :
    ∃ t' us', us = t' :: us' ∧ σ.token t' = σ.token t ∧ σ.Merges us' ts :=
  List.map_eq_cons_iff.1 h

theorem append_right (h : σ.Merges us (ts ++ ts')) :
    ∃ vs vs', us = vs ++ vs' ∧ σ.Merges vs ts ∧ σ.Merges vs' ts' := by
  unfold Merges at h
  rw [List.map_append] at h
  exact List.map_eq_append_iff.1 h

theorem single_right (h : σ.Merges us [t]) : ∃ t', us = [t'] ∧ σ.token t' = σ.token t := by
  obtain ⟨t', us', rfl, ht, hnil⟩ := h.cons_right
  exact ⟨t', by rw [hnil.nil_right], ht⟩

/-- Tokens between a first and a last one. -/
theorem enclosed_right {u : Token} (h : σ.Merges us (t :: ts ++ [u])) :
    ∃ t' vs u', us = t' :: vs ++ [u'] ∧ σ.token t' = σ.token t ∧ σ.Merges vs ts ∧
      σ.token u' = σ.token u := by
  obtain ⟨vs, ws, rfl, hvs, hws⟩ := h.append_right
  obtain ⟨t', vs, rfl, ht', hvs⟩ := hvs.cons_right
  obtain ⟨u', rfl, hu'⟩ := hws.single_right
  exact ⟨t', vs, u', rfl, ht', hvs, hu'⟩

end Merges

end Relabeling

namespace Grammar

variable {σ : Relabeling} {us ts : List Token}

/-! ### Expressions -/

theorem Separated.elsewhere {parts : List (List Token)} (h : Separated parts ts)
    (hus : σ.Merges us ts) :
    ∃ parts', Separated parts' us ∧ List.Forall₂ σ.Merges parts' parts := by
  induction h generalizing us with
  | none =>
    obtain rfl := hus.nil_right
    exact ⟨[], .none, .nil⟩
  | one ts => exact ⟨[us], .one us, .cons hus .nil⟩
  | more hcomma _ ih =>
    obtain ⟨vs, vs', rfl, hvs, hvs'⟩ := hus.append_right
    obtain ⟨comma', ws, rfl, hcomma', hws⟩ := hvs'.cons_right
    obtain ⟨parts', hparts', hrest⟩ := ih hws
    obtain ⟨next', parts', -, -, rfl⟩ := List.forall₂_cons_right_iff.1 hrest
    exact ⟨_, .more ((Relabeling.kind_eq hcomma').trans hcomma) hparts', .cons hvs hrest⟩

/-- Trees for each of several stretches of tokens. -/
theorem exists_elsewhere {α : Type} {P : List Token → α → Prop} {g : α → α}
    {parts : List (List Token × α)} {parts' : List (List Token)}
    (h : ∀ d ∈ parts, ∀ us, σ.Merges us d.1 → ∃ a', P us a' ∧ g a' = g d.2)
    (hparts : List.Forall₂ σ.Merges parts' (parts.map Prod.fst)) :
    ∃ ds : List (List Token × α), ds.map Prod.fst = parts' ∧ (∀ d ∈ ds, P d.1 d.2) ∧
      (ds.map Prod.snd).map g = (parts.map Prod.snd).map g := by
  induction parts generalizing parts' with
  | nil =>
    cases hparts
    exact ⟨[], rfl, by simp, rfl⟩
  | cons d parts ih =>
    obtain ⟨us, parts', hus, hrest, rfl⟩ := List.forall₂_cons_right_iff.1 hparts
    obtain ⟨hd, hall⟩ := List.forall_mem_cons.1 h
    obtain ⟨a', ha', heq⟩ := hd us hus
    obtain ⟨ds, rfl, hds, htrees⟩ := ih hall hrest
    exact ⟨(us, a') :: ds, rfl, List.forall_mem_cons.2 ⟨ha', hds⟩, by simp [heq, htrees]⟩

/-- Several stretches of tokens between commas, each with a tree, on other lines. -/
theorem Separated.trees_elsewhere {α : Type} {P : List Token → α → Prop} {g : α → α}
    {parts : List (List Token × α)} (h : Separated (parts.map Prod.fst) ts)
    (hparts : ∀ d ∈ parts, ∀ us, σ.Merges us d.1 → ∃ a', P us a' ∧ g a' = g d.2)
    (hus : σ.Merges us ts) :
    ∃ ds : List (List Token × α), Separated (ds.map Prod.fst) us ∧ (∀ d ∈ ds, P d.1 d.2) ∧
      ds.length = parts.length ∧ (ds.map Prod.snd).map g = (parts.map Prod.snd).map g := by
  obtain ⟨parts', hcommas, hmerges⟩ := h.elsewhere hus
  obtain ⟨ds, rfl, hds, htrees⟩ := exists_elsewhere hparts hmerges
  exact ⟨ds, hcommas, hds, by simpa using hmerges.length_eq, htrees⟩

/-- **An expression on other lines.** -/
theorem Derives.elsewhere {r : Rank} {e : Expr} (h : Derives r ts e) (hus : σ.Merges us ts) :
    ∃ e', Derives r us e' ∧ e'.relabel σ = e.relabel σ := by
  induction h generalizing us with
  | tighter hr _ ih =>
    obtain ⟨e', he', heq⟩ := ih hus
    exact ⟨e', .tighter hr he', heq⟩
  | @assign ref _ _ _ hname hequals _ ih =>
    obtain ⟨name', us, rfl, hname', hus⟩ := hus.cons_right
    obtain ⟨equals', us, rfl, hequals', hus⟩ := hus.cons_right
    obtain ⟨value', hvalue', heq⟩ := ih hus
    refine ⟨_, @Derives.assign ⟨ref.id, name'⟩ _ _ _ ((Relabeling.kind_eq hname').trans hname)
      ((Relabeling.kind_eq hequals').trans hequals) hvalue', ?_⟩
    simp only [Expr.relabel, Reference.relabel, hname', heq]
  | set _ hdot hname hequals _ ihobject ihvalue =>
    obtain ⟨os', us, rfl, hos, hus⟩ := hus.append_right
    obtain ⟨dot', us, rfl, hdot', hus⟩ := hus.cons_right
    obtain ⟨name', us, rfl, hname', hus⟩ := hus.cons_right
    obtain ⟨equals', us, rfl, hequals', hus⟩ := hus.cons_right
    obtain ⟨object', hobject', heqo⟩ := ihobject hos
    obtain ⟨value', hvalue', heqv⟩ := ihvalue hus
    refine ⟨_, .set hobject' ((Relabeling.kind_eq hdot').trans hdot)
      ((Relabeling.kind_eq hname').trans hname) ((Relabeling.kind_eq hequals').trans hequals)
      hvalue', ?_⟩
    simp only [Expr.relabel, hname', heqo, heqv]
  | operator hr _ ht _ ihleft ihright =>
    obtain ⟨ls', us, rfl, hls, hus⟩ := hus.append_right
    obtain ⟨t', us, rfl, ht', hus⟩ := hus.cons_right
    obtain ⟨left', hleft', heql⟩ := ihleft hls
    obtain ⟨right', hright', heqr⟩ := ihright hus
    refine ⟨_, .operator hr hleft' (Relabeling.kind_eq ht' ▸ ht) hright', ?_⟩
    rw [Rank.join_relabel, Rank.join_relabel, heql, heqr, ht']
  | unary ht _ ih =>
    obtain ⟨t', us, rfl, ht', hus⟩ := hus.cons_right
    obtain ⟨e', he', heq⟩ := ih hus
    refine ⟨_, .unary (Relabeling.kind_eq ht' ▸ ht) he', ?_⟩
    simp only [Expr.relabel, ht', heq]
  | @call fs as callee arguments opening closing _ hopening hcommas _ hlength hclosing ihcallee
      iharguments =>
    obtain ⟨vs, ws, rfl, hvs, hws⟩ := hus.append_right
    obtain ⟨fs', vs, rfl, hfs, hvs⟩ := hvs.append_right
    obtain ⟨opening', as', rfl, hopening', has⟩ := hvs.cons_right
    obtain ⟨closing', rfl, hclosing'⟩ := hws.single_right
    obtain ⟨callee', hcallee', heq⟩ := ihcallee hfs
    obtain ⟨arguments', hcommas', harguments', hlength', heqs⟩ :=
      hcommas.trees_elsewhere (fun a ha us hus => iharguments a ha hus) has
    refine ⟨_, .call hcallee' ((Relabeling.kind_eq hopening').trans hopening) hcommas' harguments'
      (hlength' ▸ hlength) ((Relabeling.kind_eq hclosing').trans hclosing), ?_⟩
    simp only [Expr.relabel, relabelArguments_eq_map, heq, heqs, hclosing']
  | get _ hdot hname ih =>
    obtain ⟨os', us, rfl, hos, hus⟩ := hus.append_right
    obtain ⟨dot', us, rfl, hdot', hus⟩ := hus.cons_right
    obtain ⟨name', rfl, hname'⟩ := hus.single_right
    obtain ⟨object', hobject', heq⟩ := ih hos
    refine ⟨_, .get hobject' ((Relabeling.kind_eq hdot').trans hdot)
      ((Relabeling.kind_eq hname').trans hname), ?_⟩
    simp only [Expr.relabel, hname', heq]
  | false_ ht =>
    obtain ⟨t', rfl, ht'⟩ := hus.single_right
    exact ⟨_, .false_ ((Relabeling.kind_eq ht').trans ht), rfl⟩
  | true_ ht =>
    obtain ⟨t', rfl, ht'⟩ := hus.single_right
    exact ⟨_, .true_ ((Relabeling.kind_eq ht').trans ht), rfl⟩
  | nil ht =>
    obtain ⟨t', rfl, ht'⟩ := hus.single_right
    exact ⟨_, .nil ((Relabeling.kind_eq ht').trans ht), rfl⟩
  | literal ht =>
    obtain ⟨t', rfl, ht'⟩ := hus.single_right
    refine ⟨_, .literal (Relabeling.kind_eq ht' ▸ ht), ?_⟩
    rw [Relabeling.literal_eq ht']
  | @name ref ht =>
    obtain ⟨t', rfl, ht'⟩ := hus.single_right
    refine ⟨_, @Derives.name ⟨ref.id, t'⟩ ((Relabeling.kind_eq ht').trans ht), ?_⟩
    simp only [Expr.relabel, Reference.relabel, ht']
  | @this ref ht =>
    obtain ⟨t', rfl, ht'⟩ := hus.single_right
    refine ⟨_, @Derives.this ⟨ref.id, t'⟩ ((Relabeling.kind_eq ht').trans ht), ?_⟩
    simp only [Expr.relabel, Reference.relabel, ht']
  | @super ref _ _ ht hdot hmethod =>
    obtain ⟨t', us, rfl, ht', hus⟩ := hus.cons_right
    obtain ⟨dot', us, rfl, hdot', hus⟩ := hus.cons_right
    obtain ⟨method', rfl, hmethod'⟩ := hus.single_right
    refine ⟨_, @Derives.super ⟨ref.id, t'⟩ _ _ ((Relabeling.kind_eq ht').trans ht)
      ((Relabeling.kind_eq hdot').trans hdot) ((Relabeling.kind_eq hmethod').trans hmethod), ?_⟩
    simp only [Expr.relabel, Reference.relabel, ht', hmethod']
  | grouping hopening _ hclosing ih =>
    obtain ⟨opening', us, closing', rfl, hopening', hinner, hclosing'⟩ := hus.enclosed_right
    obtain ⟨inner', hinner', heq⟩ := ih hinner
    refine ⟨_, .grouping ((Relabeling.kind_eq hopening').trans hopening) hinner'
      ((Relabeling.kind_eq hclosing').trans hclosing), ?_⟩
    simp only [Expr.relabel, heq]

/-! ### Statements -/

theorem Optional.elsewhere {α : Type} {P : List Token → α → Prop} {g : α → α}
    (hP : ∀ {us ts a}, P ts a → σ.Merges us ts → ∃ a', P us a' ∧ g a' = g a) {a? : Option α}
    (h : Optional P ts a?) (hus : σ.Merges us ts) :
    ∃ a'?, Optional P us a'? ∧ a'?.map g = a?.map g := by
  cases h with
  | none =>
    obtain rfl := hus.nil_right
    exact ⟨Option.none, .none, rfl⟩
  | some ha =>
    obtain ⟨a', ha', heq⟩ := hP ha hus
    exact ⟨Option.some a', .some ha', by rw [Option.map_some, Option.map_some, heq]⟩

theorem Initializer.elsewhere {e : Expr} (h : Initializer ts e) (hus : σ.Merges us ts) :
    ∃ e', Initializer us e' ∧ e'.relabel σ = e.relabel σ := by
  cases h with
  | mk hequals he =>
    obtain ⟨equals', us, rfl, hequals', hus⟩ := hus.cons_right
    obtain ⟨e', he', heq⟩ := he.elsewhere hus
    exact ⟨e', .mk ((Relabeling.kind_eq hequals').trans hequals) he', heq⟩

theorem Variable.elsewhere {s : Stmt} (h : Variable ts s) (hus : σ.Merges us ts) :
    ∃ s', Variable us s' ∧ s'.relabel σ = s.relabel σ := by
  cases h with
  | mk hvar hname hinitializer hsemicolon =>
    obtain ⟨vs, ws, rfl, hvs, hws⟩ := hus.append_right
    obtain ⟨var', vs, rfl, hvar', hvs⟩ := hvs.cons_right
    obtain ⟨name', vs, rfl, hname', hvs⟩ := hvs.cons_right
    obtain ⟨semicolon', rfl, hsemicolon'⟩ := hws.single_right
    obtain ⟨initializer', hinitializer', heq⟩ :=
      hinitializer.elsewhere (fun h hus => h.elsewhere hus) hvs
    refine ⟨_, .mk ((Relabeling.kind_eq hvar').trans hvar) ((Relabeling.kind_eq hname').trans hname)
      hinitializer' ((Relabeling.kind_eq hsemicolon').trans hsemicolon), ?_⟩
    simp only [Stmt.relabel, hname', heq]

theorem ExpressionStatement.elsewhere {s : Stmt} (h : ExpressionStatement ts s)
    (hus : σ.Merges us ts) : ∃ s', ExpressionStatement us s' ∧ s'.relabel σ = s.relabel σ := by
  cases h with
  | mk he hsemicolon =>
    obtain ⟨vs, ws, rfl, hvs, hws⟩ := hus.append_right
    obtain ⟨semicolon', rfl, hsemicolon'⟩ := hws.single_right
    obtain ⟨e', he', heq⟩ := he.elsewhere hvs
    exact ⟨_, .mk he' ((Relabeling.kind_eq hsemicolon').trans hsemicolon),
      congrArg Stmt.expression heq⟩

theorem ForInitializer.elsewhere {s? : Option Stmt} (h : ForInitializer ts s?)
    (hus : σ.Merges us ts) :
    ∃ s'?, ForInitializer us s'? ∧ s'?.map (Stmt.relabel σ) = s?.map (Stmt.relabel σ) := by
  cases h with
  | none hsemicolon =>
    obtain ⟨semicolon', rfl, hsemicolon'⟩ := hus.single_right
    exact ⟨Option.none, .none ((Relabeling.kind_eq hsemicolon').trans hsemicolon), rfl⟩
  | var hs =>
    obtain ⟨s', hs', heq⟩ := hs.elsewhere hus
    exact ⟨some s', .var hs', congrArg some heq⟩
  | expression hs =>
    obtain ⟨s', hs', heq⟩ := hs.elsewhere hus
    exact ⟨some s', .expression hs', congrArg some heq⟩

theorem Superclass.elsewhere {ref : Reference} (h : Superclass ts ref) (hus : σ.Merges us ts) :
    ∃ ref', Superclass us ref' ∧ ref'.relabel σ = ref.relabel σ := by
  cases h with
  | mk hless hname =>
    obtain ⟨less', us, rfl, hless', hus⟩ := hus.cons_right
    obtain ⟨name', rfl, hname'⟩ := hus.single_right
    refine ⟨⟨ref.id, name'⟩, @Superclass.mk _ ⟨ref.id, name'⟩
      ((Relabeling.kind_eq hless').trans hless) ((Relabeling.kind_eq hname').trans hname), ?_⟩
    simp only [Reference.relabel, hname']

theorem Condition.elsewhere {e : Expr} (h : Condition ts e) (hus : σ.Merges us ts) :
    ∃ e', Condition us e' ∧ e'.relabel σ = e.relabel σ := by
  cases h with
  | mk hopening he hclosing =>
    obtain ⟨opening', vs, closing', rfl, hopening', hvs, hclosing'⟩ := hus.enclosed_right
    obtain ⟨e', he', heq⟩ := he.elsewhere hvs
    exact ⟨e', .mk ((Relabeling.kind_eq hopening').trans hopening) he'
      ((Relabeling.kind_eq hclosing').trans hclosing), heq⟩

/-- A word and a condition in front of other tokens. -/
theorem Condition.headed_elsewhere {word : Token} {cs : List Token} {e : Expr}
    (h : Condition cs e) (hus : σ.Merges us (word :: cs ++ ts)) :
    ∃ word' cs' vs e', us = word' :: cs' ++ vs ∧ σ.token word' = σ.token word ∧
      Condition cs' e' ∧ e'.relabel σ = e.relabel σ ∧ σ.Merges vs ts := by
  obtain ⟨ws, vs, rfl, hws, hvs⟩ := hus.append_right
  obtain ⟨word', cs', rfl, hword', hcs⟩ := hws.cons_right
  obtain ⟨e', he', heq⟩ := h.elsewhere hcs
  exact ⟨word', cs', vs, e', rfl, hword', he', heq, hvs⟩

/-- Tokens of several parts, on other lines. -/
theorem flatten_elsewhere {parts : List (List Token)} (h : σ.Merges us parts.flatten) :
    ∃ parts', parts'.flatten = us ∧ List.Forall₂ σ.Merges parts' parts := by
  induction parts generalizing us with
  | nil => exact ⟨[], h.nil_right.symm, .nil⟩
  | cons part parts ih =>
    obtain ⟨vs, ws, rfl, hvs, hws⟩ := Relabeling.Merges.append_right (List.flatten_cons ▸ h)
    obtain ⟨parts', rfl, hparts⟩ := ih hws
    exact ⟨vs :: parts', rfl, .cons hvs hparts⟩

/-- Parameters on other lines. -/
theorem parameters_elsewhere {params : List Token} {parts : List (List Token)}
    (h : List.Forall₂ σ.Merges parts (params.map fun p => [p])) :
    ∃ params' : List Token, parts = params'.map (fun p => [p]) ∧ σ.Merges params' params := by
  induction params generalizing parts with
  | nil =>
    cases h
    exact ⟨[], rfl, rfl⟩
  | cons p params ih =>
    obtain ⟨us, parts, hus, hrest, rfl⟩ := List.forall₂_cons_right_iff.1 h
    obtain ⟨p', rfl, hp'⟩ := hus.single_right
    obtain ⟨params', rfl, hparams⟩ := ih hrest
    exact ⟨p' :: params', rfl, List.map_cons.trans (by rw [hp', hparams, List.map_cons])⟩

/-- Several parts on other lines. -/
theorem parts_elsewhere {α : Type} {P : List Token → α → Prop} {g : α → α}
    {parts : List (List Token × α)}
    (h : ∀ d ∈ parts, ∀ us, σ.Merges us d.1 → ∃ a', P us a' ∧ g a' = g d.2)
    (hus : σ.Merges us (parts.map Prod.fst).flatten) :
    ∃ ds : List (List Token × α), us = (ds.map Prod.fst).flatten ∧ (∀ d ∈ ds, P d.1 d.2) ∧
      (ds.map Prod.snd).map g = (parts.map Prod.snd).map g := by
  obtain ⟨parts', rfl, hparts⟩ := flatten_elsewhere hus
  obtain ⟨ds, rfl, hds, htrees⟩ := exists_elsewhere h hparts
  exact ⟨ds, rfl, hds, htrees⟩

theorem eq_function_of_relabel {s : Stmt} {r : Routine} (h : s.relabel σ = .function r) :
    ∃ r', s = .function r' ∧ r'.relabel σ = r := by
  cases s with
  | function r' => exact ⟨r', rfl, Stmt.function.inj h⟩
  | cond c t e => cases e <;> cases h
  | _ => cases h

/-- A part of a program with its tree, **on any other lines**: its tokens have a tree there, and on
common lines the two trees are the same. -/
def Elsewhere (σ : Relabeling) (part : Part) (ts : List Token) (s : Stmt) : Prop :=
  ∀ us, σ.Merges us ts → ∃ s', Parses part us s' ∧ s'.relabel σ = s.relabel σ

namespace Elsewhere

variable {ps cs is vs : List Token} {s s' : Stmt} {e : Expr}
  {word word' name opening closing brace brace' semicolon : Token} {closed : Bool}

theorem routine {params : List Token} {body : List (List Token × Stmt)}
    (hname : name.kind = .identifier) (hopening : opening.kind = .symbol .leftParen)
    (hcommas : Separated (params.map fun p => [p]) ps)
    (hparams : ∀ p ∈ params, p.kind = .identifier) (hlength : params.length ≤ 255)
    (hclosing : closing.kind = .symbol .rightParen) (hbrace : brace.kind = .symbol .leftBrace)
    (hbody : ∀ d ∈ body, Elsewhere σ .declaration d.1 d.2)
    (hbrace' : brace'.kind = .symbol .rightBrace) :
    Elsewhere σ .routine
      (name :: opening :: ps ++ closing :: brace :: (body.map Prod.fst).flatten ++ [brace'])
      (.function (.mk name params (body.map Prod.snd))) := by
  intro us hus
  obtain ⟨vs, ws, rfl, hvs, hws⟩ := hus.append_right
  obtain ⟨vs, us, rfl, hvs, hrest⟩ := hvs.append_right
  obtain ⟨_, vs, rfl, hname', hvs⟩ := hvs.cons_right
  obtain ⟨_, ps', rfl, hopening', hps⟩ := hvs.cons_right
  obtain ⟨_, us, rfl, hclosing', hrest⟩ := hrest.cons_right
  obtain ⟨_, us, rfl, hbrace₁, hdeclarations⟩ := hrest.cons_right
  obtain ⟨_, rfl, hbrace₂⟩ := hws.single_right
  obtain ⟨parts, hcommas', hparts⟩ := hcommas.elsewhere hps
  obtain ⟨params', rfl, hmerges⟩ := parameters_elsewhere hparts
  obtain ⟨body', rfl, hbody', htrees⟩ := parts_elsewhere hbody hdeclarations
  have hparams' : ∀ p ∈ params', p.kind = .identifier := by
    intro p hp
    obtain ⟨q, hq, heq⟩ := List.mem_map.1 (hmerges ▸ List.mem_map_of_mem hp)
    exact (Relabeling.kind_eq heq.symm).trans (hparams q hq)
  have hlength' := congrArg List.length hmerges
  rw [List.length_map, List.length_map] at hlength'
  refine ⟨_, .routine ((Relabeling.kind_eq hname').trans hname)
    ((Relabeling.kind_eq hopening').trans hopening) hcommas' hparams' (hlength' ▸ hlength)
    ((Relabeling.kind_eq hclosing').trans hclosing) ((Relabeling.kind_eq hbrace₁).trans hbrace)
    hbody' ((Relabeling.kind_eq hbrace₂).trans hbrace'), ?_⟩
  rw [Relabeling.Merges] at hmerges
  simp only [Stmt.relabel, Routine.relabel, relabelBody_eq_map, hname', hmerges, htrees]

/-- On other lines a method is a method. -/
theorem method {method : Routine} (h : Elsewhere σ .routine ts (.function method))
    (us : List Token) (hus : σ.Merges us ts) :
    ∃ method', Parses .routine us (.function method') ∧ method'.relabel σ = method.relabel σ := by
  obtain ⟨s', hs', heq⟩ := h us hus
  obtain ⟨method', rfl, hmethod'⟩ := eq_function_of_relabel heq
  exact ⟨method', hs', hmethod'⟩

theorem classDecl {superclass : Option Reference} {methods : List (List Token × Routine)}
    (hword : word.kind = .keyword .class_) (hname : name.kind = .identifier)
    (hsuperclass : Optional Superclass ps superclass) (hbrace : brace.kind = .symbol .leftBrace)
    (hmethods : ∀ m ∈ methods, Elsewhere σ .routine m.1 (.function m.2))
    (hbrace' : brace'.kind = .symbol .rightBrace) :
    Elsewhere σ .declaration
      (word :: name :: ps ++ brace :: (methods.map Prod.fst).flatten ++ [brace'])
      (.classDecl name superclass (methods.map Prod.snd)) := by
  intro us hus
  obtain ⟨vs, ws, rfl, hvs, hws⟩ := hus.append_right
  obtain ⟨vs, us, rfl, hvs, hrest⟩ := hvs.append_right
  obtain ⟨_, vs, rfl, hword', hvs⟩ := hvs.cons_right
  obtain ⟨_, ps', rfl, hname', hps⟩ := hvs.cons_right
  obtain ⟨_, us, rfl, hbrace₁, hroutines⟩ := hrest.cons_right
  obtain ⟨_, rfl, hbrace₂⟩ := hws.single_right
  obtain ⟨superclass', hsuperclass', heq⟩ :=
    hsuperclass.elsewhere (fun h hus => h.elsewhere hus) hps
  obtain ⟨methods', rfl, hmethods', htrees⟩ :=
    parts_elsewhere (fun m hm => (hmethods m hm).method) hroutines
  refine ⟨_, .classDecl ((Relabeling.kind_eq hword').trans hword)
    ((Relabeling.kind_eq hname').trans hname) hsuperclass'
    ((Relabeling.kind_eq hbrace₁).trans hbrace) hmethods'
    ((Relabeling.kind_eq hbrace₂).trans hbrace'), ?_⟩
  simp only [Stmt.relabel, relabelMethods_eq_map, hname', heq, htrees]

theorem function (hword : word.kind = .keyword .fun_) (h : Elsewhere σ .routine ts s) :
    Elsewhere σ .declaration (word :: ts) s := by
  intro us hus
  obtain ⟨_, us, rfl, hword', hus⟩ := hus.cons_right
  obtain ⟨s', hs', heq⟩ := h us hus
  exact ⟨s', .function ((Relabeling.kind_eq hword').trans hword) hs', heq⟩

theorem var (h : Variable ts s) : Elsewhere σ .declaration ts s := by
  intro us hus
  obtain ⟨s', hs', heq⟩ := h.elsewhere hus
  exact ⟨s', .var hs', heq⟩

theorem statement (h : Elsewhere σ (.statement closed) ts s) : Elsewhere σ .declaration ts s := by
  intro us hus
  obtain ⟨s', hs', heq⟩ := h us hus
  exact ⟨s', .statement hs', heq⟩

theorem expression (h : ExpressionStatement ts s) : Elsewhere σ (.statement true) ts s := by
  intro us hus
  obtain ⟨s', hs', heq⟩ := h.elsewhere hus
  exact ⟨s', .expression hs', heq⟩

theorem print (hword : word.kind = .keyword .print) (he : Derives .assignment ts e)
    (hsemicolon : semicolon.kind = .symbol .semicolon) :
    Elsewhere σ (.statement true) (word :: ts ++ [semicolon]) (.print e) := by
  intro us hus
  obtain ⟨_, vs, _, rfl, hword', hvs, hsemicolon'⟩ := hus.enclosed_right
  obtain ⟨e', he', heq⟩ := he.elsewhere hvs
  exact ⟨_, .print ((Relabeling.kind_eq hword').trans hword) he'
    ((Relabeling.kind_eq hsemicolon').trans hsemicolon), congrArg Stmt.print heq⟩

theorem ret {value : Option Expr} (hword : word.kind = .keyword .return_)
    (hvalue : Optional (Derives .assignment) ts value)
    (hsemicolon : semicolon.kind = .symbol .semicolon) :
    Elsewhere σ (.statement true) (word :: ts ++ [semicolon]) (.ret word value) := by
  intro us hus
  obtain ⟨_, vs, _, rfl, hword', hvs, hsemicolon'⟩ := hus.enclosed_right
  obtain ⟨value', hvalue', heq⟩ := hvalue.elsewhere (fun h hus => h.elsewhere hus) hvs
  refine ⟨_, .ret ((Relabeling.kind_eq hword').trans hword) hvalue'
    ((Relabeling.kind_eq hsemicolon').trans hsemicolon), ?_⟩
  simp only [Stmt.relabel, hword', heq]

theorem block {body : List (List Token × Stmt)} (hbrace : brace.kind = .symbol .leftBrace)
    (hbody : ∀ d ∈ body, Elsewhere σ .declaration d.1 d.2)
    (hbrace' : brace'.kind = .symbol .rightBrace) :
    Elsewhere σ (.statement true) (brace :: (body.map Prod.fst).flatten ++ [brace'])
      (.block (body.map Prod.snd)) := by
  intro us hus
  obtain ⟨_, vs, _, rfl, hbrace₁, hdeclarations, hbrace₂⟩ := hus.enclosed_right
  obtain ⟨body', rfl, hbody', htrees⟩ := parts_elsewhere hbody hdeclarations
  refine ⟨_, .block ((Relabeling.kind_eq hbrace₁).trans hbrace) hbody'
    ((Relabeling.kind_eq hbrace₂).trans hbrace'), ?_⟩
  simp only [Stmt.relabel, relabelBody_eq_map, htrees]

theorem ifThen (hword : word.kind = .keyword .if_) (hcondition : Condition cs e)
    (h : Elsewhere σ (.statement closed) ts s) :
    Elsewhere σ (.statement false) (word :: cs ++ ts) (.cond e s none) := by
  intro us hus
  obtain ⟨_, cs', ts', e', rfl, hword', hcondition', heqe, hts⟩ := hcondition.headed_elsewhere hus
  obtain ⟨s', hs', heq⟩ := h ts' hts
  refine ⟨_, .ifThen ((Relabeling.kind_eq hword').trans hword) hcondition' hs', ?_⟩
  simp only [Stmt.relabel, heqe, heq]

theorem ifThenElse (hword : word.kind = .keyword .if_) (hcondition : Condition cs e)
    (h : Elsewhere σ (.statement true) ts s) (hword' : word'.kind = .keyword .else_)
    (h' : Elsewhere σ (.statement closed) vs s') :
    Elsewhere σ (.statement closed) (word :: cs ++ ts ++ word' :: vs) (.cond e s (some s')) := by
  intro us hus
  obtain ⟨us, ws, rfl, hus, hws⟩ := hus.append_right
  obtain ⟨_, cs', ts', e', rfl, hword₁, hcondition', heqe, hts⟩ := hcondition.headed_elsewhere hus
  obtain ⟨_, vs', rfl, hword₂, hvs⟩ := hws.cons_right
  obtain ⟨s₁, hs₁, heq₁⟩ := h ts' hts
  obtain ⟨s₂, hs₂, heq₂⟩ := h' vs' hvs
  refine ⟨_, .ifThenElse ((Relabeling.kind_eq hword₁).trans hword) hcondition' hs₁
    ((Relabeling.kind_eq hword₂).trans hword') hs₂, ?_⟩
  simp only [Stmt.relabel, heqe, heq₁, heq₂]

theorem whileLoop (hword : word.kind = .keyword .while_) (hcondition : Condition cs e)
    (h : Elsewhere σ (.statement closed) ts s) :
    Elsewhere σ (.statement closed) (word :: cs ++ ts) (.loop e s) := by
  intro us hus
  obtain ⟨_, cs', ts', e', rfl, hword', hcondition', heqe, hts⟩ := hcondition.headed_elsewhere hus
  obtain ⟨s', hs', heq⟩ := h ts' hts
  refine ⟨_, .whileLoop ((Relabeling.kind_eq hword').trans hword) hcondition' hs', ?_⟩
  simp only [Stmt.relabel, heqe, heq]

theorem forLoop {initializer : Option Stmt} {condition increment : Option Expr}
    (hword : word.kind = .keyword .for_) (hopening : opening.kind = .symbol .leftParen)
    (hinitializer : ForInitializer is initializer)
    (hcondition : Optional (Derives .assignment) cs condition)
    (hsemicolon : semicolon.kind = .symbol .semicolon)
    (hincrement : Optional (Derives .assignment) vs increment)
    (hclosing : closing.kind = .symbol .rightParen) (h : Elsewhere σ (.statement closed) ts s) :
    Elsewhere σ (.statement closed)
      (word :: opening :: is ++ cs ++ semicolon :: vs ++ closing :: ts)
      (.forLoop initializer condition increment s) := by
  intro us hus
  obtain ⟨us, bs, rfl, hus, hbs⟩ := hus.append_right
  obtain ⟨us, rs, rfl, hus, hrest⟩ := hus.append_right
  obtain ⟨us, cs', rfl, hus, hcs⟩ := hus.append_right
  obtain ⟨_, us, rfl, hword', hus⟩ := hus.cons_right
  obtain ⟨_, is', rfl, hopening', his⟩ := hus.cons_right
  obtain ⟨_, vs', rfl, hsemicolon', hvs⟩ := hrest.cons_right
  obtain ⟨_, ts', rfl, hclosing', hts⟩ := hbs.cons_right
  obtain ⟨i', hi', heqi⟩ := hinitializer.elsewhere his
  obtain ⟨c', hc', heqc⟩ := hcondition.elsewhere (fun h hus => h.elsewhere hus) hcs
  obtain ⟨u', hu', hequ⟩ := hincrement.elsewhere (fun h hus => h.elsewhere hus) hvs
  obtain ⟨s', hs', heq⟩ := h ts' hts
  refine ⟨_, .forLoop ((Relabeling.kind_eq hword').trans hword)
    ((Relabeling.kind_eq hopening').trans hopening) hi' hc'
    ((Relabeling.kind_eq hsemicolon').trans hsemicolon) hu'
    ((Relabeling.kind_eq hclosing').trans hclosing) hs', ?_⟩
  rw [Stmt.forLoop_relabel, Stmt.forLoop_relabel, heqi, heqc, hequ, heq]

end Elsewhere

/-- **A part of a program on other lines.** -/
theorem Parses.elsewhere {part : Part} {s : Stmt} (h : Parses part ts s) :
    Elsewhere σ part ts s := by
  induction h with
  | routine hname hopening hcommas hparams hlength hclosing hbrace _ hbrace' ih =>
    exact .routine hname hopening hcommas hparams hlength hclosing hbrace ih hbrace'
  | classDecl hword hname hsuperclass hbrace _ hbrace' ih =>
    exact .classDecl hword hname hsuperclass hbrace ih hbrace'
  | function hword _ ih => exact .function hword ih
  | var hs => exact .var hs
  | statement _ ih => exact .statement ih
  | expression hs => exact .expression hs
  | print hword he hsemicolon => exact .print hword he hsemicolon
  | ret hword hvalue hsemicolon => exact .ret hword hvalue hsemicolon
  | block hbrace _ hbrace' ih => exact .block hbrace ih hbrace'
  | ifThen hword hcondition _ ih => exact .ifThen hword hcondition ih
  | ifThenElse hword hcondition _ hword' _ ih ih' =>
    exact .ifThenElse hword hcondition ih hword' ih'
  | whileLoop hword hcondition _ ih => exact .whileLoop hword hcondition ih
  | forLoop hword hopening hinitializer hcondition hsemicolon hincrement hclosing _ ih =>
    exact .forLoop hword hopening hinitializer hcondition hsemicolon hincrement hclosing ih

/-- **A program on other lines** is a program, and on common lines it is the same. -/
theorem Program.elsewhere {program : List Stmt} (h : Program ts program) (hus : σ.Merges us ts) :
    ∃ program', Program us program' ∧ relabelBody σ program' = relabelBody σ program := by
  obtain ⟨parts, hparts, rfl, rfl⟩ := h
  obtain ⟨ds, rfl, hds, htrees⟩ :=
    parts_elsewhere (fun d hd => (hparts d hd).elsewhere) hus
  exact ⟨_, ⟨ds, hds, rfl, rfl⟩, by rw [relabelBody_eq_map, relabelBody_eq_map, htrees]⟩

end Grammar

end Lox
