/-
**The tokens of a variant.**

The grammar does not look at how names are spelled.  If a tree is made from some tokens, then a tree
that differs from it in local names is made from tokens that differ in the spelling of names, and
in nothing else.  Such tokens are those of a text.

Main definitions:

* `Lox.Stmt.Varies` — statements that differ in local names, whatever stands around them.

Main results:

* `Lox.Grammar.Derives.variant`, `Lox.Grammar.Parses.varies` — the tokens of expressions and
  statements with other names;
* `Lox.Grammar.Program.varies` — **the tokens of a program with other names**.
-/

import Lox.Proofs.Grammar.Basic
import Lox.Proofs.Tree.Variant

set_option relaxedAutoImplicit false
set_option autoImplicit false

namespace Lox

theorem Token.Respells.kind_eq {t t' : Token} (h : t.Respells t') : t'.kind = t.kind := by
  cases h <;> rfl

namespace Respelled

variable {ts ts' us us' : List Token}

/-- A token that stays the same. -/
theorem keep (t : Token) (h : Respelled ts ts') : Respelled (t :: ts) (t :: ts') :=
  .cons ⟨.same t, .inr rfl⟩ h

/-- A name. -/
theorem name {t t' : Token} (ht : t.kind = .identifier) (h : t.Respells t')
    (hts : Respelled ts ts') : Respelled (t :: ts) (t' :: ts') :=
  .cons ⟨h, .inl ht⟩ hts

theorem append (h : Respelled ts ts') (h' : Respelled us us') : Respelled (ts ++ us) (ts' ++ us') :=
  List.rel_append h h'

end Respelled

/-! ### Statements with other names -/

/-- Statements **that differ in local names**, whatever stands around them. -/
def Stmt.Varies (s s' : Stmt) : Prop := ∃ isLocal Δ, Stmt.Congruent False isLocal Δ s s'

theorem Stmt.Variant.varies {isLocal : Bool} {Δ : Pairing} {s s' : Stmt}
    (h : Stmt.Variant False isLocal Δ s s') : s.Varies s' := by
  cases h with
  | congruent h => exact ⟨isLocal, Δ, h⟩
  | braced hbraces => exact hbraces.elim

theorem BodyVariant.varies {isLocal : Bool} {Δ : Pairing} {ss ss' : List Stmt}
    (h : BodyVariant False isLocal Δ ss ss') : List.Forall₂ Stmt.Varies ss ss' := by
  induction ss generalizing Δ ss' with
  | nil =>
    cases h
    exact .nil
  | cons s ss ih =>
    cases h with
    | cons hs hss => exact .cons hs.varies (ih hss)

theorem MethodsVariant.varies {Δ : Pairing} {ms ms' : List Routine}
    (h : MethodsVariant False Δ ms ms') :
    List.Forall₂ (fun m m' => Stmt.Varies (.function m) (.function m')) ms ms' := by
  induction ms generalizing ms' with
  | nil =>
    cases h
    exact .nil
  | cons m ms ih =>
    cases h with
    | cons hm hms => exact .cons ⟨false, Δ, .function hm⟩ (ih hms)

namespace Grammar

variable {ts : List Token} {Δ : Pairing}

/-! ### Expressions -/

theorem Rank.join_variant {r : Rank} {left right e' : Expr} {t : Token}
    (h : (r.join left t right).Variant Δ e') :
    ∃ left' right', e' = r.join left' t right' ∧ left.Variant Δ left' ∧
      right.Variant Δ right' := by
  cases r
  case disjunction | conjunction =>
    cases h with
    | logical hl _ hr => exact ⟨_, _, rfl, hl, hr⟩
  all_goals
    cases h with
    | binary hl _ hr => exact ⟨_, _, rfl, hl, hr⟩

theorem Separated.respelled {parts parts' : List (List Token)} (h : Separated parts ts)
    (hparts : List.Forall₂ Respelled parts parts') :
    ∃ ts', Separated parts' ts' ∧ Respelled ts ts' := by
  induction h generalizing parts' with
  | none =>
    cases hparts
    exact ⟨[], .none, .nil⟩
  | one ts =>
    obtain ⟨ts', _, hts, hnil, rfl⟩ := List.forall₂_cons_left_iff.1 hparts
    cases hnil
    exact ⟨ts', .one ts', hts⟩
  | @more ts us next parts comma hcomma _ ih =>
    obtain ⟨ts', _, hts, hrest, rfl⟩ := List.forall₂_cons_left_iff.1 hparts
    obtain ⟨us', hus, hrespelled⟩ := ih hrest
    obtain ⟨next', parts', -, -, rfl⟩ := List.forall₂_cons_left_iff.1 hrest
    exact ⟨_, .more hcomma hus, hts.append (hrespelled.keep comma)⟩

/-- Tokens for each of several trees. -/
theorem exists_parts {α : Type} {P : List Token → α → Prop} {V : α → α → Prop}
    {parts : List (List Token × α)}
    (h : ∀ d ∈ parts, ∀ a', V d.2 a' → ∃ ts', P ts' a' ∧ Respelled d.1 ts') {as' : List α}
    (hv : List.Forall₂ V (parts.map Prod.snd) as') :
    ∃ parts' : List (List Token × α), as' = parts'.map Prod.snd ∧ (∀ d ∈ parts', P d.1 d.2) ∧
      List.Forall₂ Respelled (parts.map Prod.fst) (parts'.map Prod.fst) := by
  induction parts generalizing as' with
  | nil =>
    cases hv
    exact ⟨[], rfl, by simp, .nil⟩
  | cons d parts ih =>
    obtain ⟨a', as', ha, has, rfl⟩ := List.forall₂_cons_left_iff.1 hv
    obtain ⟨hd, hparts⟩ := List.forall_mem_cons.1 h
    obtain ⟨ts', hts', hrespelled⟩ := hd a' ha
    obtain ⟨parts', rfl, hP, hall⟩ := ih hparts has
    exact ⟨(ts', a') :: parts', rfl, List.forall_mem_cons.2 ⟨hts', hP⟩, .cons hrespelled hall⟩

/-- **The tokens of an expression with other names.** -/
theorem Derives.variant {r : Rank} {e e' : Expr} (h : Derives r ts e) (hv : e.Variant Δ e') :
    ∃ ts', Derives r ts' e' ∧ Respelled ts ts' := by
  induction h generalizing e' with
  | tighter hr _ ih =>
    obtain ⟨ts', he, hts⟩ := ih hv
    exact ⟨ts', .tighter hr he, hts⟩
  | @assign _ equals _ _ hname hequals _ ih =>
    cases hv with
    | assign href he =>
      obtain ⟨ts', hvalue, hts⟩ := ih he
      exact ⟨_, .assign (href.token.kind_eq.trans hname) hequals hvalue,
        (hts.keep equals).name hname href.token⟩
  | set _ hdot hname hequals _ ihobject ihvalue =>
    cases hv with
    | set ho _ he =>
      obtain ⟨os', hobject, hos⟩ := ihobject ho
      obtain ⟨ts', hvalue, hts⟩ := ihvalue he
      exact ⟨_, .set hobject hdot hname hequals hvalue,
        hos.append (((hts.keep _).keep _).keep _)⟩
  | operator hr _ ht _ ihleft ihright =>
    obtain ⟨left', right', rfl, hl, hr'⟩ := Rank.join_variant hv
    obtain ⟨ls', hleft, hls⟩ := ihleft hl
    obtain ⟨rs', hright, hrs⟩ := ihright hr'
    exact ⟨_, .operator hr hleft ht hright, hls.append (hrs.keep _)⟩
  | unary ht _ ih =>
    cases hv with
    | unary _ he =>
      obtain ⟨ts', he', hts⟩ := ih he
      exact ⟨_, .unary ht he', hts.keep _⟩
  | @call fs as callee arguments opening closing _ hopening hcommas _ hlength hclosing ihcallee
      iharguments =>
    cases hv with
    | call hf _ hes =>
      obtain ⟨fs', hcallee, hfs⟩ := ihcallee hf
      obtain ⟨arguments', rfl, harguments, hparts⟩ :=
        exists_parts (fun a ha e' he' => iharguments a ha he') hes
      obtain ⟨as', hcommas', has⟩ := hcommas.respelled hparts
      have hsame : arguments.length = arguments'.length := by simpa using hparts.length_eq
      exact ⟨_, .call hcallee hopening hcommas' harguments (hsame ▸ hlength) hclosing,
        (hfs.append (has.keep opening)).append (.refl [closing])⟩
  | get _ hdot hname ih =>
    cases hv with
    | get ho _ =>
      obtain ⟨os', hobject, hos⟩ := ih ho
      exact ⟨_, .get hobject hdot hname, hos.append (.refl _)⟩
  | false_ ht =>
    cases hv
    exact ⟨_, .false_ ht, .refl _⟩
  | true_ ht =>
    cases hv
    exact ⟨_, .true_ ht, .refl _⟩
  | nil ht =>
    cases hv
    exact ⟨_, .nil ht, .refl _⟩
  | literal ht =>
    cases hv
    exact ⟨_, .literal ht, .refl _⟩
  | name ht =>
    cases hv with
    | «variable» href =>
      exact ⟨_, .name (href.token.kind_eq.trans ht), .name ht href.token .nil⟩
  | this ht =>
    cases hv
    exact ⟨_, .this ht, .refl _⟩
  | super ht hdot hmethod =>
    cases hv
    exact ⟨_, .super ht hdot hmethod, .refl _⟩
  | grouping hopening _ hclosing ih =>
    cases hv with
    | grouping he =>
      obtain ⟨ts', hinner, hts⟩ := ih he
      exact ⟨_, .grouping hopening hinner hclosing, (hts.keep _).append (.refl _)⟩

/-! ### Statements -/

theorem Optional.variant {e? e'? : Option Expr} (h : Optional (Derives .assignment) ts e?)
    (hv : OptionalVariant Δ e? e'?) :
    ∃ ts', Optional (Derives .assignment) ts' e'? ∧ Respelled ts ts' := by
  cases h with
  | none =>
    cases hv
    exact ⟨[], .none, .nil⟩
  | some he =>
    cases hv with
    | some hv =>
      obtain ⟨ts', he', hts⟩ := he.variant hv
      exact ⟨ts', .some he', hts⟩

theorem Condition.variant {c c' : Expr} (h : Condition ts c) (hv : c.Variant Δ c') :
    ∃ ts', Condition ts' c' ∧ Respelled ts ts' := by
  cases h with
  | mk hopening he hclosing =>
    obtain ⟨ts', he', hts⟩ := he.variant hv
    exact ⟨_, .mk hopening he' hclosing, (hts.keep _).append (.refl _)⟩

theorem Variable.varies {s s' : Stmt} (h : Variable ts s) (hv : s.Varies s') :
    ∃ ts', Variable ts' s' ∧ Respelled ts ts' := by
  obtain ⟨isLocal, Δ, hv⟩ := hv
  cases h with
  | @mk var name semicolon _ _ hvar hname hinitializer hsemicolon =>
    cases hv with
    | var htoken _ he =>
      have hname' := htoken.kind_eq.trans hname
      cases hinitializer with
      | none =>
        cases he
        exact ⟨_, .mk hvar hname' .none hsemicolon,
          (Respelled.name hname htoken (.refl [semicolon])).keep var⟩
      | some hvalue =>
        cases hvalue with
        | mk hequals hvalue =>
          cases he with
          | some he =>
            obtain ⟨ts', hvalue', hts⟩ := hvalue.variant he
            exact ⟨_, .mk hvar hname' (.some (.mk hequals hvalue')) hsemicolon,
              (((hts.keep _).name hname htoken).keep var).append (.refl [semicolon])⟩

theorem ExpressionStatement.varies {s s' : Stmt} (h : ExpressionStatement ts s)
    (hv : s.Varies s') : ∃ ts', ExpressionStatement ts' s' ∧ Respelled ts ts' := by
  obtain ⟨isLocal, Δ, hv⟩ := hv
  cases h with
  | mk he hsemicolon =>
    cases hv with
    | expression hv =>
      obtain ⟨ts', he', hts⟩ := he.variant hv
      exact ⟨_, .mk he' hsemicolon, hts.append (.refl _)⟩

theorem ForInitializer.varies {s? s'? : Option Stmt} (h : ForInitializer ts s?)
    (hv : Option.Rel Stmt.Varies s? s'?) :
    ∃ ts', ForInitializer ts' s'? ∧ Respelled ts ts' := by
  cases h with
  | none hsemicolon =>
    cases hv
    exact ⟨_, .none hsemicolon, .refl _⟩
  | var hs =>
    cases hv with
    | some hv =>
      obtain ⟨ts', hs', hts⟩ := hs.varies hv
      exact ⟨ts', .var hs', hts⟩
  | expression hs =>
    cases hv with
    | some hv =>
      obtain ⟨ts', hs', hts⟩ := hs.varies hv
      exact ⟨ts', .expression hs', hts⟩

end Grammar

/-- A loop without an initializer, with other names. -/
theorem Stmt.Varies.loop {c? u? : Option Expr} {s s' : Stmt}
    (h : (Stmt.forLoop none c? u? s).Varies s') :
    ∃ c'? u'? t, s' = .forLoop none c'? u'? t ∧ (∃ Δ, OptionalVariant Δ c? c'?) ∧
      (∃ Δ, OptionalVariant Δ u? u'?) ∧ s.Varies t := by
  obtain ⟨isLocal, Δ, h⟩ := h
  cases h with
  | @loop _ _ _ c' _ body' hc hbody hd =>
    obtain ⟨c'?, rfl, hc'⟩ : ∃ c'? : Option Expr, c' = c'?.getD (.literal (.bool true)) ∧
        OptionalVariant Δ c? c'? := by
      cases c? with
      | none =>
        cases hc
        exact ⟨none, rfl, .none⟩
      | some c => exact ⟨some c', rfl, .some hc⟩
    cases u? with
    | none => exact ⟨c'?, none, body', rfl, ⟨Δ, hc'⟩, ⟨Δ, .none⟩, hbody.varies⟩
    | some u =>
      obtain ⟨_, _, hblock⟩ := hbody.varies
      cases hblock with
      | block hboth =>
        cases hboth with
        | cons hs hrest =>
          cases hrest with
          | cons hu hnil =>
            cases hnil
            obtain ⟨_, Δ', hu⟩ := hu.varies
            cases hu with
            | @expression _ _ _ u' he =>
              exact ⟨c'?, some u', _, rfl, ⟨Δ, hc'⟩, ⟨Δ', .some he⟩, hs.varies⟩

/-- A loop with other names. -/
theorem Stmt.Varies.forLoop {i? : Option Stmt} {c? u? : Option Expr} {s s' : Stmt}
    (h : (Stmt.forLoop i? c? u? s).Varies s') :
    ∃ i'? c'? u'? t, s' = .forLoop i'? c'? u'? t ∧ Option.Rel Stmt.Varies i? i'? ∧
      (∃ Δ, OptionalVariant Δ c? c'?) ∧ (∃ Δ, OptionalVariant Δ u? u'?) ∧ s.Varies t := by
  cases i? with
  | none =>
    obtain ⟨c'?, u'?, t, rfl, hparts⟩ := h.loop
    exact ⟨none, c'?, u'?, t, rfl, .none, hparts⟩
  | some i =>
    obtain ⟨_, _, hblock⟩ := h
    cases hblock with
    | block hboth =>
      cases hboth with
      | cons hi hrest =>
        cases hrest with
        | cons hloop hnil =>
          cases hnil
          obtain ⟨c'?, u'?, t, rfl, hparts⟩ := Stmt.Varies.loop hloop.varies
          exact ⟨some _, c'?, u'?, t, rfl, .some hi.varies, hparts⟩

namespace Grammar

theorem respelled_parameters {params params' : List Token}
    (h : List.Forall₂ Token.Respells params params')
    (hparams : ∀ p ∈ params, p.kind = .identifier) :
    List.Forall₂ Respelled (params.map fun p => [p]) (params'.map fun p => [p]) ∧
      ∀ p ∈ params', p.kind = .identifier := by
  induction h with
  | nil => exact ⟨.nil, nofun⟩
  | cons hp _ ih =>
    obtain ⟨hkind, hparams⟩ := List.forall_mem_cons.1 hparams
    obtain ⟨hparts, hparams'⟩ := ih hparams
    exact ⟨.cons (.name hkind hp .nil) hparts,
      List.forall_mem_cons.2 ⟨hp.kind_eq.trans hkind, hparams'⟩⟩

/-- A class with other names. -/
theorem class_varies {ts : List Token} {isLocal : Bool} {Δ : Pairing} {name : Token}
    {superclass : Option Reference} {methods : List Routine} {s' : Stmt}
    (h : Optional Superclass ts superclass)
    (hv : Stmt.Congruent False isLocal Δ (.classDecl name superclass methods) s') :
    ∃ superclass' methods', s' = .classDecl name superclass' methods' ∧
      (∃ ts', Optional Superclass ts' superclass' ∧ Respelled ts ts') ∧
      List.Forall₂ (fun m m' => Stmt.Varies (.function m) (.function m')) methods methods' := by
  cases hv with
  | base _ hms =>
    cases h
    exact ⟨none, _, rfl, ⟨[], .none, .nil⟩, hms.varies⟩
  | @derived _ _ _ ref ref' _ _ href hms =>
    cases h with
    | some h =>
      cases h with
      | @mk less _ hless hname =>
        refine ⟨some ref', _, rfl, ⟨_, .some (.mk hless (href.token.kind_eq.trans hname)), ?_⟩,
          hms.varies⟩
        exact (Respelled.name hname href.token .nil).keep less

/-- **The tokens of a statement with other names.** -/
theorem Parses.varies {ts : List Token} {part : Part} {s s' : Stmt} (h : Parses part ts s)
    (hv : s.Varies s') : ∃ ts', Parses part ts' s' ∧ Respelled ts ts' := by
  induction h generalizing s' with
  | @routine name opening closing brace brace' params ps body hname hopening hcommas hparams hlength
      hclosing hbrace _ hbrace' ih =>
    obtain ⟨_, _, hv⟩ := hv
    cases hv with
    | function hr =>
      cases hr with
      | mk _ hrespells hbody =>
        obtain ⟨hparts, hparams'⟩ := respelled_parameters hrespells hparams
        obtain ⟨ps', hcommas', hps⟩ := hcommas.respelled hparts
        obtain ⟨body', rfl, hbody', hall⟩ :=
          exists_parts (fun d hd s' hs' => ih d hd hs') hbody.varies
        refine ⟨_, .routine hname hopening hcommas' hparams' (hrespells.length_eq ▸ hlength)
          hclosing hbrace hbody' hbrace', ?_⟩
        exact (((hps.keep opening).keep name).append
          (Respelled.keep closing (.keep brace (List.rel_flatten hall)))).append (.refl [brace'])
  | @classDecl word name brace brace' ss superclass methods hword hname hsuperclass hbrace _ hbrace'
      ih =>
    obtain ⟨_, _, hv⟩ := hv
    obtain ⟨superclass', methods', rfl, ⟨ss', hsuperclass', hss⟩, hms⟩ :=
      class_varies hsuperclass hv
    obtain ⟨methods', rfl, hmethods', hall⟩ :=
      exists_parts (P := fun ts m => Parses .routine ts (.function m))
        (fun d hd m' hm' => ih d hd hm') hms
    refine ⟨_, .classDecl hword hname hsuperclass' hbrace hmethods' hbrace', ?_⟩
    exact ((hss.keep name).keep word).append (Respelled.keep brace (List.rel_flatten hall))
      |>.append (.refl [brace'])
  | function hword _ ih =>
    obtain ⟨ts', hs', hts⟩ := ih hv
    exact ⟨_, .function hword hs', hts.keep _⟩
  | var hs =>
    obtain ⟨ts', hs', hts⟩ := hs.varies hv
    exact ⟨ts', .var hs', hts⟩
  | statement _ ih =>
    obtain ⟨ts', hs', hts⟩ := ih hv
    exact ⟨ts', .statement hs', hts⟩
  | expression hs =>
    obtain ⟨ts', hs', hts⟩ := hs.varies hv
    exact ⟨ts', .expression hs', hts⟩
  | print hword he hsemicolon =>
    obtain ⟨_, _, hv⟩ := hv
    cases hv with
    | print hv =>
      obtain ⟨ts', he', hts⟩ := he.variant hv
      exact ⟨_, .print hword he' hsemicolon, (hts.keep _).append (.refl _)⟩
  | ret hword hvalue hsemicolon =>
    obtain ⟨_, _, hv⟩ := hv
    cases hv with
    | ret _ hv =>
      obtain ⟨ts', hvalue', hts⟩ := hvalue.variant hv
      exact ⟨_, .ret hword hvalue' hsemicolon, (hts.keep _).append (.refl _)⟩
  | block hbrace _ hbrace' ih =>
    obtain ⟨_, _, hv⟩ := hv
    cases hv with
    | block hbody =>
      obtain ⟨body', rfl, hbody', hparts⟩ :=
        exists_parts (fun d hd s' hs' => ih d hd hs') hbody.varies
      exact ⟨_, .block hbrace hbody' hbrace',
        (Respelled.keep _ (List.rel_flatten hparts)).append (.refl _)⟩
  | ifThen hword hcondition _ ih =>
    obtain ⟨_, _, hv⟩ := hv
    cases hv with
    | cond hc ht _ =>
      obtain ⟨cs', hcondition', hcs⟩ := hcondition.variant hc
      obtain ⟨ts', hs', hts⟩ := ih ht.varies
      exact ⟨_, .ifThen hword hcondition' hs', (hcs.keep _).append hts⟩
  | ifThenElse hword hcondition _ hword' _ ih ih' =>
    obtain ⟨_, _, hv⟩ := hv
    cases hv with
    | condElse hc ht _ he _ =>
      obtain ⟨cs', hcondition', hcs⟩ := hcondition.variant hc
      obtain ⟨ts', hs, hts⟩ := ih ht.varies
      obtain ⟨us', hs', hus⟩ := ih' he.varies
      exact ⟨_, .ifThenElse hword hcondition' hs hword' hs',
        ((hcs.keep _).append hts).append (hus.keep _)⟩
  | whileLoop hword hcondition _ ih =>
    obtain ⟨_, _, hv⟩ := hv
    cases hv with
    | loop hc hs _ =>
      obtain ⟨cs', hcondition', hcs⟩ := hcondition.variant hc
      obtain ⟨ts', hs', hts⟩ := ih hs.varies
      exact ⟨_, .whileLoop hword hcondition' hs', (hcs.keep _).append hts⟩
  | forLoop hword hopening hinitializer hcondition hsemicolon hincrement hclosing _ ih =>
    obtain ⟨i'?, c'?, u'?, t, rfl, hi, ⟨_, hc⟩, ⟨_, hu⟩, hs⟩ := hv.forLoop
    obtain ⟨is', hinitializer', his⟩ := hinitializer.varies hi
    obtain ⟨cs', hcondition', hcs⟩ := hcondition.variant hc
    obtain ⟨us', hincrement', hus⟩ := hincrement.variant hu
    obtain ⟨ts', hs', hts⟩ := ih hs
    exact ⟨_, .forLoop hword hopening hinitializer' hcondition' hsemicolon hincrement' hclosing hs',
      ((((his.keep _).keep _).append hcs).append (hus.keep _)).append (hts.keep _)⟩

/-- **The tokens of a program with other names.** -/
theorem Program.varies {ts : List Token} {program program' : List Stmt}
    (h : Program ts program) (hv : List.Forall₂ Stmt.Varies program program') :
    ∃ ts', Program ts' program' ∧ Respelled ts ts' := by
  obtain ⟨parts, hparts, rfl, rfl⟩ := h
  obtain ⟨parts', rfl, hparts', hall⟩ :=
    exists_parts (fun d hd s' hs' => (hparts d hd).varies hs') hv
  exact ⟨_, ⟨parts', hparts', rfl, rfl⟩, List.rel_flatten hall⟩

end Grammar

end Lox
