/-
**What is in the grammar is parsed.**

The rules for operators, calls and property accesses are left-recursive, while the parser reads an
operand of the tighter rank first and then goes on as long as it can.  A derivation is therefore
unrolled: it is an operand with a run of operators or of selectors behind it.

The parser stops behind an expression if nothing is next that could go on with it.

Main definitions:

* `Lox.Operands`, `Lox.Selectors` — **what stands behind an operand**, from the left to the right;
* `Lox.continuations` — the kinds of tokens that go on with an expression;
* `Lox.CompleteExpr` — what is known of the parse steps with a given amount of fuel.

Main results:

* `Lox.Grammar.Derives.operands`, `Lox.Grammar.Derives.selectors` — derivations unrolled;
* `Lox.completeExpr` — **parse steps read what the grammar derives**.
-/

import Lox.Proofs.Grammar.Reading
import Lox.Proofs.Grammar.Soundness.Expression

set_option relaxedAutoImplicit false
set_option autoImplicit false

namespace Lox

open Grammar

/-! ### Derivations unrolled -/

/-- Operators of the rank `r` and their right operands of the rank `r'`, behind a left operand. -/
inductive Operands (r r' : Rank) : Expr → List Token → Expr → Prop
  | nil (e : Expr) : Operands r r' e [] e
  | cons {left right e : Expr} {t : Token} {rs us : List Token} (ht : t.kind ∈ r.operators)
      (hright : Derives r' rs right) (hrun : Operands r r' (r.join left t right) us e) :
      Operands r r' left (t :: (rs ++ us)) e

theorem Operands.snoc {r r' : Rank} {left right e : Expr} {us rs : List Token} {t : Token}
    (h : Operands r r' left us e) (ht : t.kind ∈ r.operators) (hright : Derives r' rs right) :
    Operands r r' left (us ++ t :: rs) (r.join e t right) := by
  induction h with
  | nil e =>
    have hone := Operands.cons ht hright (.nil (r.join e t right))
    rw [List.append_nil] at hone
    exact hone
  | cons ht' hright' _ ih =>
    have hmore := Operands.cons ht' hright' ih
    rw [List.cons_append, List.append_assoc]
    exact hmore

/-- An expression of a rank of binary operators: an operand with operators behind it. -/
theorem Grammar.Derives.operands {r r' : Rank} {ts : List Token} {e : Expr} (h : Derives r ts e)
    (hr : r.next? = some r') (hoperators : r.operators ≠ []) :
    ∃ os us o, ts = os ++ us ∧ Derives r' os o ∧ Operands r r' o us e := by
  induction h with
  | tighter hr' he =>
    obtain rfl := Option.some.inj (hr.symm.trans hr')
    exact ⟨_, [], _, (List.append_nil _).symm, he, .nil _⟩
  | operator hr' _ ht hright ih _ =>
    obtain rfl := Option.some.inj (hr.symm.trans hr')
    obtain ⟨os, us, o, rfl, ho, hrun⟩ := ih hr hoperators
    exact ⟨os, _, o, List.append_assoc .., ho, hrun.snoc ht hright⟩
  | _ => exact absurd rfl hoperators

/-- Calls and property accesses behind an expression. -/
inductive Selectors : Expr → List Token → Expr → Prop
  | nil (e : Expr) : Selectors e [] e
  | call {callee e : Expr} {as us : List Token} {arguments : List (List Token × Expr)}
      {opening closing : Token} (hopening : opening.kind = .symbol .leftParen)
      (hcommas : Separated (arguments.map Prod.fst) as)
      (harguments : ∀ a ∈ arguments, Derives .assignment a.1 a.2)
      (hlength : arguments.length ≤ 255) (hclosing : closing.kind = .symbol .rightParen)
      (hrun : Selectors (.call callee closing (arguments.map Prod.snd)) us e) :
      Selectors callee (opening :: (as ++ closing :: us)) e
  | get {object e : Expr} {dot name : Token} {us : List Token} (hdot : dot.kind = .symbol .dot)
      (hname : name.kind = .identifier) (hrun : Selectors (.get object name) us e) :
      Selectors object (dot :: name :: us) e

theorem Selectors.trans {e e' e'' : Expr} {us vs : List Token} (h : Selectors e us e')
    (h' : Selectors e' vs e'') : Selectors e (us ++ vs) e'' := by
  induction h with
  | nil e => exact h'
  | call hopening hcommas harguments hlength hclosing _ ih =>
    have hmore := Selectors.call hopening hcommas harguments hlength hclosing (ih h')
    rw [List.cons_append, List.append_assoc, List.cons_append]
    exact hmore
  | get hdot hname _ ih => exact .get hdot hname (ih h')

/-- An expression with calls and property accesses: a primary one with selectors behind it. -/
theorem Grammar.Derives.selectors {r : Rank} {ts : List Token} {e : Expr} (h : Derives r ts e)
    (hr : r = .call) : ∃ os us o, ts = os ++ us ∧ Derives .primary os o ∧ Selectors o us e := by
  induction h with
  | tighter hr' he =>
    subst hr
    obtain rfl := Option.some.inj hr'
    exact ⟨_, [], _, (List.append_nil _).symm, he, .nil _⟩
  | operator _ _ ht =>
    subst hr
    cases ht
  | call _ hopening hcommas harguments hlength hclosing ih _ =>
    obtain ⟨os, us, o, rfl, ho, hrun⟩ := ih rfl
    refine ⟨os, _, o, ?_, ho,
      hrun.trans (.call hopening hcommas harguments hlength hclosing (.nil _))⟩
    simp only [List.append_assoc, List.cons_append]
  | get _ hdot hname ih =>
    obtain ⟨os, us, o, rfl, ho, hrun⟩ := ih rfl
    exact ⟨os, _, o, List.append_assoc .., ho, hrun.trans (.get hdot hname (.nil _))⟩
  | _ => cases hr

/-! ### Kinds of tokens -/

/-- The kinds of tokens that a primary expression begins with. -/
def primaryKinds : List Token.Kind :=
  [.keyword .false_, .keyword .true_, .keyword .nil, .number, .string, .keyword .super,
    .keyword .this, .identifier, .symbol .leftParen]

/-- The kinds of tokens that go on with an expression of the given levels. -/
def continuations : List Level → List Token.Kind
  | [] => [.symbol .leftParen, .symbol .dot]
  | level :: tighter => level.operators ++ continuations tighter

/-- The kinds of tokens that go on with an expression. -/
def exprContinuations : List Token.Kind := .symbol .equal :: continuations Level.ladder

/-- An operator of a level does not go on with an operand of it. -/
theorem operator_not_continuation {level : Level} {tighter : List Level}
    (h : (level :: tighter) <:+ Level.ladder) :
    ∀ k ∈ level.operators, k ∉ continuations tighter := by
  simp only [Level.ladder, List.suffix_cons_iff, List.cons.injEq, List.suffix_nil] at h
  rcases h with ⟨rfl, rfl⟩ | ⟨rfl, rfl⟩ | ⟨rfl, rfl⟩ | ⟨rfl, rfl⟩ | ⟨rfl, rfl⟩ | ⟨rfl, rfl⟩ | h
  all_goals first | decide | exact absurd h (by simp)

/-- The first token of a primary expression. -/
theorem Grammar.Derives.primary_starts {ts : List Token} {e : Expr} (h : Derives .primary ts e) :
    ∃ t us, ts = t :: us ∧ t.kind ∈ primaryKinds := by
  cases h with
  | tighter hr => cases hr
  | operator _ _ ht => cases ht
  | literal ht =>
    refine ⟨_, _, rfl, ?_⟩
    rcases ht with ht | ht <;> rw [ht] <;> decide
  | false_ ht | true_ ht | nil ht | name ht | this ht | super ht | grouping ht =>
    exact ⟨_, _, rfl, by rw [ht]; decide⟩

/-- The first token of an expression. -/
theorem Grammar.Derives.starts {r : Rank} {ts : List Token} {e : Expr} (h : Derives r ts e) :
    ∃ t us, ts = t :: us ∧ t.kind ∈ unaryOperators ++ primaryKinds := by
  induction h with
  | tighter _ _ ih => exact ih
  | assign hname => exact ⟨_, _, rfl, by rw [hname]; decide⟩
  | unary ht =>
    refine ⟨_, _, rfl, List.mem_append_left _ ?_⟩
    simpa [unaryOperators] using ht
  | set _ _ _ _ _ ih _ | operator _ _ _ _ ih _ | call _ _ _ _ _ _ ih _ | get _ _ _ ih =>
    obtain ⟨t, us, rfl, ht⟩ := ih
    exact ⟨t, _, rfl, ht⟩
  | literal ht =>
    refine ⟨_, _, rfl, ?_⟩
    rcases ht with ht | ht <;> rw [ht] <;> decide
  | false_ ht | true_ ht | nil ht | name ht | this ht | super ht | grouping ht =>
    exact ⟨_, _, rfl, by rw [ht]; decide⟩

/-- What an expression does not begin with is not next where one stands. -/
theorem Grammar.Derives.notNext {r : Rank} {ts rest : List Token} {e : Expr}
    {ks : List Token.Kind} (h : Derives r ts e)
    (hks : ∀ k ∈ unaryOperators ++ primaryKinds, k ∉ ks) : NotNext ks (ts ++ rest) := by
  obtain ⟨t, us, rfl, ht⟩ := h.starts
  exact .cons (hks _ ht)

/-- Stretches with commas between them begin with the first one. -/
theorem Grammar.Separated.starts {part : List Token} {parts : List (List Token)} {ts : List Token}
    (h : Separated (part :: parts) ts) : ∃ us, ts = part ++ us := by
  cases h with
  | one => exact ⟨[], (List.append_nil _).symm⟩
  | more => exact ⟨_, rfl⟩

/-! ### Expressions -/

/-- The tree of an operator without numbers. -/
theorem Grammar.Rank.unnumbered_join (r : Rank) (left : Expr) (t : Token) (right : Expr) :
    (r.join left t right).unnumbered = r.join left.unnumbered t right.unnumbered := by
  cases r <;> rfl

/-- An expression matches another if they differ at most in the numbers of references. -/
def Expr.Matches (e a : Expr) : Prop := a.unnumbered = e.unnumbered

/-- What is known of the parse steps for expressions with `n` units of fuel. -/
structure CompleteExpr (n : Nat) : Prop where
  expr : ∀ {ts rest : List Token} {e : Expr}, Derives .assignment ts e →
    NotNext exprContinuations rest → Reads (parseExpr n) ts rest e.Matches
  levels : ∀ {levels : List Level} {ts rest : List Token} {e : Expr}, levels <:+ Level.ladder →
    Derives (rankOf levels) ts e → NotNext (continuations levels) rest →
    Reads (parseLevels n levels) ts rest e.Matches
  operands : ∀ {level : Level} {tighter : List Level} {us rest : List Token} {left left' e : Expr},
    (level :: tighter) <:+ Level.ladder → Operands level.rank (rankOf tighter) left us e →
    left.Matches left' → NotNext (continuations (level :: tighter)) rest →
    Reads (parseOperands n level tighter left') us rest e.Matches
  unary : ∀ {ts rest : List Token} {e : Expr}, Derives .unary ts e →
    NotNext (continuations []) rest → Reads (parseUnary n) ts rest e.Matches
  selectors : ∀ {us rest : List Token} {head head' e : Expr}, Selectors head us e →
    head.Matches head' → NotNext (continuations []) rest →
    Reads (parseSelectors n head') us rest e.Matches
  arguments : ∀ {arguments : List (List Token × Expr)} {ts rest : List Token} {count : Nat},
    Separated (arguments.map Prod.fst) ts → (∀ a ∈ arguments, Derives .assignment a.1 a.2) →
    arguments ≠ [] → count + arguments.length ≤ 255 →
    NotNext (.symbol .comma :: exprContinuations) rest →
    Reads (parseArguments n count) ts rest fun as =>
      unnumberedArguments as = unnumberedArguments (arguments.map Prod.snd)
  primary : ∀ {ts rest : List Token} {e : Expr}, Derives .primary ts e →
    Reads (parsePrimary n) ts rest e.Matches

section

variable {n : Nat} {ts us rest : List Token} {e : Expr}

/-- A name or a property access is also an expression of every looser rank. -/
theorem Grammar.Derives.call_disjunction (h : Derives .call ts e) : Derives .disjunction ts e :=
  .tighter rfl (.tighter rfl (.tighter rfl (.tighter rfl (.tighter rfl (.tighter rfl
    (.tighter rfl h))))))

theorem Expr.Matches.variable_inv {ref : Reference} {a : Expr}
    (h : (Expr.variable ref).Matches a) : ∃ ref', a = .variable ref' ∧ ref'.name = ref.name := by
  cases a with
  | «variable» ref' =>
    refine ⟨ref', rfl, ?_⟩
    simpa [Expr.Matches, Expr.unnumbered, Reference.unnumbered] using h
  | _ => simp [Expr.Matches, Expr.unnumbered] at h

theorem Expr.Matches.get_inv {object : Expr} {name : Token} {a : Expr}
    (h : (Expr.get object name).Matches a) :
    ∃ object', a = .get object' name ∧ object.Matches object' := by
  cases a with
  | get object' name' =>
    simp only [Expr.Matches, Expr.unnumbered, Expr.get.injEq] at h
    obtain ⟨hobject, rfl⟩ := h
    exact ⟨object', rfl, hobject⟩
  | _ => simp [Expr.Matches, Expr.unnumbered] at h

/-- An equals sign does not go on with the left side of an assignment. -/
theorem notNext_of_equal {equals : Token} (hequals : equals.kind = .symbol .equal) :
    NotNext (continuations Level.ladder) (equals :: ts) := by
  refine .cons ?_
  rw [hequals]
  decide

theorem expr_reads (ih : CompleteExpr n) (h : Derives .assignment ts e)
    (hrest : NotNext exprContinuations rest) : Reads (parseExpr (n + 1)) ts rest e.Matches := by
  rw [parseExpr]
  cases h with
  | tighter hr he =>
    obtain rfl := Option.some.inj hr
    have hladder := hrest.mono fun _ hk => List.mem_cons_of_mem _ hk
    refine (ih.levels (List.suffix_refl _) he hladder).last fun a ha => ?_
    refine .acceptNone (hrest.mono ?_) (.pure ha)
    simp [exprContinuations]
  | @assign ref equals vs value hname hequals hvalue =>
    -- The target is parsed as an expression before the `=` is seen.
    have htarget := Derives.call_disjunction (.tighter rfl (.name hname))
    change Reads _ ([ref.name] ++ equals :: vs) rest _
    refine .bind (ih.levels (List.suffix_refl _) htarget (notNext_of_equal hequals)) fun a ha => ?_
    obtain ⟨ref', rfl, href⟩ := ha.variable_inv
    refine .accept hequals ((ih.expr hvalue hrest).last fun v hv => ?_)
    refine (Reads.newReference _).map fun r hr => ?_
    simp only [Expr.Matches, Expr.unnumbered, Reference.unnumbered, hr, href]
    rw [hv]
  | @set os vs object value dot name equals hobject hdot hname hequals hvalue =>
    have htarget := Derives.call_disjunction (.get hobject hdot hname)
    have hts : os ++ dot :: name :: equals :: vs = (os ++ [dot, name]) ++ equals :: vs := by simp
    rw [hts]
    refine .bind (ih.levels (List.suffix_refl _) htarget (notNext_of_equal hequals)) fun a ha => ?_
    obtain ⟨object', rfl, hobject'⟩ := ha.get_inv
    refine .accept hequals ((ih.expr hvalue hrest).map fun v hv => ?_)
    simp only [Expr.Matches, Expr.unnumbered]
    rw [hv, hobject']
  | operator _ _ ht => cases ht

/-- Neither the operators behind an operand nor what is behind all of them go on with it. -/
theorem Operands.notNext {level : Level} {tighter : List Level} {r' : Rank} {left : Expr}
    (h : Operands level.rank r' left us e) (hladder : (level :: tighter) <:+ Level.ladder)
    (hrest : NotNext (continuations (level :: tighter)) rest) :
    NotNext (continuations tighter) (us ++ rest) := by
  cases h with
  | nil => exact hrest.mono fun _ hk => List.mem_append_right _ hk
  | cons ht =>
    exact .cons (operator_not_continuation hladder _ ((level.mem_operators_rank _).1 ht))

theorem levels_reads (ih : CompleteExpr n) {levels : List Level} (hladder : levels <:+ Level.ladder)
    (h : Derives (rankOf levels) ts e) (hrest : NotNext (continuations levels) rest) :
    Reads (parseLevels (n + 1) levels) ts rest e.Matches := by
  cases levels with
  | nil => exact ih.unary h hrest
  | cons level tighter =>
    rw [parseLevels]
    have hoperators : level.rank.operators ≠ [] := by cases level <;> decide
    obtain ⟨os, us, o, rfl, ho, hrun⟩ := h.operands (rank_of_suffix hladder) hoperators
    have htighter := (List.suffix_cons level tighter).trans hladder
    have hnext := hrun.notNext hladder hrest
    exact (ih.levels htighter ho hnext).bind fun left hleft => ih.operands hladder hrun hleft hrest

theorem operands_reads (ih : CompleteExpr n) {level : Level} {tighter : List Level}
    {left left' : Expr} (hladder : (level :: tighter) <:+ Level.ladder)
    (h : Operands level.rank (rankOf tighter) left us e) (hleft : left.Matches left')
    (hrest : NotNext (continuations (level :: tighter)) rest) :
    Reads (parseOperands (n + 1) level tighter left') us rest e.Matches := by
  rw [parseOperands]
  cases h with
  | nil =>
    exact .acceptNone (hrest.mono fun _ hk => List.mem_append_left _ hk) (.pure hleft)
  | @cons _ right _ t rs us ht hright hrun =>
    refine .acceptAny ((level.mem_operators_rank _).1 ht) ?_
    have htighter := (List.suffix_cons level tighter).trans hladder
    have hnext := hrun.notNext hladder hrest
    refine (ih.levels htighter hright hnext).bind fun right' hright' => ?_
    refine ih.operands hladder hrun ?_ hrest
    rw [Level.combine_eq_join]
    unfold Expr.Matches
    rw [Rank.unnumbered_join, Rank.unnumbered_join, hleft, hright']

theorem unary_reads (ih : CompleteExpr n) (h : Derives .unary ts e)
    (hrest : NotNext (continuations []) rest) : Reads (parseUnary (n + 1)) ts rest e.Matches := by
  rw [parseUnary]
  cases h with
  | tighter hr he =>
    obtain rfl := Option.some.inj hr
    obtain ⟨os, us, o, rfl, ho, hrun⟩ := he.selectors rfl
    refine .acceptNone ?_ ((ih.primary ho).bind fun head hhead => ih.selectors hrun hhead hrest)
    obtain ⟨t, vs, rfl, ht⟩ := ho.primary_starts
    have hkinds : ∀ k ∈ primaryKinds, k ∉ unaryOperators := by decide
    exact .cons (hkinds _ ht)
  | operator _ _ ht => cases ht
  | unary ht he =>
    refine .acceptAny (by simpa [unaryOperators] using ht) ((ih.unary he hrest).map fun a ha => ?_)
    simp only [Expr.Matches, Expr.unnumbered]
    rw [ha]

theorem selectors_reads (ih : CompleteExpr n) {head head' : Expr} (h : Selectors head us e)
    (hhead : head.Matches head') (hrest : NotNext (continuations []) rest) :
    Reads (parseSelectors (n + 1) head') us rest e.Matches := by
  rw [parseSelectors]
  cases h with
  | nil => exact .acceptNone hrest (.pure hhead)
  | @call _ _ as us arguments opening closing hopening hcommas harguments hlength hclosing hrun =>
    refine .acceptAny (by simp [hopening]) ?_
    simp only [hopening, beq_self_eq_true, if_true]
    have hread : Reads (Parse.unlessNext (.symbol .rightParen) [] (parseArguments n 0)) as
        (closing :: us ++ rest) fun as =>
          unnumberedArguments as = unnumberedArguments (arguments.map Prod.snd) := by
      -- Without arguments the closing parenthesis is next, and no expression is tried.
      by_cases hnil : arguments = []
      · subst hnil
        cases hcommas
        exact .unlessNextAbsent hclosing rfl
      · have hclose : NotNext (.symbol .comma :: exprContinuations) (closing :: us ++ rest) := by
          refine .cons ?_
          rw [hclosing]
          decide
        refine .unlessNext ?_ (ih.arguments hcommas harguments hnil (by omega) hclose)
        obtain ⟨a, arguments, rfl⟩ := List.exists_cons_of_ne_nil hnil
        obtain ⟨vs, rfl⟩ := hcommas.starts
        rw [List.append_assoc]
        exact (harguments a (List.mem_cons_self ..)).notNext (by decide)
    refine hread.bind fun as' has => .expect hclosing ?_
    refine ih.selectors hrun ?_ hrest
    simp only [Expr.Matches, Expr.unnumbered]
    rw [hhead, has]
  | get hdot hname hrun =>
    refine .acceptAny (by simp [hdot]) ?_
    simp only [hdot, beq_iff_eq, Token.Kind.symbol.injEq, reduceCtorEq, if_false]
    refine .expect hname (ih.selectors hrun ?_ hrest)
    simp only [Expr.Matches, Expr.unnumbered]
    rw [hhead]

theorem arguments_reads (ih : CompleteExpr n) {arguments : List (List Token × Expr)} {count : Nat}
    (hcommas : Separated (arguments.map Prod.fst) ts)
    (harguments : ∀ a ∈ arguments, Derives .assignment a.1 a.2) (hne : arguments ≠ [])
    (hlength : count + arguments.length ≤ 255)
    (hrest : NotNext (.symbol .comma :: exprContinuations) rest) :
    Reads (parseArguments (n + 1) count) ts rest fun as =>
      unnumberedArguments as = unnumberedArguments (arguments.map Prod.snd) := by
  obtain ⟨⟨as, a⟩, arguments, rfl⟩ := List.exists_cons_of_ne_nil hne
  have ha : Derives .assignment as a := harguments (as, a) (List.mem_cons_self ..)
  rw [List.length_cons] at hlength
  rw [parseArguments]
  refine .reportIf _ (decide_eq_false (by rw [maxArguments]; omega)) ?_
  cases arguments with
  | nil =>
    obtain rfl : ts = as := by cases hcommas; rfl
    refine (ih.expr ha (hrest.mono fun _ hk => List.mem_cons_of_mem _ hk)).last fun a' ha' => ?_
    refine .acceptNone (hrest.mono ?_) (.pure ?_)
    · simp
    · simp only [unnumberedArguments, List.map_cons, List.map_nil]
      rw [ha']
  | cons b arguments =>
    obtain ⟨comma, vs, rfl, hcomma, hmore⟩ : ∃ comma vs, ts = as ++ comma :: vs ∧
        comma.kind = .symbol .comma ∧ Separated ((b :: arguments).map Prod.fst) vs := by
      cases hcommas with
      | more hcomma hmore => exact ⟨_, _, rfl, hcomma, hmore⟩
    have hnext : NotNext exprContinuations (comma :: vs ++ rest) := by
      refine .cons ?_
      rw [hcomma]
      decide
    refine (ih.expr ha hnext).bind fun a' ha' => .accept hcomma ?_
    have htail : ∀ d ∈ b :: arguments, Derives .assignment d.1 d.2 :=
      fun d hd => harguments d (List.mem_cons_of_mem _ hd)
    refine (ih.arguments hmore htail (by simp) (by omega) hrest).map fun more hmore' => ?_
    rw [List.map_cons, unnumberedArguments, unnumberedArguments, ha', hmore']

theorem primary_reads (ih : CompleteExpr n) (h : Derives .primary ts e) :
    Reads (parsePrimary (n + 1)) ts rest e.Matches := by
  rw [parsePrimary]
  cases h with
  | tighter hr => cases hr
  | operator _ _ ht => cases ht
  | false_ ht | true_ ht | nil ht =>
    refine .acceptAny (by simp [ht]) ?_
    simp only [ht]
    exact .pure rfl
  | literal ht =>
    rcases ht with ht | ht
    all_goals
      refine .acceptAny (by simp [ht]) ?_
      simp only [ht]
      exact .pure rfl
  | name ht | this ht =>
    refine .acceptAny (by simp [ht]) ?_
    simp only [ht]
    refine (Reads.newReference _).map fun r hr => ?_
    simp [Expr.Matches, Expr.unnumbered, Reference.unnumbered, hr]
  | super ht hdot hmethod =>
    refine .acceptAny (by simp [ht]) ?_
    simp only [ht]
    refine .expect hdot (.expect hmethod ((Reads.newReference _).map fun r hr => ?_))
    simp [Expr.Matches, Expr.unnumbered, Reference.unnumbered, hr]
  | grouping hopening hinner hclosing =>
    refine .acceptAny (by simp [hopening]) ?_
    simp only [hopening]
    refine (ih.expr hinner (.cons ?_)).bind fun a ha => .expect hclosing (.pure ?_)
    · rw [hclosing]
      decide
    · simp only [Expr.Matches, Expr.unnumbered]
      rw [ha]

end

/-- **Parse steps for expressions read what the grammar derives.** -/
theorem completeExpr (n : Nat) : CompleteExpr n := by
  induction n with
  | zero => constructor <;> intros <;> exact .outOfFuel
  | succ n ih =>
    exact
      { expr := expr_reads ih
        levels := levels_reads ih
        operands := operands_reads ih
        unary := unary_reads ih
        selectors := selectors_reads ih
        arguments := arguments_reads ih
        primary := primary_reads ih }

end Lox
