/-
**What is parsed is in the grammar.**

A parse step that reports nothing takes tokens that the grammar derives, and gives the tree of the
derivation.  The fuel is enough: every call either takes a token or goes to one of the few tighter
ranks, so that a bound that grows with the number of tokens left is never used up.

Main definitions:

* `Lox.Level.rank` — the rank of a level of binary operators;
* `Lox.Made` — a tree derived from given tokens, with numbers of its own;
* `Lox.SoundExpr`, `Lox.SoundStmt` — what is known of the parse steps with a given amount of fuel.

Main results:

* `Lox.soundExpr`, `Lox.soundStmt` — **parse steps give what the grammar derives**.
-/

import Lox.Proofs.Grammar.Outcome

set_option relaxedAutoImplicit false
set_option autoImplicit false

namespace Lox

open Grammar

/-! ### Ranks and levels -/

/-- The rank of a level of binary operators. -/
def Level.rank : Level → Rank
  | disjunction => .disjunction
  | conjunction => .conjunction
  | equality => .equality
  | comparison => .comparison
  | term => .term
  | factor => .factor

/-- The rank of what the given levels of the ladder give. -/
def rankOf : List Level → Rank
  | [] => .unary
  | level :: _ => level.rank

theorem Level.mem_operators_rank (level : Level) (k : Token.Kind) :
    k ∈ level.rank.operators ↔ k ∈ level.operators := by
  cases level <;> simp [rank, operators, Rank.operators, or_comm]

theorem Level.combine_eq_join (level : Level) : level.combine = level.rank.join := by
  cases level <;> rfl

/-- Every level of the ladder is one rank looser than the rest of it. -/
theorem rank_of_suffix {level : Level} {tighter : List Level}
    (h : (level :: tighter) <:+ Level.ladder) : level.rank.next? = some (rankOf tighter) := by
  simp only [Level.ladder, List.suffix_cons_iff, List.cons.injEq, List.suffix_nil] at h
  rcases h with ⟨rfl, rfl⟩ | ⟨rfl, rfl⟩ | ⟨rfl, rfl⟩ | ⟨rfl, rfl⟩ | ⟨rfl, rfl⟩ | ⟨rfl, rfl⟩ | h
  all_goals first | rfl | exact absurd h (by simp)

/-! ### Inversion -/

theorem Grammar.Rank.join_cases (r : Rank) (l : Expr) (t : Token) (x : Expr) :
    r.join l t x = .logical l t x ∨ r.join l t x = .binary l t x := by
  cases r <;> simp [Rank.join]

/-- A variable is derived as a name only. -/
theorem Grammar.Derives.variable_inv {ref : Reference} {r : Rank} {ts : List Token} {e : Expr}
    (h : Derives r ts e) (he : e = .variable ref) :
    ts = [ref.name] ∧ ref.name.kind = .identifier := by
  induction h with
  | tighter _ _ ih => exact ih he
  | operator =>
    rcases Rank.join_cases _ _ _ _ with heq | heq <;> rw [heq] at he <;> cases he
  | name ht =>
    obtain rfl := Expr.variable.inj he
    exact ⟨rfl, ht⟩
  | _ => cases he

/-- A property access is derived as one only. -/
theorem Grammar.Derives.get_inv {object : Expr} {name : Token} {r : Rank} {ts : List Token}
    {e : Expr} (h : Derives r ts e) (he : e = .get object name) :
    ∃ os dot, ts = os ++ [dot, name] ∧ Derives .call os object ∧ dot.kind = .symbol .dot ∧
      name.kind = .identifier := by
  induction h with
  | tighter _ _ ih => exact ih he
  | operator =>
    rcases Rank.join_cases _ _ _ _ with heq | heq <;> rw [heq] at he <;> cases he
  | get hobject hdot hname =>
    obtain ⟨rfl, rfl⟩ := Expr.get.inj he
    exact ⟨_, _, rfl, hobject, hdot, hname⟩
  | _ => cases he

/-! ### Expressions -/

/-- A tree derived from the given tokens, with numbers of its own. -/
def Made (r : Rank) (ts : List Token) (lo hi : Nat) (e : Expr) : Prop :=
  Derives r ts e ∧ Numbered lo hi e.references

theorem Made.tighter {r r' : Rank} {ts : List Token} {lo hi : Nat} {e : Expr}
    (hr : r.next? = some r') (h : Made r' ts lo hi e) : Made r ts lo hi e :=
  ⟨.tighter hr h.1, h.2⟩

/-- Arguments derived from the given tokens, `count` of which stand before. -/
def MadeArguments (count : Nat) (ts : List Token) (lo hi : Nat) (es : List Expr) : Prop :=
  (∃ parts : List (List Token × Expr), Separated (parts.map Prod.fst) ts ∧
    (∀ a ∈ parts, Derives .assignment a.1 a.2) ∧ es = parts.map Prod.snd) ∧
    count + es.length ≤ 255 ∧ Numbered lo hi (referencesOfArguments es)

/-- What is known of the parse steps for expressions with `n` units of fuel. -/
structure SoundExpr (n : Nat) : Prop where
  expr : ∀ (c : Cursor), 32 * c.rest.length + 10 ≤ n →
    ParseOutcome c 1 (Anyhow (Made .assignment)) (parseExpr n c)
  levels : ∀ (c : Cursor) (levels : List Level), levels <:+ Level.ladder →
    32 * c.rest.length + levels.length + 3 ≤ n →
    ParseOutcome c 1 (Anyhow (Made (rankOf levels))) (parseLevels n levels c)
  operands : ∀ (c : Cursor) (level : Level) (tighter : List Level) (left : Expr),
    (level :: tighter) <:+ Level.ladder → 32 * c.rest.length + 1 ≤ n →
    ParseOutcome c 0 (fun us _ mid hi e => ∀ {ts lo}, lo ≤ mid → mid ≤ hi →
      Made level.rank ts lo mid left → Made level.rank (ts ++ us) lo hi e)
      (parseOperands n level tighter left c)
  unary : ∀ (c : Cursor), 32 * c.rest.length + 2 ≤ n →
    ParseOutcome c 1 (Anyhow (Made .unary)) (parseUnary n c)
  selectors : ∀ (c : Cursor) (head : Expr), 32 * c.rest.length + 1 ≤ n →
    ParseOutcome c 0 (fun us _ mid hi e => ∀ {ts lo}, lo ≤ mid → mid ≤ hi →
      Made .call ts lo mid head → Made .call (ts ++ us) lo hi e) (parseSelectors n head c)
  arguments : ∀ (c : Cursor) (count : Nat), 32 * c.rest.length + 11 ≤ n →
    ParseOutcome c 1 (fun ts _ lo hi es => MadeArguments count ts lo hi es ∧ es ≠ [])
      (parseArguments n count c)
  primary : ∀ (c : Cursor), 32 * c.rest.length + 1 ≤ n →
    ParseOutcome c 1 (Anyhow (Made .primary)) (parsePrimary n c)

section

variable {n : Nat} {c : Cursor}

theorem length_of_rest {c c' : Cursor} {ts : List Token} (h : c.rest = ts ++ c'.rest) :
    c.rest.length = ts.length + c'.rest.length := by
  rw [h, List.length_append]

theorem length_of_cons {c : Cursor} {t : Token} {rest : List Token} (h : c.rest = t :: rest) :
    c.rest.length = rest.length + 1 := by
  rw [h, List.length_cons]

/-- A target and a value make an assignment, or a problem is reported. -/
theorem assignment_outcome {target value : Expr} {equals : Token}
    (hequals : equals.kind = .symbol .equal) :
    ParseOutcome c 0
      (fun vs _ mid hi e => ∀ {us lo}, lo ≤ mid → mid ≤ hi → Made .assignment us lo mid value →
        ∀ {ts lo'}, lo' ≤ lo → lo ≤ hi → Made .disjunction ts lo' lo target →
          Made .assignment (ts ++ equals :: (us ++ vs)) lo' hi e)
      ((match target with
        | .variable r => do return .assign (← Parse.newReference r.name) value
        | .get object name => return .set object name value
        | _ => do
          Parse.report equals .invalidTarget
          return target : Parse Expr) c) := by
  cases target with
  | «variable» r =>
    refine (newReference_outcome r.name).bind ?_
    intro ref c' _ _ _
    refine .pure ?_
    rintro _ mid _ hmid ⟨rfl, hname, rfl, hnext⟩ us lo hlo _ ⟨hvalue, hnumbers⟩ ts lo' hlo' _
      ⟨htarget, -⟩
    obtain ⟨rfl, hkind⟩ := htarget.variable_inv rfl
    rw [hnext]
    rw [← hname] at hkind ⊢
    simp only [List.append_nil]
    refine ⟨.assign hkind hequals hvalue, ?_⟩
    -- The reference is made after the value.
    exact ((hnumbers.mono hlo' (Nat.le_refl _)).append (.single ref) (Nat.le_trans hlo' hlo)
      (Nat.le_succ _)).comm
  | get object name =>
    refine .pure ?_
    rintro us lo hlo _ ⟨hvalue, hnumbers⟩ ts lo' hlo' _ ⟨htarget, htnumbers⟩
    obtain ⟨os, dot, rfl, hobject, hdot, hname⟩ := htarget.get_inv rfl
    simp only [List.append_nil, List.append_assoc, List.cons_append, List.nil_append]
    exact ⟨.set hobject hdot hname hequals hvalue, htnumbers.append hnumbers hlo' hlo⟩
  | _ =>
    refine (report_outcome equals .invalidTarget).bind ?_
    intro _ c' _ _ _
    refine .pure ?_
    intro _ _ _ _ hfalse
    exact hfalse.elim

theorem expr_outcome (ih : SoundExpr n) (hn : 32 * c.rest.length + 10 ≤ n + 1) :
    ParseOutcome c 1 (Anyhow (Made .assignment)) (parseExpr (n + 1) c) := by
  have hladder : Level.ladder.length = 6 := rfl
  refine (ih.levels c Level.ladder (List.suffix_refl _) (by omega)).bind ?_
  intro target c₁ ts hrest hts
  have hlen := length_of_rest hrest
  rcases accept_cases (.symbol .equal) c₁ with ⟨equals, rest, hrest₁, hequals, hstep⟩ | ⟨-, hstep⟩
  · rw [bind_ok hstep]
    have hlen₁ := length_of_cons hrest₁
    refine (ParseOutcome.take hrest₁ ?_).weaken
    refine (ih.expr { c₁ with rest := rest } (by dsimp only; omega)).weaken.bind ?_
    intro value c₂ us _ _
    exact assignment_outcome hequals
  · rw [bind_ok hstep]
    refine .pure ?_
    intro ts lo _ _ hmade
    rw [List.append_nil]
    exact hmade.tighter rfl

theorem levels_outcome (ih : SoundExpr n) {levels : List Level} (hladder : levels <:+ Level.ladder)
    (hn : 32 * c.rest.length + levels.length + 3 ≤ n + 1) :
    ParseOutcome c 1 (Anyhow (Made (rankOf levels))) (parseLevels (n + 1) levels c) := by
  cases levels with
  | nil => exact ih.unary c (by simp only [List.length_nil] at hn; omega)
  | cons level tighter =>
    rw [List.length_cons] at hn
    refine (ih.levels c tighter ((List.suffix_cons ..).trans hladder) (by omega)).bind ?_
    intro left c₁ ts hrest hts
    have hlen := length_of_rest hrest
    refine (ih.operands c₁ level tighter left hladder (by omega)).imp (Nat.le_refl 0) ?_
    intro us _ mid hi e hmid hmade ts lo hlo _ hleft
    exact hmade hlo hmid (hleft.tighter (rank_of_suffix hladder))

theorem operands_outcome (ih : SoundExpr n) {level : Level} {tighter : List Level} {left : Expr}
    (hladder : (level :: tighter) <:+ Level.ladder) (hn : 32 * c.rest.length + 1 ≤ n + 1) :
    ParseOutcome c 0 (fun us _ mid hi e => ∀ {ts lo}, lo ≤ mid → mid ≤ hi →
      Made level.rank ts lo mid left → Made level.rank (ts ++ us) lo hi e)
      (parseOperands (n + 1) level tighter left c) := by
  have htighter : tighter.length ≤ 5 := by
    have := hladder.length_le
    simp only [Level.ladder, List.length_cons, List.length_nil] at this
    omega
  rw [parseOperands]
  rcases acceptAny_cases level.operators c with ⟨t, rest, hrest, ht, hstep⟩ | ⟨-, hstep⟩
  · rw [bind_ok hstep]
    have hlen := length_of_cons hrest
    refine (ParseOutcome.take hrest ?_).weaken
    refine (ih.levels { c with rest := rest } tighter ((List.suffix_cons ..).trans hladder)
      (by dsimp only; omega)).weaken.bind ?_
    intro right c₁ us hrest₁ _
    have hlen₁ : rest.length = us.length + c₁.rest.length := length_of_rest hrest₁
    refine (ih.operands c₁ level tighter _ hladder (by omega)).imp (Nat.le_refl 0) ?_
    intro vs _ mid hi e hmid hmade us lo hlo _ ⟨hright, hrnumbers⟩ ts lo' hlo' _ ⟨hleft, hlnumbers⟩
    -- Operators of one level group to the left: the operands so far become the left operand.
    have hjoin : Made level.rank (ts ++ t :: us) lo' mid (level.combine left t right) := by
      rw [Level.combine_eq_join]
      have hoperator := (level.mem_operators_rank _).2 ht
      refine ⟨.operator (rank_of_suffix hladder) hleft hoperator hright, ?_⟩
      rw [← Level.combine_eq_join]
      cases level <;> exact hlnumbers.append hrnumbers hlo' hlo
    have hall := hmade (Nat.le_trans hlo' hlo) hmid hjoin
    rw [List.append_assoc, List.cons_append] at hall
    exact hall
  · rw [bind_ok hstep]
    refine .pure ?_
    intro ts lo _ _ hmade
    rw [List.append_nil]
    exact hmade

theorem unary_outcome (ih : SoundExpr n) (hn : 32 * c.rest.length + 2 ≤ n + 1) :
    ParseOutcome c 1 (Anyhow (Made .unary)) (parseUnary (n + 1) c) := by
  rw [parseUnary]
  rcases acceptAny_cases unaryOperators c with ⟨t, rest, hrest, ht, hstep⟩ | ⟨-, hstep⟩
  · rw [bind_ok hstep]
    have hlen := length_of_cons hrest
    refine ParseOutcome.take hrest ?_
    refine (ih.unary { c with rest := rest } (by dsimp only; omega)).weaken.bind ?_
    intro e c₁ us _ _
    refine .pure ?_
    intro us lo _ _ ⟨he, hnumbers⟩
    rw [List.append_nil]
    exact ⟨.unary (by simpa [unaryOperators] using ht) he, hnumbers⟩
  · rw [bind_ok hstep]
    refine (ih.primary c (by omega)).bind ?_
    intro head c₁ ts hrest hts
    have hlen := length_of_rest hrest
    refine (ih.selectors c₁ head (by omega)).imp (Nat.le_refl 0) ?_
    intro us _ mid hi e hmid hmade ts lo hlo _ hhead
    exact (hmade hlo hmid (hhead.tighter rfl)).tighter rfl

theorem MadeArguments.none (lo : Nat) : MadeArguments 0 [] lo lo [] :=
  ⟨⟨[], .none, by simp, rfl⟩, by simp, .nil lo lo⟩

theorem selectors_outcome (ih : SoundExpr n) {head : Expr} (hn : 32 * c.rest.length + 1 ≤ n + 1) :
    ParseOutcome c 0 (fun us _ mid hi e => ∀ {ts lo}, lo ≤ mid → mid ≤ hi →
      Made .call ts lo mid head → Made .call (ts ++ us) lo hi e)
      (parseSelectors (n + 1) head c) := by
  rw [parseSelectors]
  rcases acceptAny_cases [.symbol .leftParen, .symbol .dot] c with
    ⟨t, rest, hrest, ht, hstep⟩ | ⟨-, hstep⟩
  · rw [bind_ok hstep]
    have hlen := length_of_cons hrest
    refine (ParseOutcome.take hrest ?_).weaken
    by_cases hparen : t.kind = .symbol .leftParen
    · simp only [hparen, beq_self_eq_true, if_true]
      have hsome := (ih.arguments { c with rest := rest } 0 (by dsimp only; omega)).imp
        (Nat.zero_le 1) (P := Anyhow (MadeArguments 0)) fun _ h => h.1
      refine (unlessNext_outcome hsome fun _ => MadeArguments.none).bind ?_
      intro arguments c₁ as hrest₁ _
      have hlen₁ : rest.length = as.length + c₁.rest.length := length_of_rest hrest₁
      refine (expect_outcome .argumentsClose).weaken.bind ?_
      intro paren c₂ ps hrest₂ _
      have hlen₂ := length_of_rest hrest₂
      refine (ih.selectors c₂ _ (by omega)).imp (Nat.le_refl 0) ?_
      rintro vs _ mid hi e hmid hmade _ lo hlo _ ⟨rfl, hclosing, rfl⟩ as lo' hlo' _
        ⟨⟨parts, hcommas, hparts, rfl⟩, hcount, hanumbers⟩ ts lo'' hlo'' _ ⟨hhead, hhnumbers⟩
      -- The call so far is the head of the selectors that follow.
      have hcall : Made .call (ts ++ t :: as ++ [paren]) lo'' mid
          (.call head paren (parts.map Prod.snd)) :=
        ⟨.call hhead hparen hcommas hparts (by simpa using hcount) hclosing,
          hhnumbers.append hanumbers hlo'' hlo'⟩
      have hall := hmade (Nat.le_trans hlo'' hlo') hmid hcall
      simpa only [List.append_assoc, List.cons_append, List.nil_append] using hall
    · have hdot : t.kind = .symbol .dot := by simpa [hparen] using ht
      simp only [hdot, beq_iff_eq, Token.Kind.symbol.injEq, reduceCtorEq, if_false]
      refine (expect_outcome .propertyName).weaken.bind ?_
      intro name c₁ ns hrest₁ _
      have hlen₁ : rest.length = ns.length + c₁.rest.length := length_of_rest hrest₁
      refine (ih.selectors c₁ _ (by omega)).imp (Nat.le_refl 0) ?_
      rintro vs _ mid hi e hmid hmade _ lo hlo _ ⟨rfl, hname, rfl⟩ ts lo' hlo' _ ⟨hhead, hnumbers⟩
      have hget : Made .call (ts ++ [t, name]) lo' mid (.get head name) :=
        ⟨.get hhead hdot hname, hnumbers⟩
      have hall := hmade hlo' hmid hget
      simpa only [List.append_assoc, List.cons_append, List.nil_append] using hall
  · rw [bind_ok hstep]
    refine .pure ?_
    intro ts lo _ _ hmade
    rw [List.append_nil]
    exact hmade

theorem arguments_outcome (ih : SoundExpr n) {count : Nat} (hn : 32 * c.rest.length + 11 ≤ n + 1) :
    ParseOutcome c 1 (fun ts _ lo hi es => MadeArguments count ts lo hi es ∧ es ≠ [])
      (parseArguments (n + 1) count c) := by
  rw [parseArguments]
  refine (reportIf_outcome _ .tooManyArguments).before ?_
  intro _ c₁ ts₁ hrest₁
  have hlen₁ := length_of_rest hrest₁
  refine (ih.expr c₁ (by omega)).bind ?_
  intro argument c₂ ts₂ hrest₂ hts₂
  have hlen₂ := length_of_rest hrest₂
  rcases accept_cases (.symbol .comma) c₂ with ⟨comma, rest, hrest₃, hcomma, hstep⟩ | ⟨-, hstep⟩
  · rw [bind_ok hstep]
    have hlen₃ := length_of_cons hrest₃
    refine (ParseOutcome.take hrest₃ ?_).weaken
    refine (ih.arguments { c₂ with rest := rest } (count + 1) (by dsimp only; omega)).weaken.bind ?_
    intro more c₃ us _ _
    refine .pure ?_
    rintro us lo _ _ ⟨⟨⟨parts, hcommas, hparts, rfl⟩, hcount, hmnumbers⟩, hne⟩ ts lo' hlo' _
      ⟨hargument, hanumbers⟩ _ lo'' _ _ ⟨rfl, rfl, -⟩
    have hne' : parts ≠ [] := fun h => hne (by rw [h]; rfl)
    obtain ⟨part, parts, rfl⟩ := List.exists_cons_of_ne_nil hne'
    simp only [List.append_nil, List.nil_append]
    refine ⟨⟨⟨(ts, argument) :: part :: parts, .more hcomma hcommas, ?_, rfl⟩, ?_, ?_⟩, by simp⟩
    · intro a ha
      rcases List.mem_cons.1 ha with rfl | ha
      · exact hargument
      · exact hparts a ha
    · simp only [List.map_cons, List.length_cons] at hcount ⊢
      omega
    · exact hanumbers.append hmnumbers hlo' (by assumption)
  · rw [bind_ok hstep]
    refine .pure ?_
    rintro ts lo _ _ ⟨hargument, hnumbers⟩ _ lo' _ _ ⟨rfl, rfl, hfew⟩
    have hcount : count < maxArguments := Nat.lt_of_not_le (of_decide_eq_false hfew)
    rw [maxArguments] at hcount
    simp only [List.append_nil, List.nil_append]
    refine ⟨⟨⟨[(ts, argument)], .one ts, by simpa using hargument, rfl⟩, ?_, ?_⟩, by simp⟩
    · simp only [List.length_singleton]
      omega
    · simpa [referencesOfArguments] using hnumbers

theorem primary_outcome (ih : SoundExpr n) (hn : 32 * c.rest.length + 1 ≤ n + 1) :
    ParseOutcome c 1 (Anyhow (Made .primary)) (parsePrimary (n + 1) c) := by
  rw [parsePrimary]
  rcases acceptAny_cases [.keyword .false_, .keyword .true_, .keyword .nil, .number, .string,
      .keyword .super, .keyword .this, .identifier, .symbol .leftParen] c with
    ⟨t, rest, hrest, ht, hstep⟩ | ⟨-, hstep⟩
  · rw [bind_ok hstep]
    have hlen := length_of_cons hrest
    refine ParseOutcome.take hrest ?_
    simp only [List.mem_cons, List.not_mem_nil, or_false] at ht
    rcases ht with hk | hk | hk | hk | hk | hk | hk | hk | hk <;> simp only [hk]
    · exact .pure ⟨.false_ hk, .nil ..⟩
    · exact .pure ⟨.true_ hk, .nil ..⟩
    · exact .pure ⟨.nil hk, .nil ..⟩
    · exact .pure ⟨.literal (.inl hk), .nil ..⟩
    · exact .pure ⟨.literal (.inr hk), .nil ..⟩
    · refine (expect_outcome .superDot).weaken.bind ?_
      intro dot c₁ _ _ _
      refine (expect_outcome .superMethod).weaken.bind ?_
      intro method c₂ _ _ _
      refine (newReference_outcome t).bind ?_
      intro ref c₃ _ _ _
      refine .pure ?_
      rintro _ _ _ _ ⟨rfl, rfl, rfl, hnext⟩ _ _ _ _ ⟨rfl, hmethod, hid⟩ _ _ _ _ ⟨rfl, hdot, rfl⟩
      rw [hnext, ← hid]
      exact ⟨.super hk hdot hmethod, .single ref⟩
    · refine (newReference_outcome t).bind ?_
      intro ref c₁ _ _ _
      refine .pure ?_
      rintro _ _ _ _ ⟨rfl, rfl, rfl, hnext⟩
      rw [hnext]
      exact ⟨.this hk, .single ref⟩
    · refine (newReference_outcome t).bind ?_
      intro ref c₁ _ _ _
      refine .pure ?_
      rintro _ _ _ _ ⟨rfl, rfl, rfl, hnext⟩
      rw [hnext]
      exact ⟨.name hk, .single ref⟩
    · refine (ih.expr { c with rest := rest } (by dsimp only; omega)).weaken.bind ?_
      intro inner c₁ us _ _
      refine (expect_outcome .groupClose).weaken.bind ?_
      intro closing c₂ _ _ _
      refine .pure ?_
      rintro _ _ _ _ ⟨rfl, hclosing, hid⟩ us lo _ _ ⟨hinner, hnumbers⟩
      rw [List.append_nil, hid]
      exact ⟨.grouping hk hinner hclosing, hnumbers⟩
  · rw [bind_ok hstep]
    exact fail_outcome 1 _

end

/-- **Parse steps for expressions give what the grammar derives.** -/
theorem soundExpr (n : Nat) : SoundExpr n := by
  induction n with
  | zero => constructor <;> intros <;> omega
  | succ n ih =>
    exact
      { expr := fun _ => expr_outcome ih
        levels := fun _ _ => levels_outcome ih
        operands := fun _ _ _ _ => operands_outcome ih
        unary := fun _ => unary_outcome ih
        selectors := fun _ _ => selectors_outcome ih
        arguments := fun _ _ => arguments_outcome ih
        primary := fun _ => primary_outcome ih }

end Lox
