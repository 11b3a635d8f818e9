/-
**Positions track cursors.**

The parser over positions goes the same way as the one over the tokens that are left: the position
is the number of tokens passed, and every token that it fetches by its number is there.  The token
before the position is asked for behind a token that has been passed, and by a recovery, which
happens only where a declaration has begun before the end mark.

Main definitions:

* `Lox.Text` — **tokens with an end mark** behind them, which is the only one;
* `Lox.Cursor.pointer` — the position of a cursor;
* `Lox.Tracks` — **a step over positions does what a step over cursors does**.

Main results:

* `Lox.Text.synchronize_eq` — recovery by positions drops the same tokens;
* `Lox.tracksExpr`, `Lox.tracksStmt` — **every step of the parser is tracked**;
* `Lox.program_tracks`, `Lox.singleExpression_tracks` — the same for whole texts.
-/

import Lox.Proofs.Grammar.Course
import Lox.Proofs.Grammar.Indexed
import Lox.Proofs.Grammar.Outcome

set_option relaxedAutoImplicit false
set_option autoImplicit false

namespace Lox

/-! ### Texts and positions -/

/-- Tokens with an **end mark** behind them, which is the only one. -/
structure Text where
  body : List Token
  mark : Token
  marked : mark.kind = .eof
  plain : ∀ t ∈ body, t.kind ≠ .eof

/-- All tokens of a text, the end mark included. -/
def Text.tokens (T : Text) : List Token := T.body ++ [T.mark]

/-- A cursor that has come to some place of a text. -/
structure Cursor.Inside (T : Text) (c : Cursor) : Prop where
  rest : c.rest <:+ T.body
  endMark : c.endMark = T.mark

/-- The **position** of a cursor: as many tokens have been passed. -/
def Cursor.pointer (T : Text) (c : Cursor) : Pointer where
  current := T.body.length - c.rest.length
  findings := c.findings
  nextId := c.nextId

/-- The given token is the last that a cursor has passed. -/
def Cursor.Behind (T : Text) (t : Token) (c : Cursor) : Prop := (t :: c.rest) <:+ T.body

section

variable {T : Text} {c c' : Cursor} {t : Token} {rest : List Token}

theorem Cursor.Inside.passes (h : c.Inside T) (hpasses : c.Passes c') : c'.Inside T :=
  ⟨hpasses.rest.trans h.rest, hpasses.endMark.trans h.endMark⟩

theorem Cursor.Inside.take (h : c.Inside T) (hrest : c.rest = t :: rest) :
    Cursor.Inside T { c with rest := rest } :=
  ⟨(List.suffix_cons t rest).trans (hrest ▸ h.rest), h.endMark⟩

theorem Cursor.Inside.behind (h : c.Inside T) (hrest : c.rest = t :: rest) :
    Cursor.Behind T t { c with rest := rest } := by
  have hsuffix := h.rest
  rw [hrest] at hsuffix
  exact hsuffix

/-- The position behind a token is one further. -/
theorem Cursor.Inside.pointer_take (h : c.Inside T) (hrest : c.rest = t :: rest) :
    Cursor.pointer T { c with rest := rest } =
      { c.pointer T with current := (c.pointer T).current + 1 } := by
  have hle := h.rest.length_le
  simp only [Cursor.pointer, hrest, List.length_cons, Pointer.mk.injEq, and_true] at hle ⊢
  omega

namespace Text

/-- The token at the position is the one that is next. -/
theorem getElem?_current (h : c.Inside T) : T.tokens[(c.pointer T).current]? = some c.next := by
  obtain ⟨pre, hpre⟩ := h.rest
  have hcurrent : (c.pointer T).current = pre.length := by
    simp [Cursor.pointer, ← hpre]
  rw [hcurrent, tokens, ← hpre, List.append_assoc, List.getElem?_append_right (Nat.le_refl _),
    Nat.sub_self, Cursor.next, h.endMark]
  cases c.rest <;> rfl

theorem peek_eq (h : c.Inside T) :
    Indexed.peek T.tokens (c.pointer T) = .ok c.next (c.pointer T) := by
  rw [Indexed.peek, get_bind, getElem?_current h]
  rfl

/-- The token before the position is the last that was passed. -/
theorem previous_eq (h : c.Behind T t) :
    Indexed.previous T.tokens (c.pointer T) = .ok t (c.pointer T) := by
  obtain ⟨pre, hpre⟩ := h
  have hcurrent : (c.pointer T).current = pre.length + 1 := by
    simp only [Cursor.pointer, ← hpre, List.length_append, List.length_cons]
    omega
  have hget : T.tokens[pre.length]? = some t := by
    rw [tokens, ← hpre, List.append_assoc, List.getElem?_append_right (Nat.le_refl _),
      Nat.sub_self]
    rfl
  rw [Indexed.previous, get_bind, hcurrent]
  dsimp only
  rw [hget]
  rfl

/-- Only the end mark is the end. -/
theorem next_kind (h : c.Inside T) : (c.next.kind == .eof) = c.rest.isEmpty := by
  cases hrest : c.rest with
  | nil => simp [Cursor.next, hrest, h.endMark, T.marked]
  | cons t rest =>
    have hmem : t ∈ T.body := h.rest.subset (hrest ▸ List.mem_cons_self ..)
    simpa [Cursor.next, hrest] using T.plain t hmem

theorem atEnd_eq (h : c.Inside T) :
    Indexed.atEnd T.tokens (c.pointer T) = .ok c.rest.isEmpty (c.pointer T) := by
  rw [Indexed.atEnd, bind_ok (peek_eq h), next_kind h]
  rfl

theorem check_eq (h : c.Inside T) (k : Token.Kind) :
    Indexed.check T.tokens k (c.pointer T) =
      .ok (c.rest.head?.any fun t => t.kind == k) (c.pointer T) := by
  rw [Indexed.check, bind_ok (atEnd_eq h)]
  cases hrest : c.rest with
  | nil => rfl
  | cons t rest =>
    change (Indexed.peek T.tokens >>= _) _ = _
    rw [bind_ok (peek_eq h), Cursor.next, hrest]
    rfl

theorem advance_eq (h : c.Inside T) (hrest : c.rest = t :: rest) :
    Indexed.advance T.tokens (c.pointer T) =
      .ok t (Cursor.pointer T { c with rest := rest }) := by
  rw [Indexed.advance, bind_ok (atEnd_eq h), hrest]
  change Indexed.previous T.tokens { c.pointer T with current := (c.pointer T).current + 1 } = _
  rw [← h.pointer_take hrest]
  exact previous_eq (h.behind hrest)

theorem matchAny_some {ks : List Token.Kind} (h : c.Inside T) (hrest : c.rest = t :: rest)
    (ht : t.kind ∈ ks) :
    Indexed.matchAny T.tokens ks (c.pointer T) =
      .ok true (Cursor.pointer T { c with rest := rest }) := by
  induction ks with
  | nil => cases ht
  | cons k ks ih =>
    rw [Indexed.matchAny, bind_ok (check_eq h k), hrest]
    by_cases hk : t.kind = k
    · simp only [List.head?_cons, Option.any_some, hk, beq_self_eq_true, if_true]
      rw [bind_ok (advance_eq h hrest)]
      rfl
    · simp only [List.head?_cons, Option.any_some, beq_eq_false_iff_ne.2 hk, Bool.false_eq_true,
        if_false]
      exact ih (List.mem_of_ne_of_mem hk ht)

/-- The next token is not of a kind that it is known not to be of. -/
theorem head?_any_eq_false {k : Token.Kind} (hnot : ∀ t rest, c.rest = t :: rest → t.kind ≠ k) :
    (c.rest.head?.any fun t => t.kind == k) = false := by
  cases hrest : c.rest with
  | nil => rfl
  | cons t rest => exact beq_eq_false_iff_ne.2 (hnot t rest hrest)

theorem matchAny_none {ks : List Token.Kind} (h : c.Inside T)
    (hnot : ∀ t rest, c.rest = t :: rest → t.kind ∉ ks) :
    Indexed.matchAny T.tokens ks (c.pointer T) = .ok false (c.pointer T) := by
  induction ks with
  | nil => rfl
  | cons k ks ih =>
    have hcheck := head?_any_eq_false fun t rest hrest =>
      List.ne_of_not_mem_cons (hnot t rest hrest)
    rw [Indexed.matchAny, bind_ok (check_eq h k), hcheck]
    exact ih fun t rest hrest => List.not_mem_of_not_mem_cons (hnot t rest hrest)

theorem consume_some {e : Expectation} (h : c.Inside T) (hrest : c.rest = t :: rest)
    (ht : t.kind = e.kind) :
    Indexed.consume T.tokens e (c.pointer T) =
      .ok t (Cursor.pointer T { c with rest := rest }) := by
  have hcheck : (c.rest.head?.any fun t => t.kind == e.kind) = true := by simp [hrest, ht]
  rw [Indexed.consume, bind_ok (check_eq h e.kind), hcheck]
  exact advance_eq h hrest

theorem consume_none {e : Expectation} (h : c.Inside T)
    (hnot : ∀ t rest, c.rest = t :: rest → t.kind ≠ e.kind) :
    Indexed.consume T.tokens e (c.pointer T) =
      Indexed.fail T.tokens (.missing e) (c.pointer T) := by
  rw [Indexed.consume, bind_ok (check_eq h e.kind), head?_any_eq_false hnot]
  rfl

/-! ### Recovery -/

/-- The same tokens are skipped behind a token that has been passed. -/
theorem skip_eq (n : Nat) {last : Token} (h : c.Inside T) (hlast : c.Behind T last)
    (hn : c.rest.length < n) :
    Indexed.skip T.tokens n (c.pointer T) =
      .ok () (Cursor.pointer T { c with rest := skipFrom last c.rest }) := by
  induction n generalizing c last with
  | zero => exact absurd hn (Nat.not_lt_zero _)
  | succ n ih =>
    rw [Indexed.skip, bind_ok (atEnd_eq h)]
    cases hrest : c.rest with
    | nil =>
      have hsame : { c with rest := [] } = c := by rw [← hrest]
      rw [skipFrom, hsame]
      rfl
    | cons t rest =>
      simp only [List.isEmpty_cons, Bool.false_eq_true, if_false]
      rw [bind_ok (previous_eq hlast), skipFrom]
      have hsame : { c with rest := t :: rest } = c := by rw [← hrest]
      by_cases hsemicolon : last.kind = .symbol .semicolon
      · simp only [hsemicolon, beq_self_eq_true, Bool.true_or, if_true, hsame]
        rfl
      · simp only [beq_eq_false_iff_ne.2 hsemicolon, Bool.false_or, Bool.false_eq_true, if_false]
        rw [bind_ok (peek_eq h), Cursor.next, hrest, List.headD_cons]
        by_cases hword : statementWords.contains t.kind = true
        · simp only [hword, if_true, hsame]
          rfl
        · simp only [hword, if_false, Bool.false_eq_true]
          rw [bind_ok (advance_eq h hrest)]
          refine ih (h.take hrest) (h.behind hrest) ?_
          simp only [hrest, List.length_cons] at hn ⊢
          omega

/-- Recovery drops the same tokens, unless it begins at the end mark with no token before it. -/
theorem synchronize_eq (h : c.Inside T) (hsome : c.rest ≠ [] ∨ T.body ≠ []) :
    Indexed.synchronize T.tokens (c.pointer T) =
      .ok () (Cursor.pointer T { c with rest := synchronize c.rest }) := by
  have htokens : T.tokens.length = T.body.length + 1 := by simp [tokens]
  unfold Indexed.synchronize
  cases hrest : c.rest with
  | cons t rest =>
    rw [bind_ok (advance_eq h hrest)]
    refine skip_eq _ (h.take hrest) (h.behind hrest) ?_
    have hle := h.rest.length_le
    simp only [hrest, List.length_cons] at hle ⊢
    omega
  | nil =>
    -- All tokens have been passed, so that there is one before the end mark.
    have hbody : T.body ≠ [] := hsome.resolve_left fun hne => hne hrest
    obtain ⟨pre, last, hlast⟩ := (List.eq_nil_or_concat T.body).resolve_left hbody
    have hbehind : c.Behind T last := by
      rw [Cursor.Behind, hrest, hlast, List.concat_eq_append]
      exact List.suffix_append ..
    have hadvance : Indexed.advance T.tokens (c.pointer T) = .ok last (c.pointer T) := by
      rw [Indexed.advance, bind_ok (atEnd_eq h), hrest]
      exact previous_eq hbehind
    have hskip := skip_eq T.tokens.length h hbehind (by rw [hrest]; simp [htokens])
    rw [bind_ok hadvance, hskip, hrest]
    rfl

end Text

end

/-! ### Tracking -/

/-- How a step over cursors ends, by positions. -/
def located {α : Type} (T : Text) :
    EStateM.Result ParseStop Cursor α → EStateM.Result WalkStop Pointer α
  | .ok a c => .ok a (c.pointer T)
  | .error .malformed c => .error .malformed (c.pointer T)
  | .error .outOfFuel c => .error .outOfFuel (c.pointer T)

/-- No matter where. -/
def Anywhere (_ : Cursor) : Prop := True

/-- Before the end mark. -/
def Cursor.Unfinished (c : Cursor) : Prop := c.rest ≠ []

/-- A step over positions **tracks** one over cursors: from where `P` holds, it does the same. -/
def Tracks {α : Type} (T : Text) (P : Cursor → Prop) (q : Walk α) (p : Parse α) : Prop :=
  ∀ c : Cursor, c.Inside T → P c → q (c.pointer T) = located T (p c)

namespace Tracks

variable {α β : Type} {T : Text} {P : Cursor → Prop} {q : Walk α} {p : Parse α} {g : α → Walk β}
  {f : α → Parse β}

theorem from_anywhere (h : Tracks T Anywhere q p) : Tracks T P q p :=
  fun c hc _ => h c hc trivial

theorem pure (a : α) : Tracks T P (Pure.pure a) (Pure.pure a) := fun _ _ _ => rfl

theorem outOfFuel : Tracks T P (throw .outOfFuel : Walk α) (throw .outOfFuel) := fun _ _ _ => rfl

theorem bind (hp : Orderly p) (h : Tracks T P q p) (hf : ∀ a, Tracks T Anywhere (g a) (f a)) :
    Tracks T P (q >>= g) (p >>= f) := by
  intro c hc hP
  have hq := h c hc hP
  cases hstep : p c with
  | ok a c' =>
    rw [hstep] at hq
    rw [bind_ok hstep, bind_ok hq]
    exact hf a c' (hc.passes (hp.passes hstep)) trivial
  | error stop c' =>
    rw [hstep] at hq
    rw [bind_error hstep]
    cases stop <;> exact bind_error hq

theorem map (hp : Orderly p) (h : Tracks T P q p) (k : α → β) : Tracks T P (k <$> q) (k <$> p) :=
  h.bind hp fun a => .pure (k a)

theorem newReference (name : Token) :
    Tracks T P (Indexed.newReference name) (Parse.newReference name) := fun _ _ _ => rfl

theorem report (t : Token) (problem : Problem) :
    Tracks T P (Indexed.report t problem) (Parse.report t problem) := fun _ _ _ => rfl

theorem peek : Tracks T P (Indexed.peek T.tokens) Parse.peek := fun _ hc _ => Text.peek_eq hc

theorem reportIf (b : Bool) (problem : Problem) :
    Tracks T P (Indexed.reportIf T.tokens b problem) (Parse.reportIf b problem) := by
  cases b with
  | false => exact .pure ()
  | true =>
    have hpeek : Orderly Parse.peek := fun c => .ok (.refl c)
    exact peek.bind hpeek fun t => .report t problem

theorem fail (problem : Problem) :
    Tracks T P (Indexed.fail T.tokens problem : Walk α) (Parse.fail problem) := by
  have hpeek : Orderly Parse.peek := fun c => .ok (.refl c)
  exact peek.bind hpeek fun t => fun _ _ _ => rfl

/-- The token that has just been passed. -/
theorem previous {t : Token} {g : Token → Walk α} (h : Tracks T Anywhere (g t) p) :
    Tracks T (Cursor.Behind T t) (Indexed.previous T.tokens >>= g) p := by
  intro c hc hbehind
  rw [bind_ok (Text.previous_eq hbehind)]
  exact h c hc trivial

/-! ### Choices -/

section

variable {h : Walk α} {f : Option Token → Parse α}

/-- Kinds of tokens that are tried before others. -/
theorem tries (ks ks' : List Token.Kind)
    (hsome : ∀ t, t.kind ∈ ks → Tracks T (Cursor.Behind T t) q (f (some t)))
    (hothers : Tracks T Anywhere h (Parse.acceptAny ks' >>= f)) :
    Tracks T P (Indexed.matchAny T.tokens ks >>= fun b => if b then q else h)
      (Parse.acceptAny (ks ++ ks') >>= f) := by
  intro c hc _
  rcases acceptAny_cases ks c with ⟨t, rest, hrest, ht, -⟩ | ⟨hnot, -⟩
  · rw [bind_ok (Text.matchAny_some hc hrest ht)]
    rcases acceptAny_cases (ks ++ ks') c with ⟨t', rest', hrest', -, hstep⟩ | ⟨hnot, -⟩
    · obtain ⟨rfl, rfl⟩ := List.cons.inj (hrest.symm.trans hrest')
      rw [bind_ok hstep]
      exact hsome t ht _ (hc.take hrest) (hc.behind hrest)
    · exact absurd (List.mem_append_left ks' ht) (hnot t rest hrest)
  · rw [bind_ok (Text.matchAny_none hc hnot)]
    have hothers := hothers c hc trivial
    -- What is not among the first kinds is taken if it is among the others.
    have hsame : (Parse.acceptAny (ks ++ ks') >>= f) c = (Parse.acceptAny ks' >>= f) c := by
      rcases acceptAny_cases (ks ++ ks') c with ⟨t, rest, hrest, ht, hstep⟩ | ⟨hnot', hstep⟩ <;>
        rcases acceptAny_cases ks' c with ⟨t', rest', hrest', ht', hstep'⟩ | ⟨hnot'', hstep'⟩
      · obtain ⟨rfl, rfl⟩ := List.cons.inj (hrest.symm.trans hrest')
        rw [bind_ok hstep, bind_ok hstep']
      · rcases List.mem_append.1 ht with ht | ht
        · exact absurd ht (hnot t rest hrest)
        · exact absurd ht (hnot'' t rest hrest)
      · exact absurd (List.mem_append_right ks ht') (hnot' t' rest' hrest')
      · rw [bind_ok hstep, bind_ok hstep']
    rw [hsame]
    exact hothers

/-- No kinds of tokens are left to be tried. -/
theorem triesNothing (hnone : Tracks T P h (f none)) :
    Tracks T P h (Parse.acceptAny [] >>= f) := by
  intro c hc hP
  rcases acceptAny_cases [] c with ⟨t, rest, -, ht, -⟩ | ⟨-, hstep⟩
  · cases ht
  · rw [bind_ok hstep]
    exact hnone c hc hP

/-- A token of one of the given kinds is passed, if it is next. -/
theorem choose (ks : List Token.Kind)
    (hsome : ∀ t, t.kind ∈ ks → Tracks T (Cursor.Behind T t) q (f (some t)))
    (hnone : Tracks T Anywhere h (f none)) :
    Tracks T P (Indexed.matchAny T.tokens ks >>= fun b => if b then q else h)
      (Parse.acceptAny ks >>= f) := by
  have htries : Tracks T P _ (Parse.acceptAny (ks ++ []) >>= f) :=
    tries ks [] hsome (triesNothing hnone)
  rwa [List.append_nil] at htries

end

/-- A token that the grammar demands is passed. -/
theorem consume (e : Expectation) {g : Token → Walk β} {f : Token → Parse β}
    (hf : ∀ t, Tracks T (Cursor.Behind T t) (g t) (f t)) :
    Tracks T P (Indexed.consume T.tokens e >>= g) (Parse.expect e >>= f) := by
  intro c hc _
  rcases expect_cases e c with ⟨t, rest, hrest, ht, hstep⟩ | ⟨hnot, hstep⟩
  · rw [bind_ok (Text.consume_some hc hrest ht), bind_ok hstep]
    exact hf t _ (hc.take hrest) (hc.behind hrest)
  · have hwalk := Text.consume_none hc hnot
    have htracks : Tracks T Anywhere (Indexed.fail T.tokens (.missing e) : Walk Token)
        (Parse.fail (.missing e)) := .fail _
    rw [htracks c hc trivial] at hwalk
    rw [bind_error hwalk, bind_error hstep]
    rfl

theorem following {k : Token.Kind} (hp : Orderly p) (h : Tracks T Anywhere q p) :
    Tracks T P (Indexed.following T.tokens k q) (Parse.after k p) :=
  choose [k] (fun _ _ => (h.map hp some).from_anywhere) (.pure none)

theorem unlessAt {k : Token.Kind} {absent : α} (h : Tracks T Anywhere q p) :
    Tracks T P (Indexed.unlessAt T.tokens k absent q) (Parse.unlessNext k absent p) := by
  intro c hc _
  have hnext : Parse.unlessNext k absent p c =
      (if c.rest.head?.any (fun t => t.kind == k) then Pure.pure absent else p : Parse α) c := rfl
  rw [Indexed.unlessAt, bind_ok (Text.check_eq hc k), hnext]
  cases c.rest.head?.any fun t => t.kind == k with
  | true => rfl
  | false => exact h c hc trivial

/-- Something other than the end of a block is next, or it is not. -/
theorem blockEnd {q' : Walk α} {p' : Parse α} (h : Tracks T Anywhere q p)
    (h' : Tracks T Cursor.Unfinished q' p') :
    Tracks T P (Indexed.atBlockEnd T.tokens >>= fun b => if b then q else q')
      (Parse.atBlockEnd >>= fun b => if b then p else p') := by
  intro c hc _
  have hstep : Parse.atBlockEnd c =
      .ok ((c.rest.head?.any fun t => t.kind == .symbol .rightBrace) || c.rest.isEmpty) c := rfl
  have hwalk : Indexed.atBlockEnd T.tokens (c.pointer T) =
      .ok ((c.rest.head?.any fun t => t.kind == .symbol .rightBrace) || c.rest.isEmpty)
        (c.pointer T) := by
    rw [Indexed.atBlockEnd, bind_ok (Text.check_eq hc _)]
    cases c.rest.head?.any fun t => t.kind == .symbol .rightBrace with
    | true => rfl
    | false => exact Text.atEnd_eq hc
  rw [bind_ok hstep, bind_ok hwalk]
  cases hend : ((c.rest.head?.any fun t => t.kind == .symbol .rightBrace) || c.rest.isEmpty) with
  | true => exact h c hc trivial
  | false =>
    refine h' c hc fun hrest => ?_
    rw [hrest] at hend
    cases hend

/-- Recovery from the problems of a step that begins before the end mark. -/
theorem recovering (hp : Orderly p) (h : Tracks T Anywhere q p) :
    Tracks T Cursor.Unfinished (Indexed.recovering T.tokens q) (recovering p) := by
  intro c hc hsome
  have hq := h c hc trivial
  have hcourse := hp c
  unfold Indexed.recovering Lox.recovering
  generalize p c = r at hq hcourse
  cases hcourse with
  | ok hpasses =>
    rw [hq]
    rfl
  | malformed hpasses =>
    rw [hq]
    dsimp only [located]
    have hbody : T.body ≠ [] := fun hnil => hsome (List.suffix_nil.1 (hnil ▸ hc.rest))
    rw [bind_ok (Text.synchronize_eq (hc.passes hpasses) (.inr hbody))]
    rfl
  | outOfFuel =>
    rw [hq]
    rfl

end Tracks

/-! ### Expressions -/

/-- What is known of the steps for expressions with the given fuel. -/
structure TracksExpr (T : Text) (n : Nat) : Prop where
  expr : Tracks T Anywhere (Indexed.expression T.tokens n) (parseExpr n)
  levels : ∀ levels, Tracks T Anywhere (Indexed.levels T.tokens n levels) (parseLevels n levels)
  operands : ∀ level tighter left, Tracks T Anywhere
    (Indexed.operands T.tokens n level tighter left) (parseOperands n level tighter left)
  unary : Tracks T Anywhere (Indexed.unary T.tokens n) (parseUnary n)
  selectors : ∀ head, Tracks T Anywhere (Indexed.selectors T.tokens n head) (parseSelectors n head)
  arguments : ∀ count,
    Tracks T Anywhere (Indexed.arguments T.tokens n count) (parseArguments n count)
  primary : Tracks T Anywhere (Indexed.primary T.tokens n) (parsePrimary n)

/-- **Every step for expressions is tracked.** -/
theorem tracksExpr (T : Text) (n : Nat) : TracksExpr T n := by
  induction n with
  | zero => constructor <;> intros <;> exact .outOfFuel
  | succ n ih =>
    have ho := courseExpr n
    refine ⟨?expr, ?levels, ?operands, ?unary, ?selectors, ?arguments, ?primary⟩
    case expr =>
      refine (ih.levels Level.ladder).bind (ho.levels _).orderly fun target => ?_
      refine Tracks.choose [.symbol .equal] (fun equals _ => .previous ?_) (.pure target)
      refine ih.expr.bind ho.expr.orderly fun value => ?_
      cases target with
      | «variable» r => exact (Tracks.newReference r.name).bind (.newReference _) fun _ => .pure _
      | get object name => exact .pure _
      | _ => exact (Tracks.report equals .invalidTarget).bind (.report _ _) fun _ => .pure _
    case levels =>
      intro levels
      cases levels with
      | nil => exact ih.unary
      | cons level tighter =>
        exact (ih.levels tighter).bind (ho.levels _).orderly fun left =>
          ih.operands level tighter left
    case operands =>
      intro level tighter left
      refine Tracks.choose level.operators (fun operator _ => .previous ?_) (.pure left)
      exact (ih.levels tighter).bind (ho.levels _).orderly fun right => ih.operands level tighter _
    case unary =>
      refine Tracks.choose unaryOperators (fun operator _ => .previous ?_) ?_
      · exact ih.unary.bind ho.unary.orderly fun e => .pure _
      · exact ih.primary.bind ho.primary.orderly fun head => ih.selectors head
    case selectors =>
      intro head
      refine Tracks.tries [.symbol .leftParen] [.symbol .dot] ?_ ?_
      · intro t ht
        simp only [List.mem_singleton.1 ht, beq_self_eq_true, if_true]
        refine (Tracks.unlessAt (ih.arguments 0)).from_anywhere.bind
          (.unlessNext (ho.arguments 0).orderly) fun arguments => ?_
        exact Tracks.consume .argumentsClose fun paren => (ih.selectors _).from_anywhere
      · refine Tracks.choose [.symbol .dot] ?_ (.pure head)
        intro t ht
        simp only [List.mem_singleton.1 ht, beq_iff_eq, Token.Kind.symbol.injEq, reduceCtorEq,
          if_false]
        exact Tracks.consume .propertyName fun name => (ih.selectors _).from_anywhere
    case arguments =>
      intro count
      refine (Tracks.reportIf _ .tooManyArguments).bind (.reportIf _ _) fun _ => ?_
      refine ih.expr.bind ho.expr.orderly fun argument => ?_
      refine Tracks.choose [.symbol .comma] (fun comma _ => ?_) (.pure [argument])
      exact (ih.arguments (count + 1)).from_anywhere.bind (ho.arguments _).orderly fun more =>
        .pure _
    case primary =>
      refine Tracks.tries [.keyword .false_] _ (fun t ht => ?_) ?_
      · simp only [List.mem_singleton.1 ht]
        exact .pure _
      refine Tracks.tries [.keyword .true_] _ (fun t ht => ?_) ?_
      · simp only [List.mem_singleton.1 ht]
        exact .pure _
      refine Tracks.tries [.keyword .nil] _ (fun t ht => ?_) ?_
      · simp only [List.mem_singleton.1 ht]
        exact .pure _
      refine Tracks.tries [.number, .string] _ (fun t ht => ?_) ?_
      · simp only [List.mem_cons, List.not_mem_nil, or_false] at ht
        rcases ht with ht | ht <;> simp only [ht] <;> exact .previous (.pure _)
      refine Tracks.tries [.keyword .super] _ (fun t ht => ?_) ?_
      · simp only [List.mem_singleton.1 ht]
        refine .previous (Tracks.consume .superDot fun dot => ?_)
        refine Tracks.consume .superMethod fun method => ?_
        exact (Tracks.newReference t).bind (.newReference t) fun ref => .pure _
      refine Tracks.tries [.keyword .this] _ (fun t ht => ?_) ?_
      · simp only [List.mem_singleton.1 ht]
        exact .previous ((Tracks.newReference t).bind (.newReference t) fun ref => .pure _)
      refine Tracks.tries [.identifier] _ (fun t ht => ?_) ?_
      · simp only [List.mem_singleton.1 ht]
        exact .previous ((Tracks.newReference t).bind (.newReference t) fun ref => .pure _)
      refine Tracks.choose [.symbol .leftParen] (fun t ht => ?_) (.fail _)
      simp only [List.mem_singleton.1 ht]
      refine ih.expr.from_anywhere.bind ho.expr.orderly fun inner => ?_
      exact Tracks.consume .groupClose fun closing => .pure _

/-! ### Statements -/

section

variable (T : Text) (n : Nat)

theorem parameters_tracks : ∀ count,
    Tracks T Anywhere (Indexed.parameters T.tokens n count) (parseParameters n count) := by
  induction n with
  | zero =>
    intro count
    exact .outOfFuel
  | succ n ih =>
    intro count
    refine (Tracks.reportIf _ .tooManyParameters).bind (.reportIf _ _) fun _ => ?_
    refine Tracks.consume .parameterName fun parameter => ?_
    refine Tracks.choose [.symbol .comma] (fun comma _ => ?_) (.pure [parameter])
    exact (ih (count + 1)).from_anywhere.bind (parameters_course n _) fun more => .pure _

theorem var_tracks {P : Cursor → Prop} :
    Tracks T P (Indexed.varDeclaration T.tokens n) (parseVar n) := by
  have hexpr := (tracksExpr T n).expr
  have ho := (courseExpr n).expr.orderly
  refine Tracks.consume .variableName fun name => ?_
  refine (Tracks.following ho hexpr).bind (.after ho) fun initializer => ?_
  exact Tracks.consume .variableEnd fun _ => .pure _

theorem expressionStatement_tracks {P : Cursor → Prop} :
    Tracks T P (Indexed.expressionStatement T.tokens n) (parseExpressionStatement n) := by
  refine (tracksExpr T n).expr.from_anywhere.bind (courseExpr n).expr.orderly fun e => ?_
  exact Tracks.consume .expressionEnd fun _ => .pure _

theorem forInitializer_tracks {P : Cursor → Prop} :
    Tracks T P (Indexed.forInitializer T.tokens n) (parseForInitializer n) := by
  refine Tracks.tries [.symbol .semicolon] [.keyword .var] (fun t ht => ?_) ?_
  · simp only [List.mem_singleton.1 ht, beq_iff_eq, reduceCtorEq, if_false]
    exact .pure none
  · refine Tracks.choose [.keyword .var] (fun t ht => ?_) ?_
    · simp only [List.mem_singleton.1 ht, beq_self_eq_true, if_true]
      exact (var_tracks T n).map (var_course n).orderly some
    · exact (expressionStatement_tracks T n).map (expressionStatement_course n).orderly some

theorem condition_tracks {P : Cursor → Prop} (opening closing : Expectation) :
    Tracks T P (Indexed.condition T.tokens n opening closing)
      (parseCondition n opening closing) := by
  refine Tracks.consume opening fun _ => ?_
  refine (tracksExpr T n).expr.from_anywhere.bind (courseExpr n).expr.orderly fun e => ?_
  exact Tracks.consume closing fun _ => .pure _

theorem optional_tracks {P : Cursor → Prop} (k : Token.Kind) :
    Tracks T P (Indexed.unlessAt T.tokens k none (some <$> Indexed.expression T.tokens n))
      (Parse.unlessNext k none (some <$> parseExpr n)) :=
  .unlessAt ((tracksExpr T n).expr.map (courseExpr n).expr.orderly some)

end

/-- What is known of the steps for statements with the given fuel. -/
structure TracksStmt (T : Text) (n : Nat) : Prop where
  declaration :
    Tracks T Cursor.Unfinished (Indexed.declaration T.tokens n) (parseDeclaration n)
  classDecl : Tracks T Anywhere (Indexed.classDeclaration T.tokens n) (parseClass n)
  methods : Tracks T Anywhere (Indexed.methods T.tokens n) (parseMethods n)
  routine : ∀ kind, Tracks T Anywhere (Indexed.routine T.tokens n kind) (parseRoutine n kind)
  block : Tracks T Anywhere (Indexed.block T.tokens n) (parseBlock n)
  statement : Tracks T Anywhere (Indexed.statement T.tokens n) (parseStatement n)
  loop : Tracks T Anywhere (Indexed.forStatement T.tokens n) (parseFor n)

/-- **Every step for statements is tracked.** -/
theorem tracksStmt (T : Text) (n : Nat) : TracksStmt T n := by
  induction n with
  | zero => constructor <;> intros <;> exact .outOfFuel
  | succ n ih =>
    have ho := courseStmt n
    have hexpr := (tracksExpr T n).expr
    have hoexpr := (courseExpr n).expr.orderly
    refine ⟨?declaration, ?classDecl, ?methods, ?routine, ?block, ?statement, ?loop⟩
    case declaration =>
      refine Tracks.recovering ho.attempt.orderly ?_
      refine Tracks.tries [.keyword .class_] _ (fun t ht => ?_) ?_
      · simp only [List.mem_singleton.1 ht]
        exact ih.classDecl.from_anywhere
      refine Tracks.tries [.keyword .fun_] _ (fun t ht => ?_) ?_
      · simp only [List.mem_singleton.1 ht]
        exact (ih.routine .function).from_anywhere.bind (ho.routine _).orderly fun r => .pure _
      refine Tracks.choose [.keyword .var] (fun t ht => ?_) ih.statement
      simp only [List.mem_singleton.1 ht]
      exact var_tracks T n
    case classDecl =>
      refine Tracks.consume .className fun name => ?_
      have hname : Orderly (Parse.expect .superclassName >>= Parse.newReference) :=
        (Orderly.expect _).bind fun t => .newReference t
      have hsuperclass : Tracks T Anywhere
          (Indexed.consume T.tokens .superclassName >>= fun _ =>
            Indexed.previous T.tokens >>= Indexed.newReference)
          (Parse.expect .superclassName >>= Parse.newReference) :=
        .consume .superclassName fun t => .previous (.newReference t)
      refine (Tracks.following hname hsuperclass).bind (.after hname) fun superclass => ?_
      refine Tracks.consume .classOpen fun _ => ?_
      refine ih.methods.from_anywhere.bind ho.methods fun methods => ?_
      exact Tracks.consume .classClose fun _ => .pure _
    case methods =>
      refine Tracks.blockEnd (.pure []) ?_
      refine (ih.routine .method).from_anywhere.bind (ho.routine _).orderly fun method => ?_
      exact ih.methods.bind ho.methods fun more => .pure _
    case routine =>
      intro kind
      refine Tracks.consume (.routineName kind) fun name => ?_
      refine Tracks.consume (.routineOpen kind) fun _ => ?_
      refine (Tracks.unlessAt (parameters_tracks T n 0)).bind
        (.unlessNext (parameters_course n 0)) fun parameters => ?_
      refine Tracks.consume .parametersClose fun _ => ?_
      refine Tracks.consume (.routineBody kind) fun _ => ?_
      exact ih.block.from_anywhere.bind ho.block.orderly fun body => .pure _
    case block =>
      refine Tracks.blockEnd (Tracks.consume .blockClose fun _ => .pure []) ?_
      refine ih.declaration.bind ho.declaration fun first => ?_
      exact ih.block.bind ho.block.orderly fun more => .pure _
    case statement =>
      refine Tracks.tries [.keyword .for_] _ (fun t ht => ?_) ?_
      · simp only [List.mem_singleton.1 ht]
        exact ih.loop.from_anywhere
      refine Tracks.tries [.keyword .if_] _ (fun t ht => ?_) ?_
      · simp only [List.mem_singleton.1 ht]
        refine (condition_tracks T n .ifOpen .ifClose).bind (condition_course n _ _) fun c => ?_
        refine ih.statement.bind ho.statement.orderly fun thenBranch => ?_
        have hafter : Orderly (Parse.after (.keyword .else_) (parseStatement n)) :=
          .after ho.statement.orderly
        exact (Tracks.following ho.statement.orderly ih.statement).bind hafter fun _ => .pure _
      refine Tracks.tries [.keyword .print] _ (fun t ht => ?_) ?_
      · simp only [List.mem_singleton.1 ht]
        refine hexpr.from_anywhere.bind hoexpr fun value => ?_
        exact Tracks.consume .printEnd fun _ => .pure _
      refine Tracks.tries [.keyword .return_] _ (fun t ht => ?_) ?_
      · simp only [List.mem_singleton.1 ht]
        refine .previous ((optional_tracks T n _).bind (optional_course n _) fun value => ?_)
        exact Tracks.consume .returnEnd fun _ => .pure _
      refine Tracks.tries [.keyword .while_] _ (fun t ht => ?_) ?_
      · simp only [List.mem_singleton.1 ht]
        refine (condition_tracks T n .whileOpen .whileClose).bind (condition_course n _ _)
          fun c => ?_
        exact ih.statement.bind ho.statement.orderly fun body => .pure _
      refine Tracks.choose [.symbol .leftBrace] (fun t ht => ?_) (expressionStatement_tracks T n)
      simp only [List.mem_singleton.1 ht]
      exact ih.block.from_anywhere.bind ho.block.orderly fun body => .pure _
    case loop =>
      refine Tracks.consume .forOpen fun _ => ?_
      refine (forInitializer_tracks T n).bind (forInitializer_course n) fun initializer => ?_
      refine (optional_tracks T n _).bind (optional_course n _) fun condition => ?_
      refine Tracks.consume .loopConditionEnd fun _ => ?_
      refine (optional_tracks T n _).bind (optional_course n _) fun increment => ?_
      refine Tracks.consume .forClose fun _ => ?_
      exact ih.statement.from_anywhere.bind ho.statement.orderly fun body => .pure _

/-! ### Whole texts -/

theorem program_tracks (T : Text) (n : Nat) :
    Tracks T Anywhere (Indexed.program T.tokens n) (parseDeclarations n) := by
  induction n with
  | zero => exact .outOfFuel
  | succ n ih =>
    intro c hc _
    have hstep : Parse.atEnd c = .ok c.rest.isEmpty c := rfl
    rw [Indexed.program, parseDeclarations, bind_ok (Text.atEnd_eq hc), bind_ok hstep]
    cases hend : c.rest.isEmpty with
    | true => rfl
    | false =>
      have hsome : c.Unfinished := fun hrest => by
        rw [hrest] at hend
        cases hend
      refine ((tracksStmt T n).declaration.bind (courseStmt n).declaration fun first => ?_) c hc
        hsome
      exact ih.bind (declarations_course n) fun more => .pure _

/-- An expression, with the end mark behind it. -/
theorem singleExpression_tracks (T : Text) (n : Nat) :
    Tracks T Anywhere
      (do
        let e ← Indexed.expression T.tokens n
        if ← Indexed.atEnd T.tokens then return e else Indexed.fail T.tokens .missingEnd)
      (do
        let e ← parseExpr n
        if ← Parse.atEnd then return e else Parse.fail .missingEnd) := by
  refine (tracksExpr T n).expr.bind (courseExpr n).expr.orderly fun e => ?_
  intro c hc _
  have hstep : Parse.atEnd c = .ok c.rest.isEmpty c := rfl
  rw [bind_ok (Text.atEnd_eq hc), bind_ok hstep]
  cases c.rest.isEmpty with
  | true => rfl
  | false => exact Tracks.fail (P := Anywhere) .missingEnd c hc trivial

end Lox
