/-
**Programs that are parsed are in the grammar.**

Declarations and statements: a parse step that reports nothing takes tokens that the grammar
derives, and gives the tree of the derivation.  Behind a statement that ends in an `if` without an
`else` no `else` is next, since the parser would have taken it.

Main definitions:

* `Lox.MadeStatement` — a statement derived from given tokens, with what may be next behind it;
* `Lox.SoundStmt` — what is known of the parse steps with a given amount of fuel.

Main results:

* `Lox.soundStmt` — **parse steps give what the grammar derives**;
* `Lox.parseProgram_sound`, `Lox.parseExpression_sound` — the same for whole texts.
-/

import Lox.Proofs.Grammar.Soundness.Expression

set_option relaxedAutoImplicit false
set_option autoImplicit false

namespace Lox

open Grammar

section

variable {n : Nat} {c : Cursor}

/-! ### Parts of statements -/

/-- Parameters derived from the given tokens, `count` of which stand before. -/
def MadeParameters (count : Nat) (ts : List Token) (lo hi : Nat) (ps : List Token) : Prop :=
  Separated (ps.map fun p => [p]) ts ∧ (∀ p ∈ ps, p.kind = .identifier) ∧
    count + ps.length ≤ 255 ∧ hi = lo

theorem parameters_outcome (n : Nat) : ∀ (c : Cursor) (count : Nat), c.rest.length < n →
    ParseOutcome c 1 (fun ts _ lo hi ps => MadeParameters count ts lo hi ps ∧ ps ≠ [])
      (parseParameters n count c) := by
  induction n with
  | zero =>
    intro c _ hn
    exact absurd hn (Nat.not_lt_zero _)
  | succ n ih =>
    intro c count hn
    rw [parseParameters]
    refine (reportIf_outcome _ .tooManyParameters).before ?_
    intro _ c₁ ts₁ hrest₁
    have hlen₁ := length_of_rest hrest₁
    refine (expect_outcome .parameterName).bind ?_
    intro p c₂ ts₂ hrest₂ hts₂
    have hlen₂ := length_of_rest hrest₂
    rcases accept_cases (.symbol .comma) c₂ with ⟨comma, rest, hrest₃, hcomma, hstep⟩ | ⟨-, hstep⟩
    · rw [bind_ok hstep]
      have hlen₃ := length_of_cons hrest₃
      refine (ParseOutcome.take hrest₃ ?_).weaken
      refine (ih { c₂ with rest := rest } (count + 1) (by dsimp only; omega)).weaken.bind ?_
      intro more c₃ us _ _
      refine .pure ?_
      rintro us lo _ _ ⟨⟨hcommas, hkinds, hcount, hid⟩, hne⟩ _ _ _ _ ⟨rfl, hp, rfl⟩ _ _ _ _
        ⟨rfl, rfl, -⟩
      obtain ⟨q, qs, rfl⟩ := List.exists_cons_of_ne_nil hne
      simp only [List.append_nil, List.nil_append]
      refine ⟨⟨.more hcomma hcommas, ?_, ?_, hid⟩, by simp⟩
      · intro a ha
        rcases List.mem_cons.1 ha with rfl | ha
        · exact hp
        · exact hkinds a ha
      · simp only [List.length_cons] at hcount ⊢
        omega
    · rw [bind_ok hstep]
      refine .pure ?_
      rintro _ lo _ _ ⟨rfl, hp, rfl⟩ _ lo' _ _ ⟨rfl, hid, hfew⟩
      -- No finding was made, so that the number of parameters is within the limit.
      have hcount : count < maxArguments := Nat.lt_of_not_le (of_decide_eq_false hfew)
      rw [maxArguments] at hcount
      refine ⟨⟨.one [p], fun a ha => List.mem_singleton.1 ha ▸ hp, ?_, hid⟩, by simp⟩
      simp only [List.length_singleton]
      omega

/-- A variable declaration behind its first word. -/
theorem var_outcome (hn : 32 * c.rest.length + 10 ≤ n) :
    ParseOutcome c 1 (fun ts _ lo hi s => (∀ {word : Token}, word.kind = .keyword .var →
      Variable (word :: ts) s) ∧ Numbered lo hi s.references) (parseVar n c) := by
  unfold parseVar
  refine (expect_outcome .variableName).bind ?_
  intro name c₁ _ hrest₁ _
  have hlen₁ := length_of_rest hrest₁
  refine (after_outcome fun c' hlt => (soundExpr n).expr c' (by omega)).bind ?_
  intro initializer c₂ _ _ _
  refine (expect_outcome .variableEnd).weaken.bind ?_
  intro semicolon c₃ _ _ _
  refine .pure ?_
  rintro _ lo _ _ ⟨rfl, hsemicolon, hid⟩ ts lo' _ _ hbehind _ _ _ _ ⟨rfl, hname, rfl⟩
  rw [hid]
  cases initializer with
  | none =>
    obtain ⟨rfl, rfl, -⟩ := hbehind
    exact ⟨fun hword => .mk hword hname .none hsemicolon, .nil ..⟩
  | some e =>
    obtain ⟨equals, us, rfl, hequals, he, hnumbers⟩ := hbehind
    exact ⟨fun hword => .mk hword hname (.some (.mk hequals he)) hsemicolon, hnumbers⟩

theorem expressionStatement_outcome (hn : 32 * c.rest.length + 10 ≤ n) :
    ParseOutcome c 1 (fun ts _ lo hi s => ExpressionStatement ts s ∧ Numbered lo hi s.references)
      (parseExpressionStatement n c) := by
  unfold parseExpressionStatement
  refine ((soundExpr n).expr c hn).bind ?_
  intro e c₁ _ _ _
  refine (expect_outcome .expressionEnd).weaken.bind ?_
  intro semicolon c₂ _ _ _
  refine .pure ?_
  rintro _ lo _ _ ⟨rfl, hsemicolon, hid⟩ ts lo' _ _ ⟨he, hnumbers⟩
  rw [hid]
  exact ⟨.mk he hsemicolon, hnumbers⟩

theorem forInitializer_outcome (hn : 32 * c.rest.length + 10 ≤ n) :
    ParseOutcome c 1 (fun ts _ lo hi s? => ForInitializer ts s? ∧
      Numbered lo hi (s?.elim [] Stmt.references)) (parseForInitializer n c) := by
  unfold parseForInitializer
  rcases acceptAny_cases [.symbol .semicolon, .keyword .var] c with
    ⟨t, rest, hrest, ht, hstep⟩ | ⟨-, hstep⟩
  · rw [bind_ok hstep]
    have hlen := length_of_cons hrest
    refine ParseOutcome.take hrest ?_
    by_cases hvar : t.kind = .keyword .var
    · simp only [hvar, beq_self_eq_true, if_true]
      refine (var_outcome (c := { c with rest := rest }) (by dsimp only; omega)).weaken.bind
        (f := fun s => Pure.pure (some s)) ?_
      intro s c₁ _ _ _
      refine .pure ?_
      intro ts lo _ _ ⟨hs, hnumbers⟩
      rw [List.append_nil]
      exact ⟨.var (hs hvar), hnumbers⟩
    · have hsemicolon : t.kind = .symbol .semicolon := by simpa [hvar] using ht
      simp only [hsemicolon, beq_iff_eq, reduceCtorEq, if_false]
      exact .pure ⟨.none hsemicolon, .nil ..⟩
  · rw [bind_ok hstep]
    refine (expressionStatement_outcome hn).bind (f := fun s => Pure.pure (some s)) ?_
    intro s c₁ _ _ _
    refine .pure ?_
    intro ts lo _ _ ⟨hs, hnumbers⟩
    rw [List.append_nil]
    exact ⟨.expression hs, hnumbers⟩

theorem condition_outcome (opening closing : Expectation)
    (hopening : opening.kind = .symbol .leftParen) (hclosing : closing.kind = .symbol .rightParen)
    (hn : 32 * c.rest.length + 10 ≤ n) :
    ParseOutcome c 1 (fun ts _ lo hi e => Condition ts e ∧ Numbered lo hi e.references)
      (parseCondition n opening closing c) := by
  unfold parseCondition
  refine (expect_outcome opening).bind ?_
  intro l c₁ _ hrest₁ _
  have hlen₁ := length_of_rest hrest₁
  refine ((soundExpr n).expr c₁ (by omega)).weaken.bind ?_
  intro e c₂ _ _ _
  refine (expect_outcome closing).weaken.bind ?_
  intro r c₃ _ _ _
  refine .pure ?_
  rintro _ lo _ _ ⟨rfl, hr, hid⟩ ts lo' _ _ ⟨he, hnumbers⟩ _ _ _ _ ⟨rfl, hl, rfl⟩
  rw [hid]
  exact ⟨.mk (hl.trans hopening) he (hr.trans hclosing), hnumbers⟩

/-- An expression, unless a token that ends it is next. -/
theorem optional_outcome (k : Token.Kind) (hn : 32 * c.rest.length + 10 ≤ n) :
    ParseOutcome c 0 (fun ts _ lo hi e? => Optional (Derives .assignment) ts e? ∧
      Numbered lo hi (e?.elim [] Expr.references))
      (Parse.unlessNext k none (some <$> parseExpr n) c) := by
  refine unlessNext_outcome ?_ fun _ lo => ⟨.none, .nil ..⟩
  refine ((soundExpr n).expr c hn).weaken.bind (f := fun e => Pure.pure (some e)) ?_
  intro e c₁ _ _ _
  refine .pure ?_
  intro ts lo _ _ ⟨he, hnumbers⟩
  rw [List.append_nil]
  exact ⟨.some he, hnumbers⟩

end

/-! ### Statements and declarations -/

/-- A statement derived from the given tokens.  If it waits for an `else`, none is next. -/
def MadeStatement (ts rest : List Token) (lo hi : Nat) (s : Stmt) : Prop :=
  (∃ closed, Parses (.statement closed) ts s ∧
    (closed = false → ∀ t, rest.head? = some t → t.kind ≠ .keyword .else_)) ∧
    Numbered lo hi s.references

/-- A declaration derived from the given tokens. -/
def MadeDeclaration (ts : List Token) (lo hi : Nat) (s : Stmt) : Prop :=
  Parses .declaration ts s ∧ Numbered lo hi s.references

/-- A name, parameters and a body derived from the given tokens. -/
def MadeRoutine (ts : List Token) (lo hi : Nat) (r : Routine) : Prop :=
  Parses .routine ts (.function r) ∧ Numbered lo hi r.references

/-- Methods derived from the given tokens. -/
def MadeMethods (ts : List Token) (lo hi : Nat) (rs : List Routine) : Prop :=
  (∃ parts : List (List Token × Routine), (∀ m ∈ parts, Parses .routine m.1 (.function m.2)) ∧
    ts = (parts.map Prod.fst).flatten ∧ rs = parts.map Prod.snd) ∧
    Numbered lo hi (referencesOfMethods rs)

/-- Declarations derived from the given tokens. -/
def MadeBody (ts : List Token) (lo hi : Nat) (ss : List Stmt) : Prop :=
  Program ts ss ∧ Numbered lo hi (referencesOfBody ss)

theorem MadeBody.nil (lo hi : Nat) : MadeBody [] lo hi [] :=
  ⟨⟨[], by simp, rfl, rfl⟩, .nil lo hi⟩

theorem MadeDeclaration.cons {ts us : List Token} {lo mid hi : Nat} {s : Stmt} {ss : List Stmt}
    (hs : MadeDeclaration ts lo mid s) (hss : MadeBody us mid hi ss) (hlo : lo ≤ mid)
    (hhi : mid ≤ hi) : MadeBody (ts ++ us) lo hi (s :: ss) := by
  obtain ⟨⟨parts, hparts, rfl, rfl⟩, hnumbers⟩ := hss
  refine ⟨⟨(ts, s) :: parts, ?_, rfl, rfl⟩, hs.2.append hnumbers hlo hhi⟩
  intro d hd
  rcases List.mem_cons.1 hd with rfl | hd
  · exact hs.1
  · exact hparts d hd

theorem MadeMethods.nil (lo hi : Nat) : MadeMethods [] lo hi [] :=
  ⟨⟨[], by simp, rfl, rfl⟩, .nil lo hi⟩

theorem MadeRoutine.cons {ts us : List Token} {lo mid hi : Nat} {r : Routine} {rs : List Routine}
    (hr : MadeRoutine ts lo mid r) (hrs : MadeMethods us mid hi rs) (hlo : lo ≤ mid)
    (hhi : mid ≤ hi) : MadeMethods (ts ++ us) lo hi (r :: rs) := by
  obtain ⟨⟨parts, hparts, rfl, rfl⟩, hnumbers⟩ := hrs
  refine ⟨⟨(ts, r) :: parts, ?_, rfl, rfl⟩, hr.2.append hnumbers hlo hhi⟩
  intro d hd
  rcases List.mem_cons.1 hd with rfl | hd
  · exact hr.1
  · exact hparts d hd

/-- What is known of the parse steps for statements with `n` units of fuel. -/
structure SoundStmt (n : Nat) : Prop where
  declaration : ∀ (c : Cursor), c.rest ≠ [] → 32 * c.rest.length + 12 ≤ n →
    ParseOutcome c 1 (fun ts _ lo hi s? => ∃ s, s? = some s ∧ MadeDeclaration ts lo hi s)
      (parseDeclaration n c)
  classDecl : ∀ (c : Cursor), 32 * c.rest.length + 1 ≤ n →
    ParseOutcome c 1 (fun ts _ lo hi s => ∀ {word : Token}, word.kind = .keyword .class_ →
      MadeDeclaration (word :: ts) lo hi s) (parseClass n c)
  methods : ∀ (c : Cursor), 32 * c.rest.length + 2 ≤ n →
    ParseOutcome c 0 (Anyhow MadeMethods) (parseMethods n c)
  routine : ∀ (c : Cursor) (kind : RoutineKind), 32 * c.rest.length + 1 ≤ n →
    ParseOutcome c 1 (Anyhow MadeRoutine) (parseRoutine n kind c)
  block : ∀ (c : Cursor), 32 * c.rest.length + 13 ≤ n →
    ParseOutcome c 1 (fun ts _ lo hi ss => ∃ us brace, ts = us ++ [brace] ∧
      brace.kind = .symbol .rightBrace ∧ MadeBody us lo hi ss) (parseBlock n c)
  statement : ∀ (c : Cursor), 32 * c.rest.length + 11 ≤ n →
    ParseOutcome c 1 MadeStatement (parseStatement n c)
  forLoop : ∀ (c : Cursor), 32 * c.rest.length + 1 ≤ n →
    ParseOutcome c 1 (fun ts rest lo hi s => ∀ {word : Token}, word.kind = .keyword .for_ →
      MadeStatement (word :: ts) rest lo hi s) (parseFor n c)

section

variable {n : Nat} {c : Cursor}

theorem declaration_outcome (ih : SoundStmt n) (hne : c.rest ≠ [])
    (hn : 32 * c.rest.length + 12 ≤ n + 1) :
    ParseOutcome c 1 (fun ts _ lo hi s? => ∃ s, s? = some s ∧ MadeDeclaration ts lo hi s)
      (parseDeclaration (n + 1) c) := by
  -- Recovery comes with a finding, and nothing is promised of the result then.
  refine recovering_outcome (Q := Anyhow MadeDeclaration) hne ?_
  rcases acceptAny_cases [.keyword .class_, .keyword .fun_, .keyword .var] c with
    ⟨t, rest, hrest, ht, hstep⟩ | ⟨-, hstep⟩
  · rw [bind_ok hstep]
    have hlen := length_of_cons hrest
    refine ParseOutcome.take hrest ?_
    simp only [List.mem_cons, List.not_mem_nil, or_false] at ht
    rcases ht with hk | hk | hk <;> simp only [hk]
    · refine (ih.classDecl { c with rest := rest } (by dsimp only; omega)).imp (Nat.zero_le 1) ?_
      intro ts _ lo hi s _ hs
      exact hs hk
    · refine (ih.routine { c with rest := rest } .function (by dsimp only; omega)).weaken.bind ?_
      intro r c₁ _ _ _
      refine .pure ?_
      intro ts lo _ _ ⟨hr, hnumbers⟩
      rw [List.append_nil]
      exact ⟨.function hk hr, hnumbers⟩
    · refine (var_outcome (c := { c with rest := rest }) (by dsimp only; omega)).imp
        (Nat.zero_le 1) ?_
      intro ts _ lo hi s _ ⟨hs, hnumbers⟩
      exact ⟨.var (hs hk), hnumbers⟩
  · rw [bind_ok hstep]
    refine (ih.statement c (by omega)).imp (Nat.le_refl 1) ?_
    intro ts _ lo hi s _ ⟨⟨closed, hs, _⟩, hnumbers⟩
    exact ⟨.statement hs, hnumbers⟩

theorem class_outcome (ih : SoundStmt n) (hn : 32 * c.rest.length + 1 ≤ n + 1) :
    ParseOutcome c 1 (fun ts _ lo hi s => ∀ {word : Token}, word.kind = .keyword .class_ →
      MadeDeclaration (word :: ts) lo hi s) (parseClass (n + 1) c) := by
  rw [parseClass]
  refine (expect_outcome .className).bind ?_
  intro name c₁ _ hrest₁ hts₁
  have hlen₁ := length_of_rest hrest₁
  have hsuper : ParseOutcome c₁ 0 (Behind (.symbol .less) (fun ts _ lo hi ref =>
      ts = [ref.name] ∧ ref.name.kind = .identifier ∧ Numbered lo hi [ref]))
      (Parse.after (.symbol .less) (Parse.newReference =<< Parse.expect .superclassName) c₁) := by
    refine after_outcome (b := 1) fun c' _ => ?_
    refine (expect_outcome .superclassName).bind ?_
    intro t c'' _ _ _
    refine (newReference_outcome t).imp (Nat.le_refl 0) ?_
    rintro _ _ lo hi ref _ ⟨rfl, rfl, rfl, rfl⟩ _ _ _ _ ⟨rfl, hname, rfl⟩
    exact ⟨rfl, hname, .single ref⟩
  refine hsuper.bind ?_
  intro superclass c₂ _ hrest₂ _
  have hlen₂ := length_of_rest hrest₂
  refine (expect_outcome .classOpen).weaken.bind ?_
  intro brace c₃ _ hrest₃ _
  have hlen₃ := length_of_rest hrest₃
  refine (ih.methods c₃ (by omega)).bind ?_
  intro methods c₄ _ _ _
  refine (expect_outcome .classClose).weaken.bind ?_
  intro brace' c₅ _ _ _
  refine .pure ?_
  rintro _ _ _ _ ⟨rfl, hbrace', hid⟩ ms lo₃ hlo₃ _ ⟨⟨parts, hparts, rfl, rfl⟩, hmnumbers⟩ _ _ _ _
    ⟨rfl, hbrace, rfl⟩ ss lo₁ hlo₁ _ hbehind _ _ _ _ ⟨rfl, hname, rfl⟩ word hword
  rw [hid]
  have hclass : ∀ {superclass : Option Reference} {ss : List Token},
      Optional Superclass ss superclass → Parses .declaration
        (word :: ([name] ++ (ss ++ ([brace] ++
          ((parts.map Prod.fst).flatten ++ ([brace'] ++ []))))))
        (.classDecl name superclass (parts.map Prod.snd)) := by
    intro superclass ss hss
    have h := Parses.classDecl hword hname hss hbrace hparts hbrace'
    simpa only [List.append_assoc, List.cons_append, List.nil_append, List.append_nil] using h
  cases superclass with
  | none =>
    obtain ⟨rfl, rfl, -⟩ := hbehind
    exact ⟨hclass .none, hmnumbers⟩
  | some ref =>
    obtain ⟨less, us, rfl, hless, rfl, href, hrnumbers⟩ := hbehind
    exact ⟨hclass (.some (.mk hless href)), hrnumbers.append hmnumbers hlo₁ hlo₃⟩

theorem atBlockEnd_eq (c : Cursor) : Parse.atBlockEnd c =
    .ok (c.rest.head?.any (fun t => t.kind == .symbol .rightBrace) || c.rest.isEmpty) c := rfl

theorem rest_ne_nil_of_atBlockEnd_eq_false {c : Cursor}
    (h : (c.rest.head?.any (fun t => t.kind == .symbol .rightBrace) || c.rest.isEmpty) = false) :
    c.rest ≠ [] := by
  intro hnil
  rw [hnil] at h
  exact absurd h (by simp)

theorem methods_outcome (ih : SoundStmt n) (hn : 32 * c.rest.length + 2 ≤ n + 1) :
    ParseOutcome c 0 (Anyhow MadeMethods) (parseMethods (n + 1) c) := by
  rw [parseMethods, bind_ok (atBlockEnd_eq c)]
  split
  · exact .pure (.nil ..)
  · refine ((ih.routine c .method (by omega)).bind ?_).weaken
    intro r c₁ _ hrest₁ hts₁
    have hlen₁ := length_of_rest hrest₁
    refine (ih.methods c₁ (by omega)).bind ?_
    intro rs c₂ _ _ _
    refine .pure ?_
    intro us mid hmid _ hrs ts lo hlo _ hr
    rw [List.append_nil]
    exact hr.cons hrs hlo hmid

theorem routine_outcome (ih : SoundStmt n) {kind : RoutineKind}
    (hn : 32 * c.rest.length + 1 ≤ n + 1) :
    ParseOutcome c 1 (Anyhow MadeRoutine) (parseRoutine (n + 1) kind c) := by
  rw [parseRoutine]
  refine (expect_outcome (.routineName kind)).bind ?_
  intro name c₁ _ hrest₁ hts₁
  have hlen₁ := length_of_rest hrest₁
  refine (expect_outcome (.routineOpen kind)).weaken.bind ?_
  intro opening c₂ _ hrest₂ _
  have hlen₂ := length_of_rest hrest₂
  have hparams : ParseOutcome c₂ 0 (Anyhow (MadeParameters 0))
      (Parse.unlessNext (.symbol .rightParen) [] (parseParameters n 0) c₂) := by
    refine unlessNext_outcome ?_ fun _ lo => ⟨.none, by simp, by simp, rfl⟩
    exact (parameters_outcome n _ 0 (by omega)).imp (Nat.zero_le 1) fun _ h => h.1
  refine hparams.bind ?_
  intro params c₃ _ hrest₃ _
  have hlen₃ := length_of_rest hrest₃
  refine (expect_outcome .parametersClose).weaken.bind ?_
  intro closing c₄ _ hrest₄ _
  have hlen₄ := length_of_rest hrest₄
  refine (expect_outcome (.routineBody kind)).weaken.bind ?_
  intro brace c₅ _ hrest₅ _
  have hlen₅ := length_of_rest hrest₅
  refine (ih.block c₅ (by omega)).weaken.bind ?_
  intro body c₆ _ _ _
  refine .pure ?_
  rintro _ _ _ _ ⟨us, brace', rfl, hbrace', ⟨parts, hparts, rfl, rfl⟩, hnumbers⟩ _ _ _ _
    ⟨rfl, hbrace, rfl⟩ _ _ _ _ ⟨rfl, hclosing, rfl⟩ ps _ _ _ ⟨hcommas, hkinds, hcount, rfl⟩ _ _ _ _
    ⟨rfl, hopening, rfl⟩ _ _ _ _ ⟨rfl, hname, rfl⟩
  have h := Parses.routine hname hopening hcommas hkinds (by simpa using hcount) hclosing hbrace
    hparts hbrace'
  refine ⟨?_, hnumbers⟩
  simpa only [List.append_assoc, List.cons_append, List.nil_append, List.append_nil] using h

theorem block_outcome (ih : SoundStmt n) (hn : 32 * c.rest.length + 13 ≤ n + 1) :
    ParseOutcome c 1 (fun ts _ lo hi ss => ∃ us brace, ts = us ++ [brace] ∧
      brace.kind = .symbol .rightBrace ∧ MadeBody us lo hi ss) (parseBlock (n + 1) c) := by
  rw [parseBlock, bind_ok (atBlockEnd_eq c)]
  split
  · refine (expect_outcome .blockClose).bind ?_
    intro brace c₁ _ _ _
    refine .pure ?_
    rintro _ _ _ _ ⟨rfl, hbrace, -⟩
    exact ⟨[], brace, rfl, hbrace, .nil ..⟩
  · rename_i hend
    have hne := rest_ne_nil_of_atBlockEnd_eq_false (Bool.eq_false_iff.2 hend)
    refine (ih.declaration c hne (by omega)).bind ?_
    intro first c₁ _ hrest₁ hts₁
    have hlen₁ := length_of_rest hrest₁
    refine (ih.block c₁ (by omega)).weaken.bind ?_
    intro body c₂ _ _ _
    refine .pure ?_
    rintro _ mid hmid _ ⟨us, brace, rfl, hbrace, hbody⟩ ts lo hlo _ ⟨s, rfl, hs⟩
    refine ⟨ts ++ us, brace, by simp only [List.append_assoc, List.append_nil], hbrace, ?_⟩
    exact hs.cons hbody hlo hmid

theorem MadeStatement.of_closed {ts rest : List Token} {lo hi : Nat} {s : Stmt}
    (hs : Parses (.statement true) ts s) (hnumbers : Numbered lo hi s.references) :
    MadeStatement ts rest lo hi s :=
  ⟨⟨true, hs, fun h => absurd h (by simp)⟩, hnumbers⟩

theorem if_outcome (ih : SoundStmt n) {word : Token} (hword : word.kind = .keyword .if_)
    (hn : 32 * c.rest.length + 11 ≤ n) :
    ParseOutcome c 1 (fun ts rest lo hi s => MadeStatement (word :: ts) rest lo hi s)
      ((do
        let condition ← parseCondition n .ifOpen .ifClose
        let thenBranch ← parseStatement n
        let elseBranch ← Parse.after (.keyword .else_) (parseStatement n)
        return .cond condition thenBranch elseBranch : Parse Stmt) c) := by
  refine (condition_outcome .ifOpen .ifClose rfl rfl (by omega)).bind ?_
  intro condition c₁ _ hrest₁ _
  have hlen₁ := length_of_rest hrest₁
  refine (ih.statement c₁ (by omega)).weaken.bind ?_
  intro thenBranch c₂ _ hrest₂ _
  have hlen₂ := length_of_rest hrest₂
  refine (after_outcome fun c' hlt => ih.statement c' (by omega)).bind ?_
  intro elseBranch c₃ _ _ _
  refine .pure ?_
  intro us lo₂ hlo₂ _ hbehind ts lo₁ hlo₁ _ ⟨⟨closed, hthen, hnext⟩, htnumbers⟩ cs lo hlo _
    ⟨hcondition, hcnumbers⟩
  rw [List.append_nil]
  cases elseBranch with
  | none =>
    obtain ⟨rfl, rfl, hnot⟩ := hbehind
    rw [List.append_nil]
    exact ⟨⟨false, .ifThen hword hcondition hthen, fun _ => hnot⟩,
      hcnumbers.append htnumbers hlo hlo₁⟩
  | some s' =>
    obtain ⟨word', us, rfl, hword', ⟨closed', hs', hnext'⟩, hsnumbers⟩ := hbehind
    -- The branch is followed by an `else`, so that it does not wait for one itself.
    obtain rfl : closed = true := by
      cases closed with
      | true => rfl
      | false => exact absurd hword' (hnext rfl word' rfl)
    refine ⟨⟨closed', ?_, hnext'⟩,
      (hcnumbers.append htnumbers hlo hlo₁).append hsnumbers (Nat.le_trans hlo hlo₁) hlo₂⟩
    have h := Parses.ifThenElse hword hcondition hthen hword' hs'
    simpa only [List.append_assoc, List.cons_append] using h

theorem statement_outcome (ih : SoundStmt n) (hn : 32 * c.rest.length + 11 ≤ n + 1) :
    ParseOutcome c 1 MadeStatement (parseStatement (n + 1) c) := by
  rw [parseStatement]
  rcases acceptAny_cases [.keyword .for_, .keyword .if_, .keyword .print, .keyword .return_,
      .keyword .while_, .symbol .leftBrace] c with ⟨t, rest, hrest, ht, hstep⟩ | ⟨-, hstep⟩
  · rw [bind_ok hstep]
    have hlen := length_of_cons hrest
    refine ParseOutcome.take hrest ?_
    simp only [List.mem_cons, List.not_mem_nil, or_false] at ht
    rcases ht with hk | hk | hk | hk | hk | hk <;> simp only [hk]
    · refine (ih.forLoop { c with rest := rest } (by dsimp only; omega)).imp (Nat.zero_le 1) ?_
      intro ts _ lo hi s _ hs
      exact hs hk
    · exact (if_outcome (c := { c with rest := rest }) ih hk (by dsimp only; omega)).weaken
    · refine ((soundExpr n).expr { c with rest := rest } (by dsimp only; omega)).weaken.bind ?_
      intro e c₁ _ _ _
      refine (expect_outcome .printEnd).weaken.bind ?_
      intro semicolon c₂ _ _ _
      refine .pure ?_
      rintro _ _ _ _ ⟨rfl, hsemicolon, hid⟩ ts lo _ _ ⟨he, hnumbers⟩
      rw [hid]
      exact .of_closed (.print hk he hsemicolon) hnumbers
    · refine (optional_outcome (c := { c with rest := rest }) _ (by dsimp only; omega)).bind ?_
      intro value c₁ _ _ _
      refine (expect_outcome .returnEnd).weaken.bind ?_
      intro semicolon c₂ _ _ _
      refine .pure ?_
      rintro _ _ _ _ ⟨rfl, hsemicolon, hid⟩ ts lo _ _ ⟨hvalue, hnumbers⟩
      rw [hid]
      exact .of_closed (.ret hk hvalue hsemicolon) hnumbers
    · refine (condition_outcome .whileOpen .whileClose rfl rfl (c := { c with rest := rest })
        (by dsimp only; omega)).weaken.bind ?_
      intro condition c₁ cs hrest₁ _
      have hlen₁ : rest.length = cs.length + c₁.rest.length := length_of_rest hrest₁
      refine (ih.statement c₁ (by omega)).weaken.bind ?_
      intro body c₂ _ _ _
      refine .pure ?_
      intro ts mid hmid _ ⟨⟨closed, hs, hnext⟩, hsnumbers⟩ cs lo hlo _ ⟨hcondition, hcnumbers⟩
      rw [List.append_nil]
      -- A loop waits for an `else` exactly when its body does.
      exact ⟨⟨closed, .whileLoop hk hcondition hs, hnext⟩, hcnumbers.append hsnumbers hlo hmid⟩
    · refine (ih.block { c with rest := rest } (by dsimp only; omega)).weaken.bind ?_
      intro body c₁ _ _ _
      refine .pure ?_
      rintro _ lo _ _ ⟨us, brace', rfl, hbrace', ⟨parts, hparts, rfl, rfl⟩, hnumbers⟩
      rw [List.append_nil]
      exact .of_closed (.block hk hparts hbrace') hnumbers
  · rw [bind_ok hstep]
    refine (expressionStatement_outcome (by omega)).imp (Nat.le_refl 1) ?_
    intro ts _ lo hi s _ ⟨hs, hnumbers⟩
    exact .of_closed (.expression hs) hnumbers

/-- The references of a `for` loop are those of its parts. -/
theorem numbered_forLoop {initializer : Option Stmt} {condition increment : Option Expr}
    {body : Stmt} {n₀ n₁ n₂ n₃ n₄ : Nat} (h₁ : n₀ ≤ n₁) (h₂ : n₁ ≤ n₂) (h₃ : n₂ ≤ n₃) (h₄ : n₃ ≤ n₄)
    (hinitializer : Numbered n₀ n₁ (initializer.elim [] Stmt.references))
    (hcondition : Numbered n₁ n₂ (condition.elim [] Expr.references))
    (hincrement : Numbered n₂ n₃ (increment.elim [] Expr.references))
    (hbody : Numbered n₃ n₄ body.references) :
    Numbered n₀ n₄ (Stmt.forLoop initializer condition increment body).references := by
  -- The increment is parsed before the body and stands behind it.
  have hrun : Numbered n₂ n₄ (body.references ++ increment.elim [] Expr.references) :=
    (hincrement.append hbody h₃ h₄).comm
  have hloop := hinitializer.append (hcondition.append hrun h₂ (Nat.le_trans h₃ h₄)) h₁
    (Nat.le_trans h₂ (Nat.le_trans h₃ h₄))
  cases initializer <;> cases condition <;> cases increment <;>
    simpa [Stmt.forLoop, Stmt.references, referencesOfBody, Expr.references] using hloop

theorem for_outcome (ih : SoundStmt n) (hn : 32 * c.rest.length + 1 ≤ n + 1) :
    ParseOutcome c 1 (fun ts rest lo hi s => ∀ {word : Token}, word.kind = .keyword .for_ →
      MadeStatement (word :: ts) rest lo hi s) (parseFor (n + 1) c) := by
  rw [parseFor]
  refine (expect_outcome .forOpen).bind ?_
  intro opening c₁ _ hrest₁ hts₁
  have hlen₁ := length_of_rest hrest₁
  refine (forInitializer_outcome (by omega)).weaken.bind ?_
  intro initializer c₂ _ hrest₂ _
  have hlen₂ := length_of_rest hrest₂
  refine (optional_outcome _ (by omega)).bind ?_
  intro condition c₃ _ hrest₃ _
  have hlen₃ := length_of_rest hrest₃
  refine (expect_outcome .loopConditionEnd).weaken.bind ?_
  intro semicolon c₄ _ hrest₄ _
  have hlen₄ := length_of_rest hrest₄
  refine (optional_outcome _ (by omega)).bind ?_
  intro increment c₅ _ hrest₅ _
  have hlen₅ := length_of_rest hrest₅
  refine (expect_outcome .forClose).weaken.bind ?_
  intro closing c₆ _ hrest₆ _
  have hlen₆ := length_of_rest hrest₆
  refine (ih.statement c₆ (by omega)).weaken.bind ?_
  intro body c₇ _ _ _
  refine .pure ?_
  rintro ts n₃ h₄ _ ⟨⟨closed, hs, hnext⟩, hbody⟩ _ _ _ _ ⟨rfl, hclosing, rfl⟩ us n₂ h₃ _
    ⟨hincrement, hinumbers⟩ _ _ _ _ ⟨rfl, hsemicolon, rfl⟩ cs n₁ h₂ _ ⟨hcondition, hcnumbers⟩ is n₀
    h₁ _ ⟨hinitializer, hsnumbers⟩ _ _ _ _ ⟨rfl, hopening, rfl⟩ word hword
  refine ⟨⟨closed, ?_, hnext⟩, numbered_forLoop h₁ h₂ h₃ h₄ hsnumbers hcnumbers hinumbers hbody⟩
  have h := Parses.forLoop hword hopening hinitializer hcondition hsemicolon hincrement hclosing hs
  simpa only [List.append_assoc, List.cons_append, List.nil_append, List.append_nil] using h

end

/-- **Parse steps for statements give what the grammar derives.** -/
theorem soundStmt (n : Nat) : SoundStmt n := by
  induction n with
  | zero => constructor <;> intros <;> omega
  | succ n ih =>
    exact
      { declaration := fun _ => declaration_outcome ih
        classDecl := fun _ => class_outcome ih
        methods := fun _ => methods_outcome ih
        routine := fun _ _ => routine_outcome ih
        block := fun _ => block_outcome ih
        statement := fun _ => statement_outcome ih
        forLoop := fun _ => for_outcome ih }

/-! ### Whole texts -/

theorem declarations_outcome (n : Nat) : ∀ {c : Cursor}, 32 * c.rest.length + 13 ≤ n →
    ParseOutcome c 0 (fun ts rest lo hi ss => rest = [] ∧ MadeBody ts lo hi ss)
      (parseDeclarations n c) := by
  induction n with
  | zero =>
    intro c hn
    omega
  | succ n ih =>
    intro c hn
    have hend : Parse.atEnd c = .ok c.rest.isEmpty c := rfl
    rw [parseDeclarations, bind_ok hend]
    split
    · rename_i hnil
      exact .pure ⟨List.isEmpty_iff.1 hnil, .nil ..⟩
    · rename_i hne
      have hne' : c.rest ≠ [] := fun h => hne (List.isEmpty_iff.2 h)
      refine (((soundStmt n).declaration c hne' (by omega)).bind ?_).weaken
      intro first c₁ _ hrest₁ hts₁
      have hlen₁ := length_of_rest hrest₁
      refine (ih (c := c₁) (by omega)).bind ?_
      intro ss c₂ _ _ _
      refine .pure ?_
      rintro us mid hmid _ ⟨hrest, hss⟩ ts lo hlo _ ⟨s, rfl, hs⟩
      rw [List.append_nil]
      exact ⟨hrest, hs.cons hss hlo hmid⟩

theorem expression_outcome {n : Nat} {c : Cursor} (hn : 32 * c.rest.length + 10 ≤ n) :
    ParseOutcome c 0 (fun ts rest lo hi e => rest = [] ∧ Made .assignment ts lo hi e)
      ((do
        let e ← parseExpr n
        if ← Parse.atEnd then return e else Parse.fail .missingEnd : Parse Expr) c) := by
  refine ((soundExpr n).expr c hn).weaken.bind ?_
  intro e c₁ _ _ _
  have hend : Parse.atEnd c₁ = .ok c₁.rest.isEmpty c₁ := rfl
  rw [bind_ok hend]
  split
  · rename_i hnil
    refine .pure ?_
    intro ts lo _ _ hmade
    rw [List.append_nil]
    exact ⟨List.isEmpty_iff.1 hnil, hmade⟩
  · exact fail_outcome 0 _

/-- A step over a whole text: if nothing is found, it gives a tree of all tokens. -/
theorem runParse_sound {α : Type} {p : Nat → Parse α} {tokens : List Token} {endMark : Token}
    {id : NodeId} {Q : List Token → Nat → Nat → α → Prop}
    (hp : ParseOutcome ⟨tokens, endMark, [], id⟩ 0 (fun ts rest lo hi a => rest = [] ∧ Q ts lo hi a)
      (p (parseFuel tokens) ⟨tokens, endMark, [], id⟩)) :
    id ≤ (runParse p tokens endMark id).nextId ∧
      ((runParse p tokens endMark id).findings = [] →
        ∃ a, (runParse p tokens endMark id).tree = some a ∧
          Q tokens id (runParse p tokens endMark id).nextId a) := by
  unfold runParse
  generalize p (parseFuel tokens) ⟨tokens, endMark, [], id⟩ = r at hp ⊢
  cases hp with
  | ok ts hrest _ hn _ hq =>
    refine ⟨hn, fun h => ?_⟩
    obtain ⟨hnil, hbody⟩ := hq (List.reverse_eq_nil_iff.1 h)
    obtain rfl : tokens = ts := by rw [hnil, List.append_nil] at hrest; exact hrest
    exact ⟨_, rfl, hbody⟩
  | malformed _ hn _ hfound => exact ⟨hn, fun h => absurd (List.reverse_eq_nil_iff.1 h) hfound⟩

/-- A program in which nothing is found is one of the grammar. -/
theorem parseProgram_sound (tokens : List Token) (endMark : Token) (id : NodeId) :
    id ≤ (parseProgram tokens endMark id).nextId ∧
      ((parseProgram tokens endMark id).findings = [] →
        MadeBody tokens id (parseProgram tokens endMark id).nextId
          (parseProgram tokens endMark id).tree) := by
  have hout := runParse_sound (declarations_outcome (parseFuel tokens)
    (c := ⟨tokens, endMark, [], id⟩) (by simp only [parseFuel]; omega))
  refine ⟨hout.1, fun h => ?_⟩
  obtain ⟨program, htree, hbody⟩ := hout.2 h
  simp only [parseProgram, htree, Option.getD_some]
  exact hbody

/-- An expression in which nothing is found is one of the grammar. -/
theorem parseExpression_sound (tokens : List Token) (endMark : Token) (id : NodeId) :
    id ≤ (parseExpression tokens endMark id).nextId ∧
      ((parseExpression tokens endMark id).findings = [] →
        ∃ e, (parseExpression tokens endMark id).tree = some e ∧
          Made .assignment tokens id (parseExpression tokens endMark id).nextId e) :=
  runParse_sound (expression_outcome (c := ⟨tokens, endMark, [], id⟩)
    (by simp only [parseFuel]; omega))

end Lox
