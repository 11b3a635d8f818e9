/-
**References have numbers of their own.**

A parse step gives out the numbers of references one after the other, and never gives one out a
second time: not where it goes on behind a problem, where the left side of an assignment is built
anew, or where a `for` loop is put together from other statements.  So no two references of a tree
have the same number, be the text in the grammar or not, and the numbers of a tree lie between the
next free ones before and after it.

Main definitions:

* `Lox.Numbers` — **a step that gives its references numbers of their own**, next to those that were
  there before;
* `Lox.NumbersExpr`, `Lox.NumbersStmt` — what is known of the parse steps with a given amount of
  fuel.

Main results:

* `Lox.Numbers.bind` — steps put together;
* `Lox.numbersExpr`, `Lox.numbersStmt` — parse steps give references numbers of their own;
* `Lox.parseProgram_numbered`, `Lox.parseExpression_numbered` — **no two references of a tree have
  the same number**.
-/

import Lox.Proofs.Grammar.Outcome

set_option relaxedAutoImplicit false
set_option autoImplicit false

namespace Lox

/-! ### Steps that give out numbers -/

namespace Numbered

variable {lo hi : Nat} {refs refs' : List Reference}

theorem perm (h : Numbered lo hi refs) (hp : refs.Perm refs') : Numbered lo hi refs' :=
  ⟨fun r hr => h.bounds r (hp.mem_iff.2 hr), (hp.map _).nodup_iff.1 h.nodup⟩

/-- References may be left out. -/
theorem sublist (h : Numbered lo hi refs) (hs : refs'.Sublist refs) : Numbered lo hi refs' :=
  ⟨fun r hr => h.bounds r (hs.subset hr), (hs.map _).nodup h.nodup⟩

end Numbered

/-- A step that **gives its references numbers of their own**.  If the references `before` have
numbers from `lo` on, below the next free one, then so have the references `refs` of the result,
and no number is given back. -/
structure Numbers {α : Type} (lo : Nat) (before : List Reference) (refs : α → List Reference)
    (step : Parse α) : Prop where
  ok : ∀ c a c', step c = .ok a c' → c.nextId ≤ c'.nextId ∧
    (lo ≤ c.nextId → Numbered lo c.nextId before → Numbered lo c'.nextId (refs a))
  error : ∀ c stop c', step c = .error stop c' → c.nextId ≤ c'.nextId

namespace Numbers

variable {α β : Type} {lo : Nat} {before : List Reference} {refs : α → List Reference}
  {refs' : β → List Reference} {step : Parse α}

/-- A result whose references have been there before, or some of them, in any order. -/
theorem pure {a : α} (h : ∀ hi, Numbered lo hi before → Numbered lo hi (refs a)) :
    Numbers lo before refs (Pure.pure a) := by
  refine ⟨fun c a' c' heq => ?_, fun c stop c' heq => by cases heq⟩
  cases heq
  exact ⟨Nat.le_refl _, fun _ => h _⟩

theorem throw (stop : ParseStop) : Numbers lo before refs (MonadExcept.throw stop) := by
  refine ⟨fun c a c' heq => (by cases heq), fun c stop' c' heq => ?_⟩
  cases heq
  exact Nat.le_refl _

theorem fail (p : Problem) : Numbers lo before refs (Parse.fail p) := by
  refine ⟨fun c a c' heq => (by cases heq), fun c stop c' heq => ?_⟩
  cases heq
  exact Nat.le_refl _

/-- Steps put together. -/
theorem bind {next : α → Parse β} (h : Numbers lo before refs step)
    (hnext : ∀ a, Numbers lo (refs a) refs' (next a)) :
    Numbers lo before refs' (step >>= next) := by
  constructor
  · intro c b c'' heq
    cases hstep : step c with
    | ok a c' =>
      rw [bind_ok hstep] at heq
      obtain ⟨hle, hnumbered⟩ := h.ok c a c' hstep
      obtain ⟨hle', hnumbered'⟩ := (hnext a).ok c' b c'' heq
      exact ⟨Nat.le_trans hle hle', fun hlo hbefore =>
        hnumbered' (Nat.le_trans hlo hle) (hnumbered hlo hbefore)⟩
    | error stop c' =>
      rw [bind_error hstep] at heq
      cases heq
  · intro c stop c'' heq
    cases hstep : step c with
    | ok a c' =>
      rw [bind_ok hstep] at heq
      exact Nat.le_trans (h.ok c a c' hstep).1 ((hnext a).error c' stop c'' heq)
    | error stop' c' =>
      rw [bind_error hstep] at heq
      cases heq
      exact h.error c _ _ hstep

theorem map {f : α → β} (h : Numbers lo before refs step) (hf : ∀ a, refs' (f a) = refs a) :
    Numbers lo before refs' (f <$> step) :=
  h.bind fun a => .pure fun _ ha => (hf a).symm ▸ ha

end Numbers

/-- A step that **gives out no numbers**. -/
structure Numberless {α : Type} (step : Parse α) : Prop where
  ok : ∀ c a c', step c = .ok a c' → c'.nextId = c.nextId
  error : ∀ c stop c', step c = .error stop c' → c'.nextId = c.nextId

namespace Numberless

variable {α β : Type} {lo : Nat} {before : List Reference} {refs : β → List Reference}
  {step : Parse α}

theorem numbers (h : Numberless step) : Numbers lo before (fun _ => before) step where
  ok := fun c a c' heq => by
    rw [h.ok c a c' heq]
    exact ⟨Nat.le_refl _, fun _ hbefore => hbefore⟩
  error := fun c stop c' heq => Nat.le_of_eq (h.error c stop c' heq).symm

/-- A step before which nothing is numbered. -/
theorem andThen {next : α → Parse β} (h : Numberless step)
    (hnext : ∀ a, Numbers lo before refs (next a)) : Numbers lo before refs (step >>= next) :=
  h.numbers.bind hnext

/-- A step that never fails, and leaves the next free number as it is. -/
theorem always {step : Parse α} (h : ∀ c, ∃ a c', step c = .ok a c' ∧ c'.nextId = c.nextId) :
    Numberless step := by
  constructor
  · intro c a c' heq
    obtain ⟨a₁, c₁, hstep, hid⟩ := h c
    rw [hstep] at heq
    cases heq
    exact hid
  · intro c stop c' heq
    obtain ⟨a₁, c₁, hstep, -⟩ := h c
    rw [hstep] at heq
    cases heq

theorem acceptAny (ks : List Token.Kind) : Numberless (Parse.acceptAny ks) := by
  refine always fun c => ?_
  rcases acceptAny_cases ks c with ⟨t, rest, -, -, hstep⟩ | ⟨-, hstep⟩
  · exact ⟨_, _, hstep, rfl⟩
  · exact ⟨_, _, hstep, rfl⟩

theorem expect (e : Expectation) : Numberless (Parse.expect e) := by
  constructor
  · intro c a c' heq
    rcases expect_cases e c with ⟨t, rest, -, -, hstep⟩ | ⟨-, hstep⟩
    · rw [hstep] at heq
      cases heq
      rfl
    · rw [hstep] at heq
      cases heq
  · intro c stop c' heq
    rcases expect_cases e c with ⟨t, rest, -, -, hstep⟩ | ⟨-, hstep⟩
    · rw [hstep] at heq
      cases heq
    · rw [hstep] at heq
      cases heq
      rfl

theorem check (k : Token.Kind) : Numberless (Parse.check k) := always fun _ => ⟨_, _, rfl, rfl⟩

theorem report (t : Token) (p : Problem) : Numberless (Parse.report t p) :=
  always fun _ => ⟨_, _, rfl, rfl⟩

theorem reportIf (cond : Bool) (p : Problem) : Numberless (Parse.reportIf cond p) := by
  cases cond <;> exact always fun _ => ⟨_, _, rfl, rfl⟩

theorem atEnd : Numberless Parse.atEnd := always fun _ => ⟨_, _, rfl, rfl⟩

theorem atBlockEnd : Numberless Parse.atBlockEnd := always fun _ => ⟨_, _, rfl, rfl⟩

end Numberless

namespace Numbers

variable {α : Type} {lo : Nat} {before : List Reference} {refs : α → List Reference}
  {step : Parse α}

/-- A new reference has the next free number. -/
theorem newReference (name : Token) :
    Numbers lo before (fun ref => before ++ [ref]) (Parse.newReference name) := by
  refine ⟨fun c ref c' heq => ?_, fun c stop c' heq => by cases heq⟩
  cases heq
  refine ⟨Nat.le_succ _, fun hlo hbefore => ?_⟩
  exact hbefore.append (Numbered.single ⟨c.nextId, name⟩) hlo (Nat.le_succ _)

/-- What a step behind a token of a kind gives; nothing is added if there is none. -/
theorem after {k : Token.Kind} (h : Numbers lo before (fun a => before ++ refs a) step) :
    Numbers lo before (fun a? => before ++ a?.elim [] refs) (Parse.after k step) := by
  refine (Numberless.acceptAny [k]).andThen fun t? => ?_
  cases t? with
  | none => exact .pure fun _ hbefore => by simpa using hbefore
  | some t => exact h.map fun _ => rfl

theorem unlessNext {k : Token.Kind} {absent : α}
    (habsent : ∀ hi, Numbered lo hi before → Numbered lo hi (refs absent))
    (h : Numbers lo before refs step) :
    Numbers lo before refs (Parse.unlessNext k absent step) := by
  refine (Numberless.check k).andThen fun next => ?_
  cases next with
  | true => exact .pure habsent
  | false => exact h

/-- A step whose problems are recovered from: then the numbers that it gave out are gone. -/
theorem recovering (h : Numbers lo before (fun a => before ++ refs a) step) :
    Numbers lo before (fun a? => before ++ a?.elim [] refs) (recovering step) := by
  constructor
  · intro c a? c' heq
    unfold Lox.recovering at heq
    cases hstep : step c with
    | ok a c₁ =>
      rw [hstep] at heq
      cases heq
      exact h.ok c a _ hstep
    | error stop c₁ =>
      rw [hstep] at heq
      cases stop with
      | malformed =>
        cases heq
        have hle := h.error c _ c₁ hstep
        refine ⟨hle, fun _ hbefore => ?_⟩
        rw [Option.elim_none, List.append_nil]
        exact hbefore.mono (Nat.le_refl lo) hle
      | outOfFuel => cases heq
  · intro c stop c' heq
    unfold Lox.recovering at heq
    cases hstep : step c with
    | ok a c₁ =>
      rw [hstep] at heq
      cases heq
    | error stop' c₁ =>
      rw [hstep] at heq
      cases stop' with
      | malformed => cases heq
      | outOfFuel =>
        cases heq
        exact h.error c _ _ hstep

end Numbers

/-! ### Expressions -/

/-- The parse steps for expressions with the given fuel give references numbers of their own,
whatever references were there before. -/
structure NumbersExpr (lo n : Nat) : Prop where
  expr : ∀ before, Numbers lo before (fun e => before ++ e.references) (parseExpr n)
  levels : ∀ before levels,
    Numbers lo before (fun e => before ++ e.references) (parseLevels n levels)
  operands : ∀ before level tighter (left : Expr), Numbers lo (before ++ left.references)
    (fun e => before ++ e.references) (parseOperands n level tighter left)
  unary : ∀ before, Numbers lo before (fun e => before ++ e.references) (parseUnary n)
  selectors : ∀ before (head : Expr), Numbers lo (before ++ head.references)
    (fun e => before ++ e.references) (parseSelectors n head)
  arguments : ∀ before count,
    Numbers lo before (fun es => before ++ referencesOfArguments es) (parseArguments n count)
  primary : ∀ before, Numbers lo before (fun e => before ++ e.references) (parsePrimary n)

theorem Level.references_combine (level : Level) (left : Expr) (operator : Token) (right : Expr) :
    (level.combine left operator right).references = left.references ++ right.references := by
  cases level <;> rfl

/-- **Parse steps give the references of expressions numbers of their own.** -/
theorem numbersExpr (lo n : Nat) : NumbersExpr lo n := by
  induction n with
  | zero =>
    constructor <;> intros <;> exact .throw _
  | succ n ih =>
    refine ⟨?expr, ?levels, ?operands, ?unary, ?selectors, ?arguments, ?primary⟩
    case expr =>
      intro before
      refine (ih.levels before Level.ladder).bind fun target => ?_
      refine (Numberless.acceptAny [.symbol .equal]).andThen fun equals? => ?_
      cases equals? with
      | none => exact .pure fun _ h => h
      | some equals =>
        refine (ih.expr (before ++ target.references)).bind fun value => ?_
        cases target with
        | «variable» r =>
          -- The variable that was parsed as an expression is replaced by a new reference.
          refine (Numbers.newReference r.name).bind fun ref => .pure fun _ h => ?_
          have hleft : (before ++ value.references ++ [ref]).Sublist
              (before ++ [r] ++ value.references ++ [ref]) :=
            ((List.sublist_append_left before [r]).append_right _).append_right _
          refine (h.sublist hleft).perm ?_
          rw [List.append_assoc]
          exact List.perm_append_comm.append_left before
        | get object name => exact .pure fun _ h => by simpa [Expr.references] using h
        | _ =>
          -- The value is dropped.
          refine (Numberless.report equals .invalidTarget).andThen fun _ => .pure fun _ h => ?_
          exact h.sublist (List.sublist_append_left ..)
    case levels =>
      intro before levels
      cases levels with
      | nil => exact ih.unary before
      | cons level tighter =>
        exact (ih.levels before tighter).bind fun left => ih.operands before level tighter left
    case operands =>
      intro before level tighter left
      refine (Numberless.acceptAny _).andThen fun operator? => ?_
      cases operator? with
      | none => exact .pure fun _ h => h
      | some operator =>
        refine (ih.levels (before ++ left.references) tighter).bind fun right => ?_
        have hrest := ih.operands before level tighter (level.combine left operator right)
        rw [Level.references_combine, ← List.append_assoc] at hrest
        exact hrest
    case unary =>
      intro before
      refine (Numberless.acceptAny _).andThen fun operator? => ?_
      cases operator? with
      | none => exact (ih.primary before).bind fun head => ih.selectors before head
      | some operator => exact (ih.unary before).bind fun e => .pure fun _ h => h
    case selectors =>
      intro before head
      refine (Numberless.acceptAny _).andThen fun t? => ?_
      cases t? with
      | none => exact .pure fun _ h => h
      | some t =>
        dsimp only
        split
        · have harguments : Numbers lo (before ++ head.references)
              (fun es => before ++ head.references ++ referencesOfArguments es)
              (Parse.unlessNext (.symbol .rightParen) [] (parseArguments n 0)) :=
            .unlessNext (fun _ h => by simpa [referencesOfArguments] using h) (ih.arguments _ 0)
          refine harguments.bind fun arguments => (Numberless.expect _).andThen fun paren => ?_
          have hrest := ih.selectors before (.call head paren arguments)
          rw [Expr.references, ← List.append_assoc] at hrest
          exact hrest
        · exact (Numberless.expect _).andThen fun name => ih.selectors before (.get head name)
    case arguments =>
      intro before count
      refine (Numberless.reportIf _ _).andThen fun _ => (ih.expr before).bind fun argument => ?_
      refine (Numberless.acceptAny _).andThen fun comma? => ?_
      cases comma? with
      | none => exact .pure fun _ h => by simpa [referencesOfArguments] using h
      | some comma =>
        refine (ih.arguments (before ++ argument.references) _).bind fun more => ?_
        exact .pure fun _ h => by simpa [referencesOfArguments] using h
    case primary =>
      intro before
      have hplain : ∀ l : Literal, Numbers lo before (fun e => before ++ e.references)
          (Pure.pure (.literal l) : Parse Expr) :=
        fun l => .pure fun _ h => by simpa [Expr.references] using h
      refine (Numberless.acceptAny _).andThen fun t? => ?_
      cases t? with
      | none => exact .fail _
      | some t =>
        dsimp only
        split
        · exact hplain _
        · exact hplain _
        · exact hplain _
        · refine (Numberless.expect _).andThen fun _ => (Numberless.expect _).andThen fun _ => ?_
          exact (Numbers.newReference t).bind fun ref => .pure fun _ h => h
        · exact (Numbers.newReference t).bind fun ref => .pure fun _ h => h
        · exact (Numbers.newReference t).bind fun ref => .pure fun _ h => h
        · exact (ih.expr before).bind fun inner => (Numberless.expect _).andThen fun _ =>
            .pure fun _ h => h
        · exact hplain _

/-! ### Statements -/

/-- The references of a `for` loop are those of its parts. -/
theorem Stmt.references_forLoop (initializer : Option Stmt) (condition increment : Option Expr)
    (body : Stmt) : (initializer.elim [] Stmt.references ++ condition.elim [] Expr.references ++
      increment.elim [] Expr.references ++ body.references).Perm
        (Stmt.forLoop initializer condition increment body).references := by
  have hcondition : (condition.getD (.literal (.bool true))).references =
      condition.elim [] Expr.references := by
    cases condition <;> rfl
  -- The increment stands before the body and is run after it.
  have hbody : ∀ refs : List Reference,
      (refs ++ increment.elim [] Expr.references ++ body.references).Perm
        (refs ++ (increment.elim body fun e => .block [body, .expression e]).references) := by
    intro refs
    rw [List.append_assoc]
    refine List.Perm.append_left refs ?_
    cases increment with
    | none => exact .refl _
    | some e =>
      simp only [Option.elim_some, Stmt.references, referencesOfBody, List.append_nil]
      exact List.perm_append_comm
  refine (hbody _).trans (.of_eq ?_)
  cases initializer <;> cases increment <;>
    simp [Stmt.forLoop, Stmt.references, referencesOfBody, hcondition]

section

variable {lo n : Nat}

theorem var_numbers (before : List Reference) :
    Numbers lo before (fun s => before ++ s.references) (parseVar n) :=
  (Numberless.expect _).andThen fun _ => (((numbersExpr lo n).expr before).after).bind fun _ =>
    (Numberless.expect _).andThen fun _ => .pure fun _ h => h

theorem expressionStatement_numbers (before : List Reference) :
    Numbers lo before (fun s => before ++ s.references) (parseExpressionStatement n) :=
  ((numbersExpr lo n).expr before).bind fun _ => (Numberless.expect _).andThen fun _ =>
    .pure fun _ h => h

theorem forInitializer_numbers (before : List Reference) :
    Numbers lo before (fun s? => before ++ s?.elim [] Stmt.references)
      (parseForInitializer n) := by
  refine (Numberless.acceptAny _).andThen fun t? => ?_
  cases t? with
  | none => exact (expressionStatement_numbers before).map fun _ => rfl
  | some t =>
    dsimp only
    split
    · exact (var_numbers before).map fun _ => rfl
    · exact .pure fun _ h => by simpa using h

theorem condition_numbers (before : List Reference) (opening closing : Expectation) :
    Numbers lo before (fun e => before ++ e.references) (parseCondition n opening closing) :=
  (Numberless.expect _).andThen fun _ => ((numbersExpr lo n).expr before).bind fun _ =>
    (Numberless.expect _).andThen fun _ => .pure fun _ h => h

theorem optional_numbers (before : List Reference) (k : Token.Kind) :
    Numbers lo before (fun e? => before ++ e?.elim [] Expr.references)
      (Parse.unlessNext k none (some <$> parseExpr n)) :=
  .unlessNext (fun _ h => by simpa using h) (((numbersExpr lo n).expr before).map fun _ => rfl)

/-- Parameters are no references. -/
theorem parameters_numbers (before : List Reference) (n count : Nat) :
    Numbers lo before (fun _ => before) (parseParameters n count) := by
  induction n generalizing count with
  | zero => exact .throw _
  | succ n ih =>
    refine (Numberless.reportIf _ _).andThen fun _ => (Numberless.expect _).andThen fun p => ?_
    refine (Numberless.acceptAny _).andThen fun comma? => ?_
    cases comma? with
    | none => exact .pure fun _ h => h
    | some comma => exact (ih _).bind fun ps => .pure fun _ h => h

end

/-- The parse steps for statements with the given fuel give references numbers of their own,
whatever references were there before. -/
structure NumbersStmt (lo n : Nat) : Prop where
  declaration : ∀ before,
    Numbers lo before (fun s? => before ++ s?.elim [] Stmt.references) (parseDeclaration n)
  classDecl : ∀ before, Numbers lo before (fun s => before ++ s.references) (parseClass n)
  methods : ∀ before,
    Numbers lo before (fun ms => before ++ referencesOfMethods ms) (parseMethods n)
  routine : ∀ before kind,
    Numbers lo before (fun r => before ++ r.references) (parseRoutine n kind)
  block : ∀ before, Numbers lo before (fun ss => before ++ referencesOfBody ss) (parseBlock n)
  statement : ∀ before, Numbers lo before (fun s => before ++ s.references) (parseStatement n)
  loop : ∀ before, Numbers lo before (fun s => before ++ s.references) (parseFor n)

theorem referencesOfBody_toList (s? : Option Stmt) :
    referencesOfBody s?.toList = s?.elim [] Stmt.references := by
  cases s? with
  | none => rfl
  | some s => exact List.append_nil _

/-- **Parse steps give the references of statements numbers of their own.** -/
theorem numbersStmt (lo n : Nat) : NumbersStmt lo n := by
  induction n with
  | zero =>
    constructor <;> intros <;> exact .throw _
  | succ n ih =>
    refine ⟨?declaration, ?classDecl, ?methods, ?routine, ?block, ?statement, ?loop⟩
    case declaration =>
      intro before
      refine Numbers.recovering ((Numberless.acceptAny _).andThen fun t? => ?_)
      cases t? with
      | none => exact ih.statement before
      | some t =>
        dsimp only
        split
        · exact ih.classDecl before
        · exact (ih.routine before .function).bind fun r => .pure fun _ h => h
        · exact var_numbers before
    case classDecl =>
      intro before
      refine (Numberless.expect _).andThen fun name => ?_
      have hsuper : Numbers lo before (fun ref => before ++ [ref])
          (Parse.newReference =<< Parse.expect .superclassName) :=
        (Numberless.expect _).andThen fun t => .newReference t
      refine hsuper.after.bind fun superclass => (Numberless.expect _).andThen fun _ => ?_
      refine (ih.methods _).bind fun methods => (Numberless.expect _).andThen fun _ => ?_
      refine .pure fun _ h => ?_
      cases superclass <;> simpa [Stmt.references] using h
    case methods =>
      intro before
      refine Numberless.atBlockEnd.andThen fun atEnd => ?_
      cases atEnd with
      | true => exact .pure fun _ h => by simpa [referencesOfMethods] using h
      | false =>
        refine (ih.routine before .method).bind fun m => (ih.methods _).bind fun ms => ?_
        exact .pure fun _ h => by simpa [referencesOfMethods] using h
    case routine =>
      intro before kind
      refine (Numberless.expect _).andThen fun _ => (Numberless.expect _).andThen fun _ => ?_
      have hparameters : Numbers lo before (fun _ => before)
          (Parse.unlessNext (.symbol .rightParen) [] (parseParameters n 0)) :=
        .unlessNext (fun _ h => h) (parameters_numbers before n 0)
      refine hparameters.bind fun _ => (Numberless.expect _).andThen fun _ => ?_
      refine (Numberless.expect _).andThen fun _ => ?_
      exact (ih.block before).bind fun body => .pure fun _ h => h
    case block =>
      intro before
      refine Numberless.atBlockEnd.andThen fun atEnd => ?_
      cases atEnd with
      | true =>
        refine (Numberless.expect _).andThen fun _ => ?_
        exact .pure fun _ h => by simpa [referencesOfBody] using h
      | false =>
        refine (ih.declaration before).bind fun first => (ih.block _).bind fun rest => ?_
        refine .pure fun _ h => ?_
        rwa [referencesOfBody_append, referencesOfBody_toList, ← List.append_assoc]
    case statement =>
      intro before
      refine (Numberless.acceptAny _).andThen fun t? => ?_
      cases t? with
      | none => exact expressionStatement_numbers before
      | some t =>
        dsimp only
        split
        · exact ih.loop before
        · refine (condition_numbers before .ifOpen .ifClose).bind fun c => ?_
          refine (ih.statement _).bind fun t => ((ih.statement _).after).bind fun e? => ?_
          refine .pure fun _ h => ?_
          cases e? <;> simpa [Stmt.references] using h
        · exact ((numbersExpr lo n).expr before).bind fun e =>
            (Numberless.expect _).andThen fun _ => .pure fun _ h => h
        · exact (optional_numbers before _).bind fun e? =>
            (Numberless.expect _).andThen fun _ => .pure fun _ h => h
        · refine (condition_numbers before .whileOpen .whileClose).bind fun c => ?_
          exact (ih.statement _).bind fun s => .pure fun _ h => by simpa [Stmt.references] using h
        · exact (ih.block before).bind fun body => .pure fun _ h => h
    case loop =>
      intro before
      refine (Numberless.expect _).andThen fun _ => ?_
      refine (forInitializer_numbers before).bind fun initializer => ?_
      refine (optional_numbers _ _).bind fun condition => (Numberless.expect _).andThen fun _ => ?_
      refine (optional_numbers _ _).bind fun increment => (Numberless.expect _).andThen fun _ => ?_
      refine (ih.statement _).bind fun body => .pure fun _ h => h.perm ?_
      have hparts := Stmt.references_forLoop initializer condition increment body
      simpa only [List.append_assoc] using hparts.append_left before

theorem declarations_numbers (lo n : Nat) (before : List Reference) :
    Numbers lo before (fun ss => before ++ referencesOfBody ss) (parseDeclarations n) := by
  induction n generalizing before with
  | zero => exact .throw _
  | succ n ih =>
    refine Numberless.atEnd.andThen fun atEnd => ?_
    cases atEnd with
    | true => exact .pure fun _ h => by simpa [referencesOfBody] using h
    | false =>
      refine ((numbersStmt lo n).declaration before).bind fun first => (ih _).bind fun rest => ?_
      refine .pure fun _ h => ?_
      rwa [referencesOfBody_append, referencesOfBody_toList, ← List.append_assoc]

/-! ### Whole texts -/

/-- What a step from the first token on gives has new numbers. -/
theorem runParse_numbered {α : Type} {step : Nat → Parse α} {refs : α → List Reference}
    {id : NodeId} (h : ∀ n, Numbers id [] refs (step n)) (tokens : List Token) (endMark : Token) :
    id ≤ (runParse step tokens endMark id).nextId ∧
      Numbered id (runParse step tokens endMark id).nextId
        ((runParse step tokens endMark id).tree.elim [] refs) := by
  unfold runParse
  cases hstep : step (parseFuel tokens) ⟨tokens, endMark, [], id⟩ with
  | ok a c =>
    obtain ⟨hle, hnumbered⟩ := (h _).ok _ a c hstep
    exact ⟨hle, hnumbered (Nat.le_refl _) (.nil ..)⟩
  | error stop c => exact ⟨(h _).error _ stop c hstep, .nil ..⟩

/-- **No two references of a program have the same number**, whether its text is in the grammar or
not. -/
theorem parseProgram_numbered (tokens : List Token) (endMark : Token) (id : NodeId) :
    id ≤ (parseProgram tokens endMark id).nextId ∧
      Numbered id (parseProgram tokens endMark id).nextId
        (referencesOfBody (parseProgram tokens endMark id).tree) := by
  obtain ⟨hle, hnumbered⟩ :=
    runParse_numbered (fun n => declarations_numbers id n []) tokens endMark
  refine ⟨hle, ?_⟩
  unfold parseProgram
  dsimp only
  cases htree : (runParse parseDeclarations tokens endMark id).tree with
  | none => exact .nil ..
  | some program =>
    rw [htree] at hnumbered
    exact hnumbered

/-- **No two references of a single expression have the same number.** -/
theorem parseExpression_numbered (tokens : List Token) (endMark : Token) (id : NodeId) :
    id ≤ (parseExpression tokens endMark id).nextId ∧
      Numbered id (parseExpression tokens endMark id).nextId
        ((parseExpression tokens endMark id).tree.elim [] Expr.references) := by
  refine runParse_numbered (fun n => ?_) tokens endMark
  refine ((numbersExpr id n).expr []).bind fun e => Numberless.atEnd.andThen fun atEnd => ?_
  cases atEnd with
  | true => exact .pure fun _ h => h
  | false => exact .fail _

end Lox
