/-
**The course of a parse step.**

Whatever the tokens are and however a parse step ends, it goes over them from the left to the right,
it forgets no finding, and where it gives up, the last thing it has reported is about the token that
it has come to.  What the grammar has a word for is not empty, so that most steps pass a token
before they give a result.  No fuel is counted here: this holds of a step that wants for fuel as
well.

Main definitions:

* `Lox.Cursor.Passes` — one cursor comes after another;
* `Lox.Course` — **what a step has done when it ends**;
* `Lox.Orderly`, `Lox.Busy` — steps of which that holds wherever they begin, and those that pass a
  token besides;
* `Lox.attemptDeclaration` — a declaration before any problem is recovered from.

Main results:

* `Lox.Orderly.bind`, `Lox.Orderly.recovering` — steps put together, and steps recovered from;
* `Lox.courseExpr`, `Lox.courseStmt` — **all parse steps are orderly**, and which of them are busy;
* `Lox.declaration_takes` — a declaration passes a token, unless none is left.
-/

import Lox.Proofs.Grammar.Outcome
import Lox.Tree.Parser.Program

set_option relaxedAutoImplicit false
set_option autoImplicit false

namespace Lox

/-! ### Courses -/

/-- One cursor comes **after** another: tokens may have been passed and problems reported. -/
structure Cursor.Passes (c c' : Cursor) : Prop where
  rest : c'.rest <:+ c.rest
  endMark : c'.endMark = c.endMark
  findings : c.findings <:+ c'.findings

namespace Cursor.Passes

variable {c c' c'' : Cursor}

theorem refl (c : Cursor) : c.Passes c := ⟨List.suffix_refl _, rfl, List.suffix_refl _⟩

theorem trans (h : c.Passes c') (h' : c'.Passes c'') : c.Passes c'' :=
  ⟨h'.rest.trans h.rest, h'.endMark.trans h.endMark, h.findings.trans h'.findings⟩

end Cursor.Passes

/-- The token that is next, or the mark behind all tokens. -/
def Cursor.next (c : Cursor) : Token := c.rest.headD c.endMark

/-- What a step has done **when it ends**.  One that gives up has reported, last of all, a problem
with the token that is next. -/
inductive Course {α : Type} (c : Cursor) : EStateM.Result ParseStop Cursor α → Prop
  | ok {a : α} {c' : Cursor} (passes : c.Passes c') : Course c (.ok a c')
  | malformed {c' : Cursor} {earlier : List Diagnostic} {problem : Problem} (passes : c.Passes c')
      (earlier_suffix : c.findings <:+ earlier)
      (found : c'.findings = ⟨.token c'.next, problem⟩ :: earlier) :
      Course c (.error .malformed c')
  | outOfFuel {c' : Cursor} : Course c (.error .outOfFuel c')

/-- What a step does before another belongs to the whole. -/
theorem Course.behind {α : Type} {c c' : Cursor} {r : EStateM.Result ParseStop Cursor α}
    (hpasses : c.Passes c') (h : Course c' r) : Course c r := by
  cases h with
  | ok h => exact .ok (hpasses.trans h)
  | malformed h he hf => exact .malformed (hpasses.trans h) (hpasses.findings.trans he) hf
  | outOfFuel => exact .outOfFuel

/-- A step that takes its **course** wherever it begins. -/
def Orderly {α : Type} (p : Parse α) : Prop := ∀ c, Course c (p c)

namespace Orderly

variable {α β : Type} {p : Parse α} {f : α → Parse β}

theorem passes (h : Orderly p) {c c' : Cursor} {a : α} (hok : p c = .ok a c') : c.Passes c' := by
  have hcourse := h c
  rw [hok] at hcourse
  cases hcourse with
  | ok hpasses => exact hpasses

theorem pure (a : α) : Orderly (Pure.pure a : Parse α) := fun c => .ok (.refl c)

theorem outOfFuel : Orderly (throw .outOfFuel : Parse α) := fun _ => .outOfFuel

theorem bind (hp : Orderly p) (hf : ∀ a, Orderly (f a)) : Orderly (p >>= f) := by
  intro c
  have hcourse := hp c
  cases hstep : p c with
  | ok a c' =>
    rw [bind_ok hstep]
    exact (hf a c').behind (hp.passes hstep)
  | error stop c' =>
    rw [bind_error hstep]
    rw [hstep] at hcourse
    cases hcourse with
    | malformed h he hf => exact .malformed h he hf
    | outOfFuel => exact .outOfFuel

theorem map (hp : Orderly p) (g : α → β) : Orderly (g <$> p) := hp.bind fun a => .pure (g a)

theorem report (t : Token) (problem : Problem) : Orderly (Parse.report t problem) :=
  fun _ => .ok ⟨List.suffix_refl _, rfl, List.suffix_cons ..⟩

theorem reportIf (b : Bool) (problem : Problem) : Orderly (Parse.reportIf b problem) := by
  cases b with
  | false => exact .pure ()
  | true => exact .bind (fun c => .ok (.refl c)) fun t => .report t problem

theorem fail (problem : Problem) : Orderly (Parse.fail problem : Parse α) :=
  fun _ => .malformed ⟨List.suffix_refl _, rfl, List.suffix_cons ..⟩ (List.suffix_refl _) rfl

theorem acceptAny (ks : List Token.Kind) : Orderly (Parse.acceptAny ks) := by
  intro ⟨rest, endMark, findings, nextId⟩
  cases rest with
  | nil => exact .ok (.refl _)
  | cons t rest =>
    change Course _ ((if ks.contains t.kind then _ else _ : Parse (Option Token)) _)
    split
    · exact .ok ⟨List.suffix_cons t rest, rfl, List.suffix_refl _⟩
    · exact .ok (.refl _)

theorem expect (e : Expectation) : Orderly (Parse.expect e) := by
  refine (acceptAny [e.kind]).bind fun t? => ?_
  cases t? with
  | none => exact .fail _
  | some t => exact .pure t

theorem after {k : Token.Kind} (hp : Orderly p) : Orderly (Parse.after k p) := by
  refine (acceptAny [k]).bind fun t? => ?_
  cases t? with
  | none => exact .pure none
  | some t => exact hp.map some

/-- A choice that is made by a look at the next token. -/
theorem choice {b : Parse Bool} {p q : Parse α} (hb : ∀ c, ∃ x, b c = .ok x c) (hp : Orderly p)
    (hq : Orderly q) : Orderly (b >>= fun x => if x then p else q) := by
  intro c
  obtain ⟨x, hx⟩ := hb c
  rw [bind_ok hx]
  cases x with
  | false => exact hq c
  | true => exact hp c

theorem unlessNext {k : Token.Kind} {absent : α} (hp : Orderly p) :
    Orderly (Parse.unlessNext k absent p) :=
  choice (fun _ => ⟨_, rfl⟩) (.pure absent) hp

theorem newReference (name : Token) : Orderly (Parse.newReference name) :=
  fun _ => .ok ⟨List.suffix_refl _, rfl, List.suffix_refl _⟩

theorem recovering (hp : Orderly p) : Orderly (recovering p) := by
  intro c
  have hcourse := hp c
  unfold Lox.recovering
  generalize p c = r at hcourse
  cases hcourse with
  | ok h => exact .ok h
  | malformed h => exact .ok ⟨(synchronize_suffix _).trans h.rest, h.endMark, h.findings⟩
  | outOfFuel => exact .outOfFuel

end Orderly

/-! ### Steps that pass a token -/

/-- An orderly step that **passes a token** before it gives a result. -/
structure Busy {α : Type} (p : Parse α) : Prop where
  orderly : Orderly p
  takes : ∀ {c a c'}, p c = .ok a c' → c'.rest.length < c.rest.length

namespace Busy

variable {α β : Type} {p : Parse α} {f : α → Parse β}

theorem outOfFuel : Busy (throw .outOfFuel : Parse α) := ⟨.outOfFuel, nofun⟩

theorem fail (problem : Problem) : Busy (Parse.fail problem : Parse α) := ⟨.fail problem, nofun⟩

theorem expect (e : Expectation) : Busy (Parse.expect e) := by
  refine ⟨.expect e, fun {c t c'} hok => ?_⟩
  rcases expect_cases e c with ⟨u, rest, hrest, -, hstep⟩ | ⟨-, hstep⟩
  · rw [hstep] at hok
    cases hok
    simp [hrest]
  · rw [hstep] at hok
    cases hok

/-- The first of two steps passes a token. -/
theorem bind (hp : Busy p) (hf : ∀ a, Orderly (f a)) : Busy (p >>= f) := by
  refine ⟨hp.orderly.bind hf, fun {c b c'} hok => ?_⟩
  cases hstep : p c with
  | ok a c₁ =>
    rw [bind_ok hstep] at hok
    exact Nat.lt_of_le_of_lt ((hf a).passes hok).rest.length_le (hp.takes hstep)
  | error stop c₁ =>
    rw [bind_error hstep] at hok
    cases hok

/-- The second of two steps passes a token. -/
theorem before (hp : Orderly p) (hf : ∀ a, Busy (f a)) : Busy (p >>= f) := by
  refine ⟨hp.bind fun a => (hf a).orderly, fun {c b c'} hok => ?_⟩
  cases hstep : p c with
  | ok a c₁ =>
    rw [bind_ok hstep] at hok
    exact Nat.lt_of_lt_of_le ((hf a).takes hok) (hp.passes hstep).rest.length_le
  | error stop c₁ =>
    rw [bind_error hstep] at hok
    cases hok

/-- A token is passed, or the step without it passes one. -/
theorem acceptAny (ks : List Token.Kind) {f : Option Token → Parse β}
    (hsome : ∀ t, Orderly (f (some t))) (hnone : Busy (f none)) :
    Busy (Parse.acceptAny ks >>= f) := by
  have hf : ∀ t?, Orderly (f t?) := fun t? => by
    cases t? with
    | none => exact hnone.orderly
    | some t => exact hsome t
  refine ⟨(Orderly.acceptAny ks).bind hf, fun {c b c'} hok => ?_⟩
  rcases acceptAny_cases ks c with ⟨t, rest, hrest, -, hstep⟩ | ⟨-, hstep⟩
  · rw [bind_ok hstep] at hok
    have hle := ((hsome t).passes hok).rest.length_le
    simp only [hrest, List.length_cons] at hle ⊢
    omega
  · rw [bind_ok hstep] at hok
    exact hnone.takes hok

/-- Both steps of a choice pass a token. -/
theorem choice {b : Parse Bool} {p q : Parse α} (hb : ∀ c, ∃ x, b c = .ok x c) (hp : Busy p)
    (hq : Busy q) : Busy (b >>= fun x => if x then p else q) := by
  refine ⟨.choice hb hp.orderly hq.orderly, fun {c a c'} hok => ?_⟩
  obtain ⟨x, hx⟩ := hb c
  rw [bind_ok hx] at hok
  cases x with
  | false => exact hq.takes hok
  | true => exact hp.takes hok

end Busy

/-- A step that is recovered from **passes a token**, unless none is left. -/
theorem recovering_takes {α : Type} {p : Parse α} (hp : Busy p) {c c' : Cursor} {a? : Option α}
    (hsome : c.rest ≠ []) (hok : recovering p c = .ok a? c') : c'.rest.length < c.rest.length := by
  unfold recovering at hok
  have hcourse := hp.orderly c
  cases hstep : p c with
  | ok a c₁ =>
    rw [hstep] at hok
    cases hok
    exact hp.takes hstep
  | error stop c₁ =>
    rw [hstep] at hok hcourse
    cases hcourse with
    | outOfFuel => cases hok
    | malformed hpasses =>
      cases hok
      have hle := hpasses.rest.length_le
      -- Where the step has come to the end, it has passed the tokens that there were.
      by_cases hnil : c₁.rest = []
      · simpa [hnil, synchronize] using List.length_pos_iff.2 hsome
      · exact Nat.lt_of_lt_of_le (synchronize_length_lt hnil) hle

/-! ### Expressions -/

/-- What is known of the parse steps for expressions with the given fuel. -/
structure CourseExpr (n : Nat) : Prop where
  expr : Busy (parseExpr n)
  levels : ∀ levels, Busy (parseLevels n levels)
  operands : ∀ level tighter left, Orderly (parseOperands n level tighter left)
  unary : Busy (parseUnary n)
  selectors : ∀ head, Orderly (parseSelectors n head)
  arguments : ∀ count, Busy (parseArguments n count)
  primary : Busy (parsePrimary n)

/-- **The parse steps for expressions are orderly**, and expressions are not empty. -/
theorem courseExpr (n : Nat) : CourseExpr n := by
  induction n with
  | zero =>
    exact
      { expr := .outOfFuel
        levels := fun _ => .outOfFuel
        operands := fun _ _ _ => .outOfFuel
        unary := .outOfFuel
        selectors := fun _ => .outOfFuel
        arguments := fun _ => .outOfFuel
        primary := .outOfFuel }
  | succ n ih =>
    refine ⟨?expr, ?levels, ?operands, ?unary, ?selectors, ?arguments, ?primary⟩
    case expr =>
      refine (ih.levels _).bind fun target => (Orderly.acceptAny _).bind fun equals? => ?_
      cases equals? with
      | none => exact .pure target
      | some equals =>
        refine ih.expr.orderly.bind fun value => ?_
        cases target with
        | «variable» r => exact (Orderly.newReference r.name).bind fun _ => .pure _
        | get object name => exact .pure _
        | _ => exact (Orderly.report equals _).bind fun _ => .pure _
    case levels =>
      intro levels
      cases levels with
      | nil => exact ih.unary
      | cons level tighter =>
        exact (ih.levels tighter).bind fun left => ih.operands level tighter left
    case operands =>
      intro level tighter left
      refine (Orderly.acceptAny _).bind fun operator? => ?_
      cases operator? with
      | none => exact .pure left
      | some operator => exact (ih.levels tighter).orderly.bind fun right => ih.operands _ _ _
    case unary =>
      refine Busy.acceptAny _ (fun operator => ?_) ?_
      · exact ih.unary.orderly.bind fun e => .pure _
      · exact ih.primary.bind fun head => ih.selectors head
    case selectors =>
      intro head
      refine (Orderly.acceptAny _).bind fun t? => ?_
      cases t? with
      | none => exact .pure head
      | some t =>
        dsimp only
        split
        · refine (Orderly.unlessNext (ih.arguments 0).orderly).bind fun arguments => ?_
          exact (Orderly.expect _).bind fun paren => ih.selectors _
        · exact (Orderly.expect _).bind fun name => ih.selectors _
    case arguments =>
      intro count
      refine Busy.before (Orderly.reportIf _ _) fun _ => ih.expr.bind fun argument => ?_
      refine (Orderly.acceptAny _).bind fun comma? => ?_
      cases comma? with
      | none => exact .pure _
      | some comma => exact (ih.arguments _).orderly.bind fun more => .pure _
    case primary =>
      refine Busy.acceptAny _ (fun t => ?_) (.fail _)
      dsimp only
      split
      · exact .pure _
      · exact .pure _
      · exact .pure _
      · exact (Orderly.expect _).bind fun _ => (Orderly.expect _).bind fun _ =>
          (Orderly.newReference t).bind fun _ => .pure _
      · exact (Orderly.newReference t).bind fun _ => .pure _
      · exact (Orderly.newReference t).bind fun _ => .pure _
      · exact ih.expr.orderly.bind fun inner => (Orderly.expect _).bind fun _ => .pure _
      · exact .pure _

/-! ### Statements -/

section

variable (n : Nat)

theorem parameters_course : ∀ count, Orderly (parseParameters n count) := by
  induction n with
  | zero =>
    intro count
    exact .outOfFuel
  | succ n ih =>
    intro count
    refine (Orderly.reportIf _ _).bind fun _ => (Orderly.expect _).bind fun parameter => ?_
    refine (Orderly.acceptAny _).bind fun comma? => ?_
    cases comma? with
    | none => exact .pure _
    | some comma => exact (ih _).bind fun more => .pure _

theorem var_course : Busy (parseVar n) :=
  (Busy.expect _).bind fun _ => (Orderly.after (courseExpr n).expr.orderly).bind fun _ =>
    (Orderly.expect _).bind fun _ => .pure _

theorem expressionStatement_course : Busy (parseExpressionStatement n) :=
  (courseExpr n).expr.bind fun _ => (Orderly.expect _).bind fun _ => .pure _

theorem forInitializer_course : Orderly (parseForInitializer n) := by
  refine (Orderly.acceptAny _).bind fun t? => ?_
  cases t? with
  | none => exact (expressionStatement_course n).orderly.map some
  | some t =>
    dsimp only
    split
    · exact (var_course n).orderly.map some
    · exact .pure none

theorem condition_course (opening closing : Expectation) :
    Orderly (parseCondition n opening closing) :=
  (Orderly.expect _).bind fun _ => (courseExpr n).expr.orderly.bind fun _ =>
    (Orderly.expect _).bind fun _ => .pure _

theorem optional_course (k : Token.Kind) :
    Orderly (Parse.unlessNext k none (some <$> parseExpr n)) :=
  .unlessNext ((courseExpr n).expr.orderly.map some)

end

/-- A declaration **before any problem is recovered from**. -/
def attemptDeclaration (n : Nat) : Parse Stmt := do
  match ← Parse.acceptAny [.keyword .class_, .keyword .fun_, .keyword .var] with
  | none => parseStatement n
  | some t =>
    match t.kind with
    | .keyword .class_ => parseClass n
    | .keyword .fun_ => return .function (← parseRoutine n .function)
    | _ => parseVar n

theorem parseDeclaration_succ (n : Nat) :
    parseDeclaration (n + 1) = recovering (attemptDeclaration n) := rfl

/-- What is known of the parse steps for statements with the given fuel. -/
structure CourseStmt (n : Nat) : Prop where
  declaration : Orderly (parseDeclaration n)
  classDecl : Busy (parseClass n)
  methods : Orderly (parseMethods n)
  routine : ∀ kind, Busy (parseRoutine n kind)
  block : Busy (parseBlock n)
  statement : Busy (parseStatement n)
  loop : Busy (parseFor n)

theorem CourseStmt.attempt {n : Nat} (h : CourseStmt n) : Busy (attemptDeclaration n) := by
  refine Busy.acceptAny _ (fun t => ?_) h.statement
  dsimp only
  split
  · exact h.classDecl.orderly
  · exact (h.routine .function).orderly.bind fun r => .pure _
  · exact (var_course n).orderly

/-- **The parse steps for statements are orderly**, and statements are not empty. -/
theorem courseStmt (n : Nat) : CourseStmt n := by
  induction n with
  | zero =>
    exact
      { declaration := .outOfFuel
        classDecl := .outOfFuel
        methods := .outOfFuel
        routine := fun _ => .outOfFuel
        block := .outOfFuel
        statement := .outOfFuel
        loop := .outOfFuel }
  | succ n ih =>
    refine ⟨?declaration, ?classDecl, ?methods, ?routine, ?block, ?statement, ?loop⟩
    case declaration =>
      rw [parseDeclaration_succ]
      exact .recovering ih.attempt.orderly
    case classDecl =>
      refine (Busy.expect _).bind fun name => ?_
      refine (Orderly.after ((Orderly.expect _).bind fun t => .newReference t)).bind fun _ => ?_
      exact (Orderly.expect _).bind fun _ => ih.methods.bind fun _ =>
        (Orderly.expect _).bind fun _ => .pure _
    case methods =>
      refine Orderly.choice (fun _ => ⟨_, rfl⟩) (.pure []) ?_
      exact (ih.routine .method).orderly.bind fun _ => ih.methods.bind fun _ => .pure _
    case routine =>
      intro kind
      refine (Busy.expect _).bind fun name => (Orderly.expect _).bind fun _ => ?_
      refine (Orderly.unlessNext (parameters_course n 0)).bind fun parameters => ?_
      exact (Orderly.expect _).bind fun _ => (Orderly.expect _).bind fun _ =>
        ih.block.orderly.bind fun _ => .pure _
    case block =>
      refine Busy.choice (fun _ => ⟨_, rfl⟩) ((Busy.expect _).bind fun _ => .pure []) ?_
      exact Busy.before ih.declaration fun _ => ih.block.bind fun _ => .pure _
    case statement =>
      refine Busy.acceptAny _ (fun t => ?_) (expressionStatement_course n)
      dsimp only
      split
      · exact ih.loop.orderly
      · exact (condition_course n _ _).bind fun _ => ih.statement.orderly.bind fun _ =>
          (Orderly.after ih.statement.orderly).bind fun _ => .pure _
      · exact (courseExpr n).expr.orderly.bind fun _ => (Orderly.expect _).bind fun _ => .pure _
      · exact (optional_course n _).bind fun _ => (Orderly.expect _).bind fun _ => .pure _
      · exact (condition_course n _ _).bind fun _ => ih.statement.orderly.bind fun _ => .pure _
      · exact ih.block.orderly.bind fun _ => .pure _
    case loop =>
      refine (Busy.expect _).bind fun _ => (forInitializer_course n).bind fun _ => ?_
      refine (optional_course n _).bind fun _ => (Orderly.expect _).bind fun _ => ?_
      refine (optional_course n _).bind fun _ => (Orderly.expect _).bind fun _ => ?_
      exact ih.statement.orderly.bind fun _ => .pure _

/-- A declaration **passes a token**, unless none is left. -/
theorem declaration_takes {n : Nat} {c c' : Cursor} {s? : Option Stmt} (hsome : c.rest ≠ [])
    (hok : parseDeclaration n c = .ok s? c') : c'.rest.length < c.rest.length := by
  cases n with
  | zero => cases hok
  | succ n => exact recovering_takes (courseStmt n).attempt hsome hok

theorem declarations_course (n : Nat) : Orderly (parseDeclarations n) := by
  induction n with
  | zero => exact .outOfFuel
  | succ n ih =>
    refine Orderly.choice (fun _ => ⟨_, rfl⟩) (.pure []) ?_
    exact (courseStmt n).declaration.bind fun _ => ih.bind fun _ => .pure _

end Lox
