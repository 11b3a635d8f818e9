/-
**Parsed trees have no holes.**

A parse step that gives a result may have reported problems on the way, and gone on behind them.
What it gives then need not be in the grammar, but it is put together from results of other steps,
and none of these leaves a hole.  What every step gives is said with `Lox.Gives`, findings or not.

Main definitions:

* `Lox.WholeExpr`, `Lox.WholeStmt` — what is known of the parse steps with a given amount of fuel.

Main results:

* `Lox.wholeExpr`, `Lox.wholeStmt` — parse steps give trees without holes;
* `Lox.parseProgram_whole` — **the tree of a text has no holes**.
-/

import Lox.Proofs.Scope.Sites
import Lox.Proofs.Sequence
import Lox.Tree.Parser.Program

set_option relaxedAutoImplicit false
set_option autoImplicit false

namespace Lox

/-! ### Results of parse steps -/

namespace Gives

variable {α : Type} {P : α → Prop}

theorem fail (problem : Problem) : Gives P (Parse.fail problem) :=
  .behind fun _ => .behind fun _ => .throw _

theorem after {k : Token.Kind} {step : Parse α} (h : Gives P step) :
    Gives (fun a? => ∀ a, a? = some a → P a) (Parse.after k step) := by
  refine .behind fun t? => ?_
  cases t? with
  | none => exact .pure nofun
  | some t => exact h.map fun a ha b hb => Option.some.inj hb ▸ ha

theorem unlessNext {k : Token.Kind} {absent : α} {step : Parse α} (habsent : P absent)
    (h : Gives P step) : Gives P (Parse.unlessNext k absent step) := by
  refine .behind fun next => ?_
  cases next with
  | true => exact .pure habsent
  | false => exact h

theorem recovering {step : Parse α} (h : Gives P step) :
    Gives (fun a? => ∀ a, a? = some a → P a) (recovering step) := by
  intro c a? c' heq a ha
  subst ha
  unfold Lox.recovering at heq
  cases hstep : step c with
  | ok a₁ c₁ =>
    simp only [hstep, EStateM.Result.ok.injEq, Option.some.injEq] at heq
    exact heq.1 ▸ h c a₁ c₁ hstep
  | error stop c₁ => cases stop <;> simp [hstep] at heq

end Gives

/-! ### Expressions -/

/-- What is known of the parse steps for expressions with the given fuel. -/
structure WholeExpr (n : Nat) : Prop where
  expr : Gives Expr.Whole (parseExpr n)
  levels : ∀ levels, Gives Expr.Whole (parseLevels n levels)
  operands : ∀ level tighter left, left.Whole →
    Gives Expr.Whole (parseOperands n level tighter left)
  unary : Gives Expr.Whole (parseUnary n)
  selectors : ∀ head, head.Whole → Gives Expr.Whole (parseSelectors n head)
  arguments : ∀ count, Gives argumentsWhole (parseArguments n count)
  primary : Gives Expr.Whole (parsePrimary n)

/-- **Parse steps give expressions without holes.** -/
theorem wholeExpr (n : Nat) : WholeExpr n := by
  induction n with
  | zero =>
    constructor <;> intros <;> exact .throw _
  | succ n ih =>
    refine ⟨?expr, ?levels, ?operands, ?unary, ?selectors, ?arguments, ?primary⟩
    case expr =>
      refine (ih.levels Level.ladder).bind fun target htarget => ?_
      refine .behind fun equals? => ?_
      cases equals? with
      | none => exact .pure htarget
      | some equals =>
        refine ih.expr.bind fun value hvalue => ?_
        cases target with
        | «variable» r => exact .behind fun _ => .pure hvalue
        | get object name => exact .pure ⟨hvalue, htarget⟩
        | _ => exact .behind fun _ => .pure htarget
    case levels =>
      intro levels
      cases levels with
      | nil => exact ih.unary
      | cons level tighter =>
        exact (ih.levels tighter).bind fun left hleft => ih.operands level tighter left hleft
    case operands =>
      intro level tighter left hleft
      refine .behind fun operator? => ?_
      cases operator? with
      | none => exact .pure hleft
      | some operator =>
        refine (ih.levels tighter).bind fun right hright => ih.operands _ _ _ ?_
        cases level <;> exact ⟨hleft, hright⟩
    case unary =>
      refine .behind fun operator? => ?_
      cases operator? with
      | none => exact ih.primary.bind fun head hhead => ih.selectors head hhead
      | some operator => exact ih.unary.bind fun e he => .pure he
    case selectors =>
      intro head hhead
      refine .behind fun t? => ?_
      cases t? with
      | none => exact .pure hhead
      | some t =>
        dsimp only
        split
        · have hnone : argumentsWhole [] := trivial
          refine (Gives.unlessNext hnone (ih.arguments 0)).bind fun arguments harguments => ?_
          exact .behind fun paren => ih.selectors (.call head paren arguments) ⟨hhead, harguments⟩
        · exact .behind fun name => ih.selectors (.get head name) hhead
    case arguments =>
      intro count
      refine .behind fun _ => ih.expr.bind fun argument hargument => .behind fun comma? => ?_
      cases comma? with
      | none => exact .pure ⟨hargument, trivial⟩
      | some comma => exact (ih.arguments _).bind fun more hmore => .pure ⟨hargument, hmore⟩
    case primary =>
      refine .behind fun t? => ?_
      cases t? with
      | none => exact .fail _
      | some t =>
        dsimp only
        split
        · exact .pure trivial
        · exact .pure trivial
        · exact .pure trivial
        · exact .behind fun _ => .behind fun _ => .behind fun _ => .pure trivial
        · exact .behind fun _ => .pure trivial
        · exact .behind fun _ => .pure trivial
        · exact ih.expr.bind fun inner hinner => .behind fun _ => .pure hinner
        · exact .pure trivial

/-- An expression without holes, or none. -/
theorem optionalWhole_of {e? : Option Expr} (h : ∀ e, e? = some e → e.Whole) :
    optionalWhole e? := by
  cases e? with
  | none => trivial
  | some e => exact h e rfl

/-! ### Statements -/

section

variable (n : Nat)

theorem var_whole : Gives Stmt.Whole (parseVar n) :=
  .behind fun _ => (Gives.after (wholeExpr n).expr).bind fun _ hinitializer =>
    .behind fun _ => .pure (optionalWhole_of hinitializer)

theorem expressionStatement_whole : Gives Stmt.Whole (parseExpressionStatement n) :=
  (wholeExpr n).expr.bind fun _ he => .behind fun _ => .pure he

theorem forInitializer_whole :
    Gives (fun s? => ∀ s, s? = some s → s.Whole) (parseForInitializer n) := by
  refine .behind fun t? => ?_
  cases t? with
  | none => exact (expressionStatement_whole n).map fun s hs _ heq => Option.some.inj heq ▸ hs
  | some t =>
    dsimp only
    split
    · exact (var_whole n).map fun s hs _ heq => Option.some.inj heq ▸ hs
    · exact .pure nofun

theorem condition_whole (opening closing : Expectation) :
    Gives Expr.Whole (parseCondition n opening closing) :=
  .behind fun _ => (wholeExpr n).expr.bind fun _ he => .behind fun _ => .pure he

theorem optional_whole (k : Token.Kind) :
    Gives optionalWhole (Parse.unlessNext k none (some <$> parseExpr n)) :=
  .unlessNext trivial ((wholeExpr n).expr.map fun _ he => he)

end

/-- The parts of a `for` loop have no holes, and neither has the loop. -/
theorem Stmt.whole_forLoop {initializer : Option Stmt} {condition increment : Option Expr}
    {body : Stmt} (hinitializer : ∀ s, initializer = some s → s.Whole)
    (hcondition : optionalWhole condition) (hincrement : optionalWhole increment)
    (hbody : body.Whole) : (Stmt.forLoop initializer condition increment body).Whole := by
  have hcond : (condition.getD (.literal (.bool true))).Whole := by
    cases condition with
    | none => trivial
    | some e => exact hcondition
  have hloop : ∀ b : Stmt, b.Whole →
      (Stmt.loop (condition.getD (.literal (.bool true))) b).Whole := fun b hb => ⟨hcond, hb⟩
  cases initializer <;> cases increment
  · exact hloop _ hbody
  · exact hloop _ ⟨hbody, hincrement, trivial⟩
  · exact ⟨hinitializer _ rfl, hloop _ hbody, trivial⟩
  · exact ⟨hinitializer _ rfl, hloop _ ⟨hbody, hincrement, trivial⟩, trivial⟩

theorem bodyWhole_append {ss ss' : List Stmt} (h : bodyWhole ss) (h' : bodyWhole ss') :
    bodyWhole (ss ++ ss') := by
  induction ss with
  | nil => exact h'
  | cons s ss ih => exact ⟨h.1, ih h.2⟩

theorem bodyWhole_toList {s? : Option Stmt} (h : ∀ s, s? = some s → s.Whole) :
    bodyWhole s?.toList := by
  cases s? with
  | none => trivial
  | some s => exact ⟨h s rfl, trivial⟩

/-- What is known of the parse steps for statements with the given fuel. -/
structure WholeStmt (n : Nat) : Prop where
  declaration : Gives (fun s? => ∀ s, s? = some s → s.Whole) (parseDeclaration n)
  classDecl : Gives Stmt.Whole (parseClass n)
  methods : Gives methodsWhole (parseMethods n)
  routine : ∀ kind, Gives Routine.Whole (parseRoutine n kind)
  block : Gives bodyWhole (parseBlock n)
  statement : Gives Stmt.Whole (parseStatement n)
  loop : Gives Stmt.Whole (parseFor n)

/-- **Parse steps give statements without holes.** -/
theorem wholeStmt (n : Nat) : WholeStmt n := by
  induction n with
  | zero =>
    constructor <;> intros <;> exact .throw _
  | succ n ih =>
    refine ⟨?declaration, ?classDecl, ?methods, ?routine, ?block, ?statement, ?loop⟩
    case declaration =>
      refine Gives.recovering (.behind fun t? => ?_)
      cases t? with
      | none => exact ih.statement
      | some t =>
        dsimp only
        split
        · exact ih.classDecl
        · exact (ih.routine .function).bind fun r hr => .pure hr
        · exact var_whole n
    case classDecl =>
      refine .behind fun name => .behind fun superclass => .behind fun _ => ?_
      refine ih.methods.bind fun methods hmethods => .behind fun _ => .pure ?_
      cases superclass <;> exact hmethods
    case methods =>
      refine .behind fun atEnd => ?_
      cases atEnd with
      | true => exact .pure trivial
      | false =>
        exact (ih.routine .method).bind fun m hm => ih.methods.bind fun ms hms => .pure ⟨hm, hms⟩
    case routine =>
      intro kind
      refine .behind fun _ => .behind fun _ => .behind fun _ => .behind fun _ => .behind fun _ => ?_
      exact ih.block.bind fun body hbody => .pure hbody
    case block =>
      refine .behind fun atEnd => ?_
      cases atEnd with
      | true => exact .behind fun _ => .pure trivial
      | false =>
        exact ih.declaration.bind fun first hfirst => ih.block.bind fun rest hrest =>
          .pure (bodyWhole_append (bodyWhole_toList hfirst) hrest)
    case statement =>
      refine .behind fun t? => ?_
      cases t? with
      | none => exact expressionStatement_whole n
      | some t =>
        dsimp only
        split
        · exact ih.loop
        · refine (condition_whole n .ifOpen .ifClose).bind fun c hc => ?_
          refine ih.statement.bind fun t ht => (Gives.after ih.statement).bind fun e? he => .pure ?_
          cases e? with
          | none => exact ⟨hc, ht⟩
          | some e => exact ⟨hc, ht, he e rfl⟩
        · exact (wholeExpr n).expr.bind fun e he => .behind fun _ => .pure he
        · exact (optional_whole n _).bind fun e? he => .behind fun _ => .pure he
        · exact (condition_whole n .whileOpen .whileClose).bind fun c hc =>
            ih.statement.bind fun s hs => .pure ⟨hc, hs⟩
        · exact ih.block.bind fun body hbody => .pure hbody
    case loop =>
      refine .behind fun _ => (forInitializer_whole n).bind fun initializer hinitializer => ?_
      refine (optional_whole n _).bind fun condition hcondition => .behind fun _ => ?_
      refine (optional_whole n _).bind fun increment hincrement => .behind fun _ => ?_
      exact ih.statement.bind fun body hbody =>
        .pure (Stmt.whole_forLoop hinitializer hcondition hincrement hbody)

theorem declarations_whole (n : Nat) : Gives bodyWhole (parseDeclarations n) := by
  induction n with
  | zero => exact .throw _
  | succ n ih =>
    refine .behind fun atEnd => ?_
    cases atEnd with
    | true => exact .pure trivial
    | false =>
      exact (wholeStmt n).declaration.bind fun first hfirst => ih.bind fun rest hrest =>
        .pure (bodyWhole_append (bodyWhole_toList hfirst) hrest)

/-- **The tree of a text has no holes**, whether the text is in the grammar or not. -/
theorem parseProgram_whole (tokens : List Token) (endMark : Token) (id : NodeId) :
    bodyWhole (parseProgram tokens endMark id).tree := by
  unfold parseProgram runParse
  cases hparse : parseDeclarations (parseFuel tokens) ⟨tokens, endMark, [], id⟩ with
  | ok program c => exact declarations_whole _ _ _ _ hparse
  | error stop c => trivial

end Lox
