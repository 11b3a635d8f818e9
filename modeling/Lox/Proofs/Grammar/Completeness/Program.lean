/-
**Programs in the grammar are parsed.**

Declarations and statements: the parse steps read what the grammar derives.  Behind a statement that
waits for an `else` none may be next; inside of programs and blocks none ever is, since no
declaration begins with one.

Main definitions:

* `Lox.Grammar.Part.starts` — the kinds of tokens that the parts of a program begin with;
* `Lox.Stmt.Matches`, `Lox.Routine.Matches` — trees that differ at most in numbers;
* `Lox.CompleteStmt` — what is known of the parse steps with a given amount of fuel.

Main results:

* `Lox.completeStmt` — **parse steps read what the grammar derives**;
* `Lox.declarations_reads` — the same for whole programs.
-/

import Lox.Proofs.Grammar.Completeness.Expression
import Lox.Proofs.Grammar.Soundness.Program

set_option relaxedAutoImplicit false
set_option autoImplicit false

namespace Lox

open Grammar

/-! ### Kinds of tokens -/

/-- The kinds of tokens that statements other than expressions begin with. -/
def statementKinds : List Token.Kind :=
  [.keyword .for_, .keyword .if_, .keyword .print, .keyword .return_, .keyword .while_,
    .symbol .leftBrace]

/-- The kinds of tokens that a part of a program begins with. -/
def Grammar.Part.starts : Part → List Token.Kind
  | routine => [.identifier]
  | declaration => [.keyword .class_, .keyword .fun_, .keyword .var] ++
    (statementKinds ++ (unaryOperators ++ primaryKinds))
  | statement _ => statementKinds ++ (unaryOperators ++ primaryKinds)

/-- The first token of a part of a program. -/
theorem Grammar.Parses.starts {part : Part} {ts : List Token} {s : Stmt} (h : Parses part ts s) :
    ∃ t us, ts = t :: us ∧ t.kind ∈ part.starts := by
  induction h with
  | routine hname => exact ⟨_, _, rfl, by rw [hname]; decide⟩
  | classDecl hword => exact ⟨_, _, rfl, by rw [hword]; decide⟩
  | function hword => exact ⟨_, _, rfl, by rw [hword]; decide⟩
  | var hs =>
    obtain ⟨hvar⟩ := hs
    exact ⟨_, _, rfl, by rw [hvar]; decide⟩
  | statement _ ih =>
    obtain ⟨t, us, rfl, ht⟩ := ih
    exact ⟨t, us, rfl, List.mem_append_right _ ht⟩
  | expression hs =>
    obtain ⟨he⟩ := hs
    obtain ⟨t, us, rfl, ht⟩ := he.starts
    exact ⟨t, _, rfl, List.mem_append_right _ ht⟩
  | print hword | ret hword | block hword | ifThen hword | whileLoop hword =>
    exact ⟨_, _, rfl, by rw [hword]; exact List.mem_append_left _ (by decide)⟩
  | ifThenElse hword | forLoop hword =>
    exact ⟨_, _, rfl, by rw [hword]; exact List.mem_append_left _ (by decide)⟩

/-- What a part of a program does not begin with is not next where one stands. -/
theorem Grammar.Parses.notNext {part : Part} {ts rest : List Token} {s : Stmt}
    {ks : List Token.Kind} (h : Parses part ts s) (hks : ∀ k ∈ part.starts, k ∉ ks) :
    NotNext ks (ts ++ rest) := by
  obtain ⟨t, us, rfl, ht⟩ := h.starts
  exact .cons (hks _ ht)

/-- A step taken inside of a block: a part of a program is next. -/
theorem Grammar.Parses.inBlock {part : Part} {ts us rest : List Token} {s : Stmt} {β : Type}
    {f : Bool → Parse β} {P : β → Prop} (h : Parses part ts s)
    (hbrace : .symbol .rightBrace ∉ part.starts) (hf : Reads (f false) (ts ++ us) rest P) :
    Reads (Parse.atBlockEnd >>= f) (ts ++ us) rest P := by
  refine .inspect (fun c hc => ?_) hf
  obtain ⟨t, vs, rfl, ht⟩ := h.starts
  have hkind : t.kind ≠ .symbol .rightBrace := fun h => hbrace (h ▸ ht)
  rw [atBlockEnd_eq, hc]
  simp [hkind]

/-- A step taken at the end of a block. -/
theorem Reads.blockEnd {brace : Token} {ts rest us : List Token} {β : Type} {f : Bool → Parse β}
    {P : β → Prop} (hts : ts ++ rest = brace :: us) (hbrace : brace.kind = .symbol .rightBrace)
    (hf : Reads (f true) ts rest P) : Reads (Parse.atBlockEnd >>= f) ts rest P := by
  refine .inspect (fun c hc => ?_) hf
  rw [atBlockEnd_eq, hc, hts]
  simp [hbrace]

/-- No `else` is next behind declarations, if none is behind all of them. -/
theorem notNext_else_of_declarations {body : List (List Token × Stmt)} {rest : List Token}
    (hbody : ∀ d ∈ body, Parses .declaration d.1 d.2) (hrest : NotNext [.keyword .else_] rest) :
    NotNext [.keyword .else_] ((body.map Prod.fst).flatten ++ rest) := by
  cases body with
  | nil => exact hrest
  | cons d body =>
    rw [List.map_cons, List.flatten_cons, List.append_assoc]
    exact (hbody d (List.mem_cons_self ..)).notNext (by decide)

/-! ### Parts of statements -/

/-- A statement matches another if they differ at most in the numbers of references. -/
def Stmt.Matches (s a : Stmt) : Prop := a.unnumbered = s.unnumbered

/-- A declared body matches another if they differ at most in the numbers of references. -/
def Routine.Matches (r a : Routine) : Prop := a.unnumbered = r.unnumbered

section

variable {n : Nat} {ts rest : List Token}

/-- A semicolon or a closing parenthesis does not go on with an expression. -/
theorem notNext_of_end {t : Token}
    (ht : t.kind = .symbol .semicolon ∨ t.kind = .symbol .rightParen) :
    NotNext exprContinuations (t :: ts) := by
  refine .cons ?_
  rcases ht with ht | ht <;> rw [ht] <;> decide

theorem parameters_reads (n : Nat) : ∀ {params ts rest : List Token} {count : Nat},
    Separated (params.map fun p => [p]) ts → (∀ p ∈ params, p.kind = .identifier) → params ≠ [] →
    count + params.length ≤ 255 → NotNext [.symbol .comma] rest →
    Reads (parseParameters n count) ts rest fun ps => ps = params := by
  induction n with
  | zero =>
    intros
    exact .outOfFuel
  | succ n ih =>
    intro params ts rest count hcommas hkinds hne hlength hrest
    obtain ⟨p, params, rfl⟩ := List.exists_cons_of_ne_nil hne
    have hp : p.kind = .identifier := hkinds p (List.mem_cons_self ..)
    rw [List.length_cons] at hlength
    rw [parseParameters]
    refine .reportIf _ (decide_eq_false (by rw [maxArguments]; omega)) ?_
    cases params with
    | nil =>
      obtain rfl : ts = [p] := by cases hcommas; rfl
      exact .expect hp (.acceptNone hrest (.pure rfl))
    | cons q params =>
      obtain ⟨comma, vs, rfl, hcomma, hmore⟩ : ∃ comma vs, ts = [p] ++ comma :: vs ∧
          comma.kind = .symbol .comma ∧ Separated ((q :: params).map fun p => [p]) vs := by
        cases hcommas with
        | more hcomma hmore => exact ⟨_, _, rfl, hcomma, hmore⟩
      refine .expect hp (.accept hcomma ?_)
      have htail : ∀ x ∈ q :: params, x.kind = .identifier :=
        fun x hx => hkinds x (List.mem_cons_of_mem _ hx)
      refine (ih hmore htail (by simp) (by omega) hrest).map fun more hmore' => ?_
      rw [hmore']

/-- A variable declaration behind its first word. -/
theorem var_reads {name semicolon : Token} {initializer : Option Expr}
    (hname : name.kind = .identifier) (hinitializer : Optional Initializer ts initializer)
    (hsemicolon : semicolon.kind = .symbol .semicolon) :
    Reads (parseVar n) (name :: ts ++ [semicolon]) rest (Stmt.var name initializer).Matches := by
  refine .expect hname ?_
  cases hinitializer with
  | none =>
    refine .before (.afterNone (.cons ?_)) fun a? ha => .expect hsemicolon (.pure ?_)
    · rw [hsemicolon]
      decide
    · rw [ha]
      rfl
  | some hs =>
    obtain ⟨hequals, he⟩ := hs
    refine .bind (.after hequals ((completeExpr n).expr he (notNext_of_end (.inl hsemicolon)))) ?_
    rintro _ ⟨a, rfl, ha⟩
    refine .expect hsemicolon (.pure ?_)
    simp only [Stmt.Matches, Stmt.unnumbered, Option.map_some]
    rw [ha]

theorem expressionStatement_reads {s : Stmt} (h : ExpressionStatement ts s) :
    Reads (parseExpressionStatement n) ts rest s.Matches := by
  obtain ⟨he, hsemicolon⟩ := h
  refine .bind ((completeExpr n).expr he (notNext_of_end (.inl hsemicolon))) fun a ha => ?_
  refine .expect hsemicolon (.pure ?_)
  simp only [Stmt.Matches, Stmt.unnumbered]
  rw [ha]

theorem forInitializer_reads {s? : Option Stmt} (h : ForInitializer ts s?) :
    Reads (parseForInitializer n) ts rest fun a? =>
      a?.map Stmt.unnumbered = s?.map Stmt.unnumbered := by
  unfold parseForInitializer
  cases h with
  | none hsemicolon =>
    refine .acceptAny (by simp [hsemicolon]) ?_
    simp only [hsemicolon, beq_iff_eq, reduceCtorEq, if_false]
    exact .pure rfl
  | var hs =>
    obtain ⟨hvar, hname, hinitializer, hsemicolon⟩ := hs
    refine .acceptAny (by simp [hvar]) ?_
    simp only [hvar, beq_self_eq_true, if_true]
    refine (var_reads hname hinitializer hsemicolon).map fun a ha => ?_
    rw [Option.map_some, Option.map_some, ha]
  | expression hs =>
    refine .acceptNone ?_ ((expressionStatement_reads hs).map fun a ha => ?_)
    · obtain ⟨he, -⟩ := hs
      rw [List.append_assoc]
      exact he.notNext (by decide)
    · rw [Option.map_some, Option.map_some, ha]

theorem condition_reads {opening closing : Expectation} {e : Expr}
    (hopening : opening.kind = .symbol .leftParen) (hclosing : closing.kind = .symbol .rightParen)
    (h : Condition ts e) : Reads (parseCondition n opening closing) ts rest e.Matches := by
  obtain ⟨hl, he, hr⟩ := h
  refine .expect (hl.trans hopening.symm) ?_
  refine .bind ((completeExpr n).expr he (notNext_of_end (.inr hr))) fun a ha => ?_
  exact .expect (hr.trans hclosing.symm) (.pure ha)

/-- An expression, unless the token that ends it is next. -/
theorem optional_reads {t : Token} {k : Token.Kind} {e? : Option Expr}
    (h : Optional (Derives .assignment) ts e?)
    (ht : t.kind = k) (hk : k = .symbol .semicolon ∨ k = .symbol .rightParen) :
    Reads (Parse.unlessNext k none (some <$> parseExpr n)) ts (t :: rest) fun a? =>
      a?.map Expr.unnumbered = e?.map Expr.unnumbered := by
  cases h with
  | none => exact .unlessNextAbsent ht rfl
  | some he =>
    refine .unlessNext (he.notNext ?_) ?_
    · rcases hk with rfl | rfl <;> decide
    · refine ((completeExpr n).expr he (notNext_of_end (ht ▸ hk))).map fun a ha => ?_
      rw [Option.map_some, Option.map_some, ha]

end

/-! ### Statements and declarations -/

/-- What is known of the parse steps for statements with `n` units of fuel. -/
structure CompleteStmt (n : Nat) : Prop where
  declaration : ∀ {ts rest : List Token} {s : Stmt}, Parses .declaration ts s →
    NotNext [.keyword .else_] rest →
    Reads (parseDeclaration n) ts rest fun a? => ∃ a, a? = some a ∧ s.Matches a
  classDecl : ∀ {name brace brace' : Token} {ss rest : List Token} {superclass : Option Reference}
    {methods : List (List Token × Routine)}, name.kind = .identifier →
    Optional Superclass ss superclass → brace.kind = .symbol .leftBrace →
    (∀ m ∈ methods, Parses .routine m.1 (.function m.2)) → brace'.kind = .symbol .rightBrace →
    Reads (parseClass n) (name :: ss ++ brace :: (methods.map Prod.fst).flatten ++ [brace']) rest
      (Stmt.classDecl name superclass (methods.map Prod.snd)).Matches
  methods : ∀ {methods : List (List Token × Routine)} {brace : Token} {rest : List Token},
    (∀ m ∈ methods, Parses .routine m.1 (.function m.2)) → brace.kind = .symbol .rightBrace →
    Reads (parseMethods n) (methods.map Prod.fst).flatten (brace :: rest) fun ms =>
      unnumberedMethods ms = unnumberedMethods (methods.map Prod.snd)
  routine : ∀ {ts rest : List Token} {r : Routine} (kind : RoutineKind),
    Parses .routine ts (.function r) → Reads (parseRoutine n kind) ts rest r.Matches
  block : ∀ {body : List (List Token × Stmt)} {brace : Token} {rest : List Token},
    (∀ d ∈ body, Parses .declaration d.1 d.2) → brace.kind = .symbol .rightBrace →
    Reads (parseBlock n) ((body.map Prod.fst).flatten ++ [brace]) rest fun ss =>
      unnumberedBody ss = unnumberedBody (body.map Prod.snd)
  statement : ∀ {closed : Bool} {ts rest : List Token} {s : Stmt}, Parses (.statement closed) ts s →
    (closed = false → NotNext [.keyword .else_] rest) → Reads (parseStatement n) ts rest s.Matches
  forLoop : ∀ {opening semicolon closing : Token} {is cs us ts rest : List Token}
    {initializer : Option Stmt} {condition increment : Option Expr} {s : Stmt} {closed : Bool},
    opening.kind = .symbol .leftParen → ForInitializer is initializer →
    Optional (Derives .assignment) cs condition → semicolon.kind = .symbol .semicolon →
    Optional (Derives .assignment) us increment → closing.kind = .symbol .rightParen →
    Parses (.statement closed) ts s → (closed = false → NotNext [.keyword .else_] rest) →
    Reads (parseFor n) (opening :: is ++ cs ++ semicolon :: us ++ closing :: ts) rest
      (Stmt.forLoop initializer condition increment s).Matches

section

variable {n : Nat} {ts rest : List Token}

theorem declaration_reads (ih : CompleteStmt n) {s : Stmt} (h : Parses .declaration ts s)
    (hrest : NotNext [.keyword .else_] rest) :
    Reads (parseDeclaration (n + 1)) ts rest fun a? => ∃ a, a? = some a ∧ s.Matches a := by
  rw [parseDeclaration]
  refine .recovering ?_
  cases h with
  | classDecl hword hname hsuperclass hbrace hmethods hbrace' =>
    refine .acceptAny (by simp [hword]) ?_
    simp only [hword]
    exact ih.classDecl hname hsuperclass hbrace hmethods hbrace'
  | @function word us s hword hs =>
    refine .acceptAny (by simp [hword]) ?_
    simp only [hword]
    obtain ⟨r, rfl⟩ : ∃ r, s = .function r := by cases hs; exact ⟨_, rfl⟩
    refine (ih.routine .function hs).map fun a ha => ?_
    simp only [Stmt.Matches, Stmt.unnumbered]
    rw [ha]
  | var hs =>
    obtain ⟨hvar, hname, hinitializer, hsemicolon⟩ := hs
    refine .acceptAny (by simp [hvar]) ?_
    simp only [hvar]
    exact var_reads hname hinitializer hsemicolon
  | statement hs =>
    refine .acceptNone (hs.notNext ?_) (ih.statement hs fun _ => hrest)
    rw [Part.starts]
    decide

theorem class_reads (ih : CompleteStmt n) {name brace brace' : Token} {ss : List Token}
    {superclass : Option Reference} {methods : List (List Token × Routine)}
    (hname : name.kind = .identifier) (hsuperclass : Optional Superclass ss superclass)
    (hbrace : brace.kind = .symbol .leftBrace)
    (hmethods : ∀ m ∈ methods, Parses .routine m.1 (.function m.2))
    (hbrace' : brace'.kind = .symbol .rightBrace) :
    Reads (parseClass (n + 1)) (name :: ss ++ brace :: (methods.map Prod.fst).flatten ++ [brace'])
      rest (Stmt.classDecl name superclass (methods.map Prod.snd)).Matches := by
  rw [parseClass]
  simp only [List.cons_append, List.append_assoc]
  refine .expect hname ?_
  have hread : Reads (Parse.after (.symbol .less)
      (Parse.newReference =<< Parse.expect .superclassName)) ss
      (brace :: ((methods.map Prod.fst).flatten ++ [brace']) ++ rest) fun ref? =>
        ref?.map Reference.unnumbered = superclass.map Reference.unnumbered := by
    cases hsuperclass with
    | none =>
      refine (Reads.afterNone (.cons ?_)).imp fun a? ha => by rw [ha]
      rw [hbrace]
      decide
    | some hs =>
      obtain ⟨hless, href⟩ := hs
      refine (Reads.after hless (.expect href (.newReference _))).imp ?_
      rintro _ ⟨ref, rfl, hname⟩
      simp [Reference.unnumbered, hname]
  refine hread.bind fun ref? href => .expect hbrace ?_
  refine (ih.methods hmethods hbrace').bind fun ms hms => .expect hbrace' (.pure ?_)
  simp only [Stmt.Matches, Stmt.unnumbered]
  rw [href, hms]

theorem methods_reads (ih : CompleteStmt n) {methods : List (List Token × Routine)} {brace : Token}
    (hmethods : ∀ m ∈ methods, Parses .routine m.1 (.function m.2))
    (hbrace : brace.kind = .symbol .rightBrace) :
    Reads (parseMethods (n + 1)) (methods.map Prod.fst).flatten (brace :: rest) fun ms =>
      unnumberedMethods ms = unnumberedMethods (methods.map Prod.snd) := by
  rw [parseMethods]
  cases methods with
  | nil => exact .blockEnd rfl hbrace (.pure rfl)
  | cons m methods =>
    have hm := hmethods m (List.mem_cons_self ..)
    rw [List.map_cons, List.flatten_cons]
    refine hm.inBlock (by decide) ?_
    refine (ih.routine .method hm).bind fun a ha => ?_
    have htail := fun d hd => hmethods d (List.mem_cons_of_mem _ hd)
    refine (ih.methods htail hbrace).map fun more hmore => ?_
    rw [List.map_cons, unnumberedMethods, unnumberedMethods, ha, hmore]

theorem routine_reads (ih : CompleteStmt n) {r : Routine} (kind : RoutineKind)
    (h : Parses .routine ts (.function r)) :
    Reads (parseRoutine (n + 1) kind) ts rest r.Matches := by
  cases h with
  | @routine name opening closing brace brace' params ps body hname hopening hcommas hparams hlength
      hclosing hbrace hbody hbrace' =>
    rw [parseRoutine]
    simp only [List.cons_append, List.append_assoc]
    refine .expect hname (.expect hopening ?_)
    have hread : Reads (Parse.unlessNext (.symbol .rightParen) [] (parseParameters n 0)) ps
        (closing :: brace :: ((body.map Prod.fst).flatten ++ [brace']) ++ rest)
        fun a => a = params := by
      by_cases hnil : params = []
      · subst hnil
        cases hcommas
        exact .unlessNextAbsent hclosing rfl
      · obtain ⟨p, params, rfl⟩ := List.exists_cons_of_ne_nil hnil
        refine .unlessNext ?_ (parameters_reads n hcommas hparams hnil (by omega) (.cons ?_))
        · obtain ⟨vs, rfl⟩ := hcommas.starts
          refine .cons ?_
          rw [hparams p (List.mem_cons_self ..)]
          decide
        · rw [hclosing]
          decide
    refine hread.bind fun a ha => .expect hclosing (.expect hbrace ?_)
    refine (ih.block hbody hbrace').map fun ss hss => ?_
    simp only [Routine.Matches, Routine.unnumbered]
    rw [ha, hss]

theorem block_reads (ih : CompleteStmt n) {body : List (List Token × Stmt)} {brace : Token}
    (hbody : ∀ d ∈ body, Parses .declaration d.1 d.2) (hbrace : brace.kind = .symbol .rightBrace) :
    Reads (parseBlock (n + 1)) ((body.map Prod.fst).flatten ++ [brace]) rest fun ss =>
      unnumberedBody ss = unnumberedBody (body.map Prod.snd) := by
  rw [parseBlock]
  cases body with
  | nil => exact .blockEnd rfl hbrace (.expect hbrace (.pure rfl))
  | cons d body =>
    have hd := hbody d (List.mem_cons_self ..)
    have htail := fun e he => hbody e (List.mem_cons_of_mem _ he)
    have hnext : NotNext [.keyword .else_] ((body.map Prod.fst).flatten ++ [brace] ++ rest) := by
      rw [List.append_assoc]
      refine notNext_else_of_declarations htail (.cons ?_)
      rw [hbrace]
      decide
    rw [List.map_cons, List.flatten_cons, List.append_assoc]
    refine hd.inBlock (by decide) ?_
    refine (ih.declaration hd hnext).bind ?_
    rintro _ ⟨a, rfl, ha⟩
    refine (ih.block htail hbrace).map fun more hmore => ?_
    rw [Option.toList_some, List.singleton_append, List.map_cons, unnumberedBody, unnumberedBody,
      ha, hmore]

theorem statement_reads (ih : CompleteStmt n) {closed : Bool} {s : Stmt}
    (h : Parses (.statement closed) ts s)
    (hrest : closed = false → NotNext [.keyword .else_] rest) :
    Reads (parseStatement (n + 1)) ts rest s.Matches := by
  rw [parseStatement]
  cases h with
  | expression hs =>
    refine .acceptNone ?_ (expressionStatement_reads hs)
    obtain ⟨he, -⟩ := hs
    rw [List.append_assoc]
    exact he.notNext (by decide)
  | print hword he hsemicolon =>
    refine .acceptAny (by simp [hword]) ?_
    simp only [hword]
    refine .bind ((completeExpr n).expr he (notNext_of_end (.inl hsemicolon))) fun a ha => ?_
    refine .expect hsemicolon (.pure ?_)
    simp only [Stmt.Matches, Stmt.unnumbered]
    rw [ha]
  | ret hword hvalue hsemicolon =>
    refine .acceptAny (by simp [hword]) ?_
    simp only [hword]
    refine .bind (optional_reads hvalue hsemicolon (.inl rfl)) fun a? ha => ?_
    refine .expect hsemicolon (.pure ?_)
    simp only [Stmt.Matches, Stmt.unnumbered]
    rw [ha]
  | block hbrace hbody hbrace' =>
    refine .acceptAny (by simp [hbrace]) ?_
    simp only [hbrace]
    refine (ih.block hbody hbrace').map fun ss hss => ?_
    simp only [Stmt.Matches, Stmt.unnumbered]
    rw [hss]
  | ifThen hword hcondition hs =>
    refine .acceptAny (by simp [hword]) ?_
    simp only [hword]
    refine .bind (condition_reads rfl rfl hcondition) fun c hc => ?_
    refine (ih.statement hs fun _ => hrest rfl).last fun a ha => ?_
    -- The statement is not closed, so that no `else` may come next.
    refine (Reads.afterNone (hrest rfl)).map fun e? he => ?_
    simp only [he, Stmt.Matches, Stmt.unnumbered]
    rw [hc, ha]
  | @ifThenElse word word' cs vs us condition s s' _ hword hcondition hs hword' hs' =>
    rw [List.append_assoc, List.cons_append]
    refine .acceptAny (by simp [hword]) ?_
    simp only [hword]
    refine .bind (condition_reads rfl rfl hcondition) fun c hc => ?_
    -- The first branch is closed: it does not take the `else` that follows.
    refine .bind (ih.statement hs fun hopen => Bool.noConfusion hopen) fun a ha => ?_
    refine (Reads.after hword' (ih.statement hs' hrest)).map ?_
    rintro _ ⟨b, rfl, hb⟩
    simp only [Stmt.Matches, Stmt.unnumbered]
    rw [hc, ha, hb]
  | whileLoop hword hcondition hs =>
    refine .acceptAny (by simp [hword]) ?_
    simp only [hword]
    refine .bind (condition_reads rfl rfl hcondition) fun c hc => ?_
    refine (ih.statement hs hrest).map fun a ha => ?_
    simp only [Stmt.Matches, Stmt.unnumbered]
    rw [hc, ha]
  | forLoop hword hopening hinitializer hcondition hsemicolon hincrement hclosing hs =>
    refine .acceptAny (by simp [hword]) ?_
    simp only [hword]
    exact ih.forLoop hopening hinitializer hcondition hsemicolon hincrement hclosing hs hrest

/-- Parts of `for` loops that match make loops that match. -/
theorem forLoop_matches {initializer initializer' : Option Stmt}
    {condition condition' increment increment' : Option Expr} {s s' : Stmt}
    (hi : initializer'.map Stmt.unnumbered = initializer.map Stmt.unnumbered)
    (hc : condition'.map Expr.unnumbered = condition.map Expr.unnumbered)
    (hu : increment'.map Expr.unnumbered = increment.map Expr.unnumbered) (hs : s.Matches s') :
    (Stmt.forLoop initializer condition increment s).Matches
      (Stmt.forLoop initializer' condition' increment' s') := by
  have hcondition : (condition'.getD (.literal (.bool true))).unnumbered =
      (condition.getD (.literal (.bool true))).unnumbered := by
    rw [← Option.getD_map Expr.unnumbered, ← Option.getD_map Expr.unnumbered, hc]
  unfold Stmt.Matches at hs
  cases increment <;> cases increment' <;> cases initializer <;> cases initializer' <;>
    simp_all [Stmt.Matches, Stmt.forLoop, Stmt.unnumbered, unnumberedBody]

theorem for_reads (ih : CompleteStmt n) {opening semicolon closing : Token} {is cs us : List Token}
    {initializer : Option Stmt} {condition increment : Option Expr} {s : Stmt} {closed : Bool}
    (hopening : opening.kind = .symbol .leftParen) (hinitializer : ForInitializer is initializer)
    (hcondition : Optional (Derives .assignment) cs condition)
    (hsemicolon : semicolon.kind = .symbol .semicolon)
    (hincrement : Optional (Derives .assignment) us increment)
    (hclosing : closing.kind = .symbol .rightParen) (hs : Parses (.statement closed) ts s)
    (hrest : closed = false → NotNext [.keyword .else_] rest) :
    Reads (parseFor (n + 1)) (opening :: is ++ cs ++ semicolon :: us ++ closing :: ts) rest
      (Stmt.forLoop initializer condition increment s).Matches := by
  rw [parseFor]
  simp only [List.cons_append, List.append_assoc]
  refine .expect hopening ?_
  refine (forInitializer_reads hinitializer).bind fun i hi => ?_
  refine (optional_reads hcondition hsemicolon (.inl rfl)).bind fun c hc => .expect hsemicolon ?_
  refine (optional_reads hincrement hclosing (.inr rfl)).bind fun u hu => .expect hclosing ?_
  exact (ih.statement hs hrest).map fun a ha => forLoop_matches hi hc hu ha

end

/-- **Parse steps for statements read what the grammar derives.** -/
theorem completeStmt (n : Nat) : CompleteStmt n := by
  induction n with
  | zero => constructor <;> intros <;> exact .outOfFuel
  | succ n ih =>
    exact
      { declaration := declaration_reads ih
        classDecl := class_reads ih
        methods := methods_reads ih
        routine := routine_reads ih
        block := block_reads ih
        statement := statement_reads ih
        forLoop := for_reads ih }

/-! ### Whole texts -/

theorem declarations_reads (n : Nat) : ∀ {parts : List (List Token × Stmt)},
    (∀ d ∈ parts, Parses .declaration d.1 d.2) →
    Reads (parseDeclarations n) (parts.map Prod.fst).flatten [] fun ss =>
      unnumberedBody ss = unnumberedBody (parts.map Prod.snd) := by
  induction n with
  | zero =>
    intros
    exact .outOfFuel
  | succ n ih =>
    intro parts hparts
    rw [parseDeclarations]
    cases parts with
    | nil =>
      refine .inspect (a := true) (fun c hc => ?_) (.pure rfl)
      change EStateM.Result.ok c.rest.isEmpty c = _
      rw [hc]
      rfl
    | cons d parts =>
      have hd := hparts d (List.mem_cons_self ..)
      have htail := fun e he => hparts e (List.mem_cons_of_mem _ he)
      -- What follows a declaration does not begin with `else`, whatever it is.
      have hnext := notNext_else_of_declarations htail (.nil _)
      rw [List.map_cons, List.flatten_cons]
      refine .inspect (a := false) (fun c hc => ?_) ?_
      · obtain ⟨t, vs, hvs, -⟩ := hd.starts
        change EStateM.Result.ok c.rest.isEmpty c = _
        rw [hc, hvs]
        rfl
      · refine ((completeStmt n).declaration hd hnext).bind ?_
        rintro _ ⟨a, rfl, ha⟩
        refine (ih htail).map fun more hmore => ?_
        rw [Option.toList_some, List.singleton_append, List.map_cons, unnumberedBody,
          unnumberedBody, ha, hmore]

end Lox
