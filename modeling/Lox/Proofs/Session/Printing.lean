/-
**Evaluating an expression and printing it.**

A session can be given an expression, whose value it prints, or a program, which may print the value
of an expression.  The two go different ways: the one expects the end of the text behind the
expression, the other a semicolon.  Yet what is accepted as an expression is accepted behind `print`
and before a line end and a semicolon, and the session shows the same in both cases.

They differ where there is no room for a call.  An expression on its own has no statement around it,
so its calls may be nested deeper than those of the program.

Main definitions:

* `Lox.Session.evaluateFor` — **an expression is evaluated** within an allowance of steps;
* `Lox.Session.Overflows` — a run that ends for want of room for a call;
* `Lox.Session.LooksAlike` — sessions that show the same but for the traces of phases.

Main results:

* `Lox.scan_printing` — the tokens of the program;
* `Lox.valid_printing` — **an expression without findings** makes a program without findings;
* `Lox.Lexical.execAll_print` — the program takes two steps more than the expression;
* `Lox.evaluate_agrees_run` — **evaluating and printing agree**, where there is room for the calls;
* `Lox.evaluate_differs_run` — a function that calls itself without end is stopped a call later in
  an expression.
-/

import Lox.Proofs.Lexical.Runaway
import Lox.Proofs.Session.Tree
import Lox.Proofs.Token.Munch

set_option relaxedAutoImplicit false
set_option autoImplicit false

namespace Lox

/-! ### The text of the program -/

/-- The program that prints the value of an expression. -/
def printing (source : String) : String := "print " ++ source ++ "\n" ++ ";"

/-- A stretch of blanks gives nothing. -/
theorem scanPieces_blank (line : Nat) {text : List Char} (h : '\n' ∉ text) (ps : List Piece) :
    scanPieces line (⟨.blank, text⟩ :: ps) = scanPieces line ps := by
  simp [scanPieces, lineCount, List.count_eq_zero.2 h, Piece.token?, Piece.problem?]

/-- A blank in front of a text changes nothing. -/
theorem scan_blank (cs : List Char) : scan (' ' :: cs) = scan cs := by
  have hblank : ∀ c, isBlank c = true → ∀ cs : List Char, scan (c :: cs) =
      scanPieces 1 (pieces (cs.dropWhile isBlank)) := by
    intro c hc cs
    rw [scan, pieces_cons, nextPiece_blank cs hc]
    refine scanPieces_blank 1 (fun hmem => ?_) _
    have hnewline : ∀ d ∈ c :: cs.takeWhile isBlank, isBlank d = true :=
      List.forall_mem_cons.2 ⟨hc, fun _ hd => List.mem_takeWhile_imp hd⟩
    exact absurd (hnewline _ hmem) (by decide)
  rw [hblank ' ' rfl]
  cases cs with
  | nil => rfl
  | cons c cs =>
    by_cases hc : isBlank c = true
    · rw [List.dropWhile_cons_of_pos hc, hblank c hc]
    · rw [List.dropWhile_cons_of_neg hc]
      rfl

/-- The word in front of the expression. -/
def printWord : Token := ⟨.keyword .print, "print", 1, .none⟩

/-- The semicolon behind the expression. -/
def closingSemicolon (source : String) : Token :=
  ⟨.symbol .semicolon, ";", 1 + seamLines source, .none⟩

theorem scan_printWord (source : String) :
    scan ("print " ++ source).toList =
      { scan source.toList with tokens := printWord :: (scan source.toList).tokens } := by
  have hchars : ("print " ++ source).toList =
      'p' :: 'r' :: 'i' :: 'n' :: 't' :: ' ' :: source.toList := by simp
  have hword : nextPiece 'p' ('r' :: 'i' :: 'n' :: 't' :: ' ' :: source.toList) =
      (⟨.word, ['p', 'r', 'i', 'n', 't']⟩, ' ' :: source.toList) := rfl
  rw [hchars, scan, pieces_cons, hword, ← scan_blank source.toList]
  rfl

/-- **The tokens of the program** are the ones of the expression, with a word in front of them and a
semicolon behind. -/
theorem scan_printing {source : String} (h : (scan source.toList).findings = []) :
    (scan (printing source).toList).findings = [] ∧
      (scan (printing source).toList).tokens =
        printWord :: (scan source.toList).tokens ++ [closingSemicolon ("print " ++ source)] := by
  have hword := scan_printWord source
  have hnone : (scan ("print " ++ source).toList).findings = [] := by rw [hword, h]
  rw [printing, scan_append hnone, hword]
  exact ⟨rfl, rfl⟩

/-- **An expression without findings** makes a program without findings. -/
theorem valid_printing {source : String} {e : Expr} (hscan : (scan source.toList).findings = [])
    (he : Grammar.Derives .assignment (scan source.toList).tokens e)
    (hrules : ∀ site ∈ e.sites [] none, site.violation? = none) :
    Valid (printing source) [.print e] := by
  obtain ⟨hnone, htokens⟩ := scan_printing hscan
  refine ⟨hnone, ?_, ?_⟩
  · rw [htokens]
    have hprint : Grammar.Parses (.statement true) (printWord :: (scan source.toList).tokens ++
        [closingSemicolon ("print " ++ source)]) (.print e) := .print rfl he rfl
    exact ⟨[(_, .print e)], List.forall_mem_singleton.2 (.statement hprint), by simp, rfl⟩
  · simpa [Lawful, bodySites, Stmt.sites] using hrules

/-! ### Evaluation within an allowance -/

namespace Session

/-- Evaluates a tree within the given allowance of steps and prints its value. -/
def evaluateTreeFor (n : Nat) (s : Session) (e : Expr) : Session × Option Interrupt :=
  match s.runStep (Machine.evaluateFor n e) with
  | (s, .ok (some text)) => (s.print text, none)
  | (s, .ok none) => (s, none)
  | (s, .error i) => (s, some i)

/-- **Evaluates** an expression within the given allowance of steps and prints its value. -/
def evaluateFor (n : Nat) (s : Session) (source : String) : Session × Option Interrupt :=
  match s.parsedExpression source with
  | (s, none) => (s, none)
  | (s, some e) =>
    match s.resolve (resolveExpression e) with
    | (s, some f) => (s, some (.fault f))
    | (s, none) => if s.report.hadError then (s, none) else s.evaluateTreeFor n e

theorem evaluate_eq_evaluateFor (s : Session) (source : String) :
    s.evaluate source = s.evaluateFor maxSteps source := by
  unfold evaluate evaluateFor evaluateTreeFor
  generalize s.parsedExpression source = parsed
  obtain ⟨s₁, e?⟩ := parsed
  cases e? <;> rfl

end Session

/-- What is reported of an expression without holes. -/
theorem resolveExpression_findings {e : Expr} (h : e.Whole) (D : Distances) :
    (resolveExpression e D).findings = findingsAt (e.sites [] none) :=
  ((resolveExpr_walks [] none e).findings h D).2

/-- An expression that session `s` has **read and analysed**, which is session `s₁` then. -/
structure Session.Analysed (s s₁ : Session) (source : String) (e : Expr) : Prop where
  scanned : (scan source.toList).findings = []
  derived : Grammar.Derives .assignment (scan source.toList).tokens e
  lawful : ∀ site ∈ e.sites [] none, site.violation? = none
  advances : Advances s s₁ []
  clear : s₁.report.hadError = false
  inScope : e.Scoped (s₁.ledger Anything) []
  evaluateFor_eq : ∀ n, s.evaluateFor n source = s₁.evaluateTreeFor n e

/-- If nothing is reported within some allowance, there is an expression. -/
theorem Session.analysed_of_clear {s : Session} (hs : s.Fresh) {source : String} {m : Nat}
    (h : (s.evaluateFor m source).1.report.hadError = false) :
    ∃ s₁ e, Session.Analysed s s₁ source e := by
  obtain ⟨htree, hid, hmachine, hadv⟩ := parsed_advances s source
    (fun tokens endMark id => (parseExpression_sound tokens endMark id).1)
  have hsound := (parseExpression_sound (scan source.toList).tokens (scan source.toList).endMark
    s.nextId).2
  have hstep : ∀ n, s.evaluateFor n source = _ := fun n => by
    unfold evaluateFor parsedExpression
    rfl
  rw [hstep] at h
  generalize s.parsed parseExpression source = parsed at htree hid hmachine hadv h hstep
  obtain ⟨s₁, e?⟩ := parsed
  dsimp only at htree hid hmachine hadv h hstep
  by_cases herror : s₁.report.hadError = true
  · simp [herror] at h
  have hclear : s₁.report.hadError = false := by simpa using herror
  have hnil := hadv.findings_eq_nil hclear
  obtain ⟨hscanned, hparsed⟩ := List.append_eq_nil_iff.1 hnil
  obtain ⟨e, he, hderived, hnumbers⟩ := hsound hparsed
  obtain rfl := htree.trans he
  rw [← hid] at hnumbers
  have hproper : e.Proper := hderived.proper (scan_spelled _)
  obtain ⟨hfault, hadv₂, hscoped⟩ := resolve_expression hs hadv hmachine hproper hnumbers
  have hres : s₁.resolve (resolveExpression e) = ((s₁.resolve (resolveExpression e)).1, none) :=
    Prod.ext rfl hfault
  simp only [hclear, Bool.false_eq_true, if_false] at h hstep
  rw [hres] at h hstep
  generalize (s₁.resolve (resolveExpression e)).1 = s₂ at hadv₂ hscoped h hstep
  by_cases herror₂ : s₂.report.hadError = true
  · simp [herror₂] at h
  have hclear₂ : s₂.report.hadError = false := by simpa using herror₂
  simp only [hclear₂, Bool.false_eq_true, if_false] at hstep
  have hnil₂ := hadv₂.findings_eq_nil hclear₂
  have hfindings := (List.append_eq_nil_iff.1 hnil₂).2
  rw [resolveExpression_findings (Expr.Proper.whole e hproper)] at hfindings
  rw [hnil₂] at hadv₂
  exact ⟨s₂, e, hscanned, hderived, findingsAt_eq_nil_iff.1 hfindings, hadv₂, hclear₂,
    hscoped hclear₂ Anything, hstep⟩

/-! ### The run of the program -/

/-- The program takes **two steps more** than the expression, and prints its value. -/
theorem Lexical.execAll_print (n : Nat) (e : Expr) (μ : State) :
    execAll (n + 2) maxExpressionCallDepth .top [.print e] μ =
      match evaluateFor n e μ with
      | .ok text μ => .ok .top { μ with printed := μ.printed.push text }
      | .error i μ => .error i μ := by
  simp only [execAll, exec, evaluateFor, bind, EStateM.bind]
  cases eval n maxExpressionCallDepth .top e μ <;> rfl

/-- The evaluation shows what the program does over names and cells. -/
theorem Agrees.evaluateTreeFor {s : Session} {μ : Lexical.State} (h : Agrees Anything s μ)
    {e : Expr} (he : e.Scoped (s.ledger Anything) []) (n : Nat) :
    ((s.evaluateTreeFor n e).2 = none ↔
      ¬ Lexical.UsedUp (Lexical.execAll (n + 2) maxExpressionCallDepth .top [.print e] μ)) ∧
    ((s.evaluateTreeFor n e).2 = none ∨ (s.evaluateTreeFor n e).2 = some .outOfFuel) ∧
    Shows s (Lexical.execAll (n + 2) maxExpressionCallDepth .top [.print e] μ)
      (s.evaluateTreeFor n e).1 := by
  have hends := h.evaluateFor he n
  rw [Lexical.execAll_print]
  unfold Session.evaluateTreeFor
  generalize s.runStep (Machine.evaluateFor n e) = r at hends ⊢
  generalize Lexical.evaluateFor n e μ = r' at hends ⊢
  cases hends with
  | @value text _ m μ' hagrees heq =>
    subst heq
    refine ⟨by simp [Lexical.UsedUp], .inl rfl, ?_, rfl, rfl, by simp [finalInterrupt]⟩
    have hprinted := hagrees.printed_eq
    dsimp only at hprinted
    rw [finalState, ← hprinted]
    exact hagrees.withPrinted _ _
  | error hagrees =>
    refine ⟨by simp [Lexical.UsedUp], .inl rfl, hagrees, rfl, rfl, ?_⟩
    simp [finalInterrupt, Interrupt.IsHarmless]
  | outOfFuel hagrees =>
    refine ⟨by simp [Lexical.UsedUp], .inr rfl, hagrees, rfl, rfl, ?_⟩
    simp [finalInterrupt, Interrupt.IsHarmless]

/-! ### What is shown -/

/-- Sessions that **show the same**, but for the traces that phases leave. -/
structure Session.LooksAlike (traced : Bool) (t t' : Session) : Prop where
  stdout : t.stdout = t'.stdout
  exitCode : t.exitCode = t'.exitCode
  globals : t.globals = t'.globals
  messages : t.report.messages = t'.report.messages
  stderr : traced = false → t.stderr = t'.stderr

theorem Report.ending_hadError (r : Report) (i? : Option Interrupt) :
    (r.ending i?).hadError = r.hadError := by
  unfold Report.ending
  split <;> rfl

/-- What is told does not depend on what was traced. -/
theorem Report.Gains.ending {r r₁ r₂ : Report} (h₁ : r.Gains r₁ []) (h₂ : r.Gains r₂ [])
    (i? : Option Interrupt) :
    (r₁.ending i?).messages = (r₂.ending i?).messages ∧
      (r₁.ending i?).exitCode = (r₂.ending i?).exitCode := by
  have hmessages : r₁.messages = r₂.messages :=
    Array.toList_inj.1 (h₁.messages.trans h₂.messages.symm)
  have herror : r₁.hadError = r₂.hadError := h₁.hadError.trans h₂.hadError.symm
  have hruntime : r₁.hadRuntimeError = r₂.hadRuntimeError :=
    h₁.hadRuntimeError.trans h₂.hadRuntimeError.symm
  unfold Report.ending
  split
  · simp only [Report.runtimeError, Report.runtimeErrorAt, Report.emit, Report.trace,
      Report.exitCode, hmessages, herror, and_self]
  · simp only [Report.exitCode, hmessages, herror, hruntime, and_self]

/-- Two ways of reading a text without findings, with results that differ in nothing but numbers. -/
theorem Shows.looksAlike {s s₁ s₂ t t' : Session}
    {r r' : EStateM.Result Interrupt Lexical.State Lexical.Names} (h : Shows s₁ r t)
    (h' : Shows s₂ r' t') (hr : Lexical.Resembles .plain r r') (ha₁ : Session.Advances s s₁ [])
    (ha₂ : Session.Advances s s₂ []) : t.LooksAlike s.traced t' := by
  obtain ⟨hstdout, hglobals⟩ := h.output_eq h' hr
  have hreport' := h'.report
  rw [hr.interrupt_eq] at hreport'
  obtain ⟨hmessages, hexit⟩ := ha₁.gains.ending ha₂.gains (finalInterrupt r)
  rw [← h.report, ← hreport'] at hmessages hexit
  refine ⟨hstdout, hexit, hglobals, hmessages, fun htraced => ?_⟩
  rw [Session.stderr, Session.stderr, h.report, hreport', ha₁.quiet htraced rfl,
    ha₂.quiet htraced rfl]

/-! ### The room for calls -/

/-- Between session `s` and session `t` a call was reported for which there was **no room**. -/
def Session.Overflows (s t : Session) : Prop :=
  ∃ line, t.report.messages =
    s.report.messages.push (Report.runtimeText (some line) RuntimeCause.stackOverflow.message)

/-- Another message is not that of an overflow. -/
theorem Session.not_overflows {s t : Session} {text : String}
    (h : t.report.messages = s.report.messages.push text) (hfirst : text.toList.head? ≠ some 'S') :
    ¬ s.Overflows t := by
  rintro ⟨line, hline⟩
  have htext : text = "Stack overflow." ++ "\n[line " ++ line.repr ++ "]" :=
    (Array.push_eq_push.1 (h.symm.trans hline)).1
  have hword : "Stack overflow.".toList.head? = some 'S' := by decide
  rw [htext, String.append_assoc, String.append_assoc, String.toList_append, List.head?_append,
    hword] at hfirst
  exact hfirst rfl

/-- A run without room over names and cells is reported as one. -/
theorem Shows.overflows {s s₁ t : Session}
    {r : EStateM.Result Interrupt Lexical.State Lexical.Names} (h : Shows s₁ r t)
    (ha : Session.Advances s s₁ []) (hr : Lexical.Overflows r) : s.Overflows t := by
  obtain ⟨paren, μ, rfl⟩ := hr
  have hmessages : s₁.report.messages = s.report.messages :=
    Array.toList_inj.1 (ha.gains.messages.trans (List.append_nil _))
  refine ⟨paren.line, ?_⟩
  rw [h.report, ← hmessages]
  rfl

/-- An accepted program does in a session what it does over names and cells. -/
theorem Agrees.runFor_accepted {s : Session} {μ : Lexical.State} (hμ : Agrees Anything s μ)
    {source : String} {tree : List Stmt} (haccepted : s.acceptedProgram? source = some tree)
    (n : Nat) :
    ∃ s₁, Session.Advances s s₁ [] ∧ s₁.report.hadError = false ∧
      ((s.runFor n source).2 = none ↔
        ¬ Lexical.UsedUp (Lexical.execAll n maxCallDepth .top tree μ)) ∧
      ((s.runFor n source).2 = none ∨ (s.runFor n source).2 = some .outOfFuel) ∧
      Shows s₁ (Lexical.execAll n maxCallDepth .top tree μ) (s.runFor n source).1 := by
  obtain ⟨htree, hreading, hlawful⟩ := Session.read_of_accepted haccepted
  rw [Session.runFor_eq_runTreeFor hreading.clear, htree]
  exact ⟨_, hreading.advances, hreading.clear, hreading.runTreeFor hμ hlawful n⟩

/-- Its run adds **no finding**. -/
theorem Agrees.runFor_clear {s : Session} {μ : Lexical.State} (hμ : Agrees Anything s μ)
    {source : String} {tree : List Stmt} (haccepted : s.acceptedProgram? source = some tree)
    (n : Nat) : (s.runFor n source).1.report.hadError = false := by
  obtain ⟨s₁, -, hclear, -, -, hshows⟩ := hμ.runFor_accepted haccepted n
  rw [hshows.report, Report.ending_hadError]
  exact hclear

/-! ### Evaluating and printing -/

namespace Session.Analysed

variable {s s₁ : Session} {source : String} {e : Expr} {tree : List Stmt}

/-- The program is accepted, and its tree is that of the expression, numbers apart. -/
theorem accepted (h : Analysed s s₁ source e) :
    ∃ tree, s.acceptedProgram? (printing source) = some tree ∧
      unnumberedBody tree = unnumberedBody [.print e] := by
  have hvalid := valid_printing h.scanned h.derived h.lawful
  exact accepted_of_valid (h.advances.clear h.clear) hvalid

section

variable (h : Analysed s s₁ source e) {μ : Lexical.State} (hμ : Agrees Anything s μ)
  (haccepted : s.acceptedProgram? (printing source) = some tree)

include h hμ haccepted

/-- The two agree within allowances that lead to the same result over names and cells. -/
theorem agrees {n m : Nat}
    (hr : Lexical.Resembles .plain
      (Lexical.execAll (n + 2) maxExpressionCallDepth .top [.print e] μ)
      (Lexical.execAll m maxCallDepth .top tree μ)) :
    (s.runFor m (printing source)).2 = (s.evaluateFor n source).2 ∧
      (s.evaluateFor n source).1.LooksAlike s.traced (s.runFor m (printing source)).1 := by
  obtain ⟨s₂, hadvances, -, hiff', hcases', hshows'⟩ := hμ.runFor_accepted haccepted m
  rw [h.evaluateFor_eq]
  obtain ⟨hiff, hcases, hshows⟩ := (hμ.advances h.advances).evaluateTreeFor h.inScope n
  rw [← hr.usedUp_iff, ← hiff'] at hiff
  exact ⟨Session.endings_eq hcases hcases' hiff, hshows.looksAlike hshows' hr h.advances hadvances⟩

variable (heq : unnumberedBody tree = unnumberedBody [.print e]) {n : Nat}
  (hroom : ¬ s.Overflows (s.runFor n (printing source)).1)

include heq hroom

omit h in
/-- A program that has room for its calls does what the expression does, which may have more. -/
theorem resembles {m : Nat} (hm : Lexical.execAll m maxCallDepth .top tree μ =
      Lexical.execAll n maxCallDepth .top tree μ) :
    Lexical.Resembles .plain (Lexical.execAll m maxExpressionCallDepth .top [.print e] μ)
      (Lexical.execAll n maxCallDepth .top tree μ) := by
  obtain ⟨s₂, hadvances, -, -, -, hshows⟩ := hμ.runFor_accepted haccepted n
  have hdepth : maxCallDepth ≤ maxExpressionCallDepth := by decide
  have hcalls : ¬ Lexical.Overflows (Lexical.execAll m maxCallDepth .top tree μ) := by
    rw [hm]
    exact fun hover => hroom (hshows.overflows hadvances hover)
  rw [← hm, ← Lexical.execAll_deeper hdepth hcalls]
  exact Lexical.execAll_renumbered heq.symm m maxExpressionCallDepth μ

/-- **The program takes two steps more** than the expression. -/
theorem agrees_steps {m : Nat} (hm : n = m + 2) :
    (s.runFor n (printing source)).2 = (s.evaluateFor m source).2 ∧
      (s.evaluateFor m source).1.LooksAlike s.traced (s.runFor n (printing source)).1 := by
  subst hm
  exact h.agrees hμ haccepted (resembles hμ haccepted heq hroom rfl)

/-- A program that comes to its end does so with two steps more as well. -/
theorem agrees_of_ends (hends : (s.runFor n (printing source)).2 = none) :
    (s.evaluateFor n source).2 = none ∧
      (s.evaluateFor n source).1.LooksAlike s.traced (s.runFor n (printing source)).1 := by
  obtain ⟨-, -, -, hiff, -, -⟩ := hμ.runFor_accepted haccepted n
  have hmono := Lexical.execAll_mono (Nat.le_add_right n 2) (hiff.1 hends)
  obtain ⟨hending, hlooks⟩ := h.agrees hμ haccepted (resembles hμ haccepted heq hroom hmono)
  exact ⟨hending.symm.trans hends, hlooks⟩

end

end Session.Analysed

/-- **Evaluating and printing agree.**  Take a session that there is and a text that it evaluates
without a finding.  Behind `print`, and before a line end and a semicolon, the text is a program
without findings.  The program takes two steps more than the expression, for every allowance of
them, and unless it has no room for its calls, the session shows the same: output, exit code,
globals and messages, with the lines of runtime errors; and, unless phases leave a trace, all that
is written is the same.  So the session does the same in both modes, if the program is not cut
short. -/
theorem evaluate_agrees_run {s : Session} (hs : s.Reachable) {source : String}
    (h : (s.evaluate source).1.report.hadError = false) :
    let program := "print " ++ source ++ "\n" ++ ";"
    (s.acceptedProgram? program).isSome ∧ (s.run program).1.report.hadError = false ∧
    (∀ n, ¬ s.Overflows (s.runFor (n + 2) program).1 →
      (s.runFor (n + 2) program).2 = (s.evaluateFor n source).2 ∧
      (s.evaluateFor n source).1.LooksAlike s.traced (s.runFor (n + 2) program).1) ∧
    ((s.run program).2 = none → ¬ s.Overflows (s.run program).1 →
      (s.evaluate source).2 = none ∧
      (s.evaluate source).1.LooksAlike s.traced (s.run program).1) := by
  intro program
  obtain ⟨μ, htwins⟩ := hs.twin
  have hμ : Agrees Anything s μ := htwins.agrees fun _ _ => trivial
  rw [s.evaluate_eq_evaluateFor] at h
  obtain ⟨s₁, e, hanalysed⟩ := Session.analysed_of_clear hμ.fresh h
  obtain ⟨tree, haccepted, heq⟩ := hanalysed.accepted
  rw [s.run_eq_runFor, s.evaluate_eq_evaluateFor]
  refine ⟨?_, hμ.runFor_clear haccepted _, fun n hroom => ?_, fun hends hroom => ?_⟩
  · exact Option.isSome_iff_exists.2 ⟨tree, haccepted⟩
  · exact hanalysed.agrees_steps hμ haccepted heq hroom rfl
  · exact hanalysed.agrees_of_ends hμ haccepted heq hroom hends

/-- An operator that its operand does not suit, on the second line of the expression: the two modes
write the same. -/
theorem evaluate_agrees_run_error :
    let s := Session.initial default false
    let source := "\n-\"a\""
    s.Reachable ∧ (s.evaluate source).1.report.hadError = false ∧
      ¬ s.Overflows (s.runFor 12 ("print " ++ source ++ "\n" ++ ";")).1 ∧
      (s.evaluateFor 10 source).1.stderr = "Operand must be a number.\n[line 2]\n" ∧
      (s.runFor 12 ("print " ++ source ++ "\n" ++ ";")).1.stderr =
        "Operand must be a number.\n[line 2]\n" := by
  intro s source
  have hs : s.Reachable := .initial default false
  have hclear : (s.evaluate source).1.report.hadError = false := by decide +kernel
  have hstderr : (s.evaluateFor 10 source).1.stderr = "Operand must be a number.\n[line 2]\n" := by
    decide +kernel
  have hroom : ¬ s.Overflows (s.runFor 12 ("print " ++ source ++ "\n" ++ ";")).1 := by
    have hmessages : (s.runFor 12 ("print " ++ source ++ "\n" ++ ";")).1.report.messages =
        s.report.messages.push "Operand must be a number.\n[line 2]" := by decide +kernel
    exact Session.not_overflows hmessages (by decide)
  refine ⟨hs, hclear, hroom, hstderr, ?_⟩
  rw [← hstderr]
  exact (((evaluate_agrees_run hs hclear).2.2.1 10 hroom).2.stderr rfl).symm

section

variable {s s₁ : Session} {source : String} {μ : Lexical.State} {id : Nat} {name paren t : Token}
  {x : Number} {ref ref' : Reference} (hμ : Agrees Anything s μ)
  (hknows : μ.KnowsRunaway id name x ref paren) (hname : ref'.name.lexeme = ref.name.lexeme)

include hμ hknows hname

/-- A program prints as many lines of a call without end as it has room for calls. -/
theorem Agrees.run_runaway
    (haccepted : s.acceptedProgram? source = some [.print (.call (.variable ref') t [])]) :
    (s.run source).2 = none ∧ (s.run source).1.machine.printed =
      μ.printed ++ Array.replicate maxCallDepth x.text := by
  obtain ⟨s₂, -, -, hiff, -, hshows⟩ := hμ.runFor_accepted haccepted maxSteps
  obtain ⟨t', hrun⟩ := Lexical.execAll_print_runaway hknows hname
    (by decide : 6 * maxCallDepth + 4 < maxSteps) t
  rw [hrun] at hiff hshows
  rw [s.run_eq_runFor]
  exact ⟨hiff.2 nofun, hshows.agrees.printed_eq⟩

/-- An expression prints as many lines of it as it has room for calls. -/
theorem Agrees.evaluate_runaway {e : Expr} (h : Session.Analysed s s₁ source e)
    (heq : unnumberedBody [.print (.call (.variable ref') t [])] = unnumberedBody [.print e]) :
    (s.evaluate source).2 = none ∧ (s.evaluate source).1.report.hadError = false ∧
      (s.evaluate source).1.machine.printed =
        μ.printed ++ Array.replicate maxExpressionCallDepth x.text := by
  obtain ⟨hiff, -, hshows⟩ := (hμ.advances h.advances).evaluateTreeFor h.inScope maxSteps
  obtain ⟨t', hrun⟩ := Lexical.execAll_print_runaway hknows hname
    (by decide : 6 * maxExpressionCallDepth + 4 < maxSteps + 2) t
  have hr := Lexical.execAll_renumbered heq (maxSteps + 2) maxExpressionCallDepth μ
  rw [hrun] at hr
  rw [s.evaluate_eq_evaluateFor, h.evaluateFor_eq, hshows.report, Report.ending_hadError,
    hshows.agrees.printed_eq, hr.state.1]
  rw [hr.usedUp_iff] at hiff
  exact ⟨hiff.2 nofun, h.clear, rfl⟩

end

/-- The length of an output of the same line so many times. -/
theorem Session.length_stdout {t : Session} {printed : Array String} {k : Nat} {line : String}
    (h : t.machine.printed = printed ++ Array.replicate k line) (hprinted : printed = #[]) :
    t.stdout.length = k * (line.length + 1) := by
  rw [hprinted, Array.empty_append] at h
  rw [Session.stdout, h, Array.toList_replicate, Session.joinLines, String.length_join,
    List.map_replicate, List.map_replicate, List.sum_replicate_nat, String.length_append]
  rfl

/-- **Without room the two modes differ.**  A function prints a line and calls itself.  The
expression that calls it has room for one call more than the program that prints its value, and so
one line more is printed. -/
theorem evaluate_differs_run :
    let declaration := "fun f() \x7b print 1; f(); \x7d"
    let s := ((Session.initial default false).apply (.perform .run declaration)).1
    let source := "f()"
    let program := "print " ++ source ++ "\n" ++ ";"
    s.Reachable ∧ s.report.hadError = false ∧
      (s.evaluate source).1.report.hadError = false ∧ (s.evaluate source).2 = none ∧
      (s.run program).2 = none ∧ (s.evaluate source).1.stdout ≠ (s.run program).1.stdout := by
  intro declaration s source program
  have hs : s.Reachable := (Session.Reachable.initial default false).step _
  have hclear : s.report.hadError = false := by decide +kernel
  have hdeclared : ((Session.initial default false).acceptedProgram? declaration).any
      (Lexical.declaresRunaway "f") = true := by decide +kernel
  obtain ⟨tree, htree, hrunaway⟩ := (Option.any_eq_true _ _).1 hdeclared
  have htwins := (Twins.initial default false).step (.perform .run declaration)
  rw [Lexical.State.apply, htree, Option.elim_some] at htwins
  obtain ⟨id, name, x, ref, paren, href, hknows, hprinted⟩ :=
    Lexical.knowsRunaway_of_declared hrunaway default
  have hμ := htwins.agrees fun _ _ => trivial
  have hsource : (s.evaluateFor 0 source).1.report.hadError = false := by decide +kernel
  obtain ⟨s₁, e, hanalysed⟩ := Session.analysed_of_clear hμ.fresh hsource
  obtain ⟨call, haccepted, heq⟩ := hanalysed.accepted
  have hcall : (s.acceptedProgram? program).any (Lexical.printsCall "f") = true := by
    decide +kernel
  rw [show s.acceptedProgram? program = some call from haccepted] at hcall
  obtain ⟨ref', t, rfl, href'⟩ := Lexical.eq_of_printsCall hcall
  have hname : ref'.name.lexeme = ref.name.lexeme := href'.trans href.symm
  obtain ⟨hrun, hlines⟩ := hμ.run_runaway hknows hname haccepted
  obtain ⟨hend, hfindings, hlines'⟩ := hμ.evaluate_runaway hknows hname hanalysed heq
  refine ⟨hs, hclear, hfindings, hend, hrun, fun hstdout => ?_⟩
  have hlengths : maxExpressionCallDepth * (x.text.length + 1) =
      maxCallDepth * (x.text.length + 1) :=
    (Session.length_stdout hlines' hprinted).symm.trans
      ((congrArg String.length hstdout).trans (Session.length_stdout hlines hprinted))
  have hdepths := Nat.eq_of_mul_eq_mul_right (Nat.succ_pos x.text.length) hlengths
  exact absurd hdepths (by decide)

end Lox
