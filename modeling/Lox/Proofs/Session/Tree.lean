/-
**Sessions that are given trees.**

What a session does with a text has two halves: the text is read as a tree, and the tree is analysed
and run.  The second half can be taken by itself, for another tree in the place of the one that was
read.  Like any program, such a tree does what it does over names and cells; so if two trees end
alike there, the session shows the same for both: the same output, the same messages, the same exit
code and the same globals.

Main definitions:

* `Lox.Session.read`, `Lox.Session.runTreeFor`, `Lox.Session.runTree` — **a text is read**, and a
  tree is analysed and run;
* `Lox.Session.Accepts` — there is nothing to find in a tree;
* `Lox.Session.Reading` — a tree that may stand in the place of one that was read;
* `Lox.Session.LooksLike` — **sessions that show the same**.

Main results:

* `Lox.Session.runFor_eq_runTreeFor` — the two halves put together;
* `Lox.Session.valid_of_accepted`, `Lox.Session.accepted_of_valid` — what is accepted is valid, and
  what is valid is accepted;
* `Lox.Session.Reading.runTreeFor` — a tree does what it does over names and cells;
* `Lox.Shows.looksLike` — results that are alike show the same.
-/

import Lox.Proofs.Lexical.Variant
import Lox.Proofs.Session.Pieces
import Lox.Proofs.Tree.Context

set_option relaxedAutoImplicit false
set_option autoImplicit false

namespace Lox

/-! ### Proper trees have no holes -/

mutual

theorem Expr.Proper.whole : ∀ e : Expr, e.Proper → e.Whole
  | .literal _, _ | .variable _, _ | .this _, _ | .super .., _ => trivial
  | .grouping e, he | .get e _, he => Expr.Proper.whole e he
  | .unary _ e, ⟨_, he⟩ | .assign _ e, ⟨_, he⟩ => Expr.Proper.whole e he
  | .binary l _ r, ⟨_, hl, hr⟩ => ⟨Expr.Proper.whole l hl, Expr.Proper.whole r hr⟩
  | .logical l _ r, ⟨hl, hr⟩ => ⟨Expr.Proper.whole l hl, Expr.Proper.whole r hr⟩
  | .call f _ es, ⟨hf, hes⟩ => ⟨Expr.Proper.whole f hf, argumentsProper.whole es hes⟩
  | .set o _ e, ⟨ho, he⟩ => ⟨Expr.Proper.whole e he, Expr.Proper.whole o ho⟩

theorem argumentsProper.whole : ∀ es : List Expr, argumentsProper es → argumentsWhole es
  | [], _ => trivial
  | e :: es, ⟨he, hes⟩ => ⟨Expr.Proper.whole e he, argumentsProper.whole es hes⟩

end

theorem optionalProper.whole {e? : Option Expr} (h : optionalProper e?) : optionalWhole e? :=
  optionalWhole_of fun e he => Expr.Proper.whole e (h e he)

mutual

/-- A proper statement has no holes. -/
theorem Stmt.Proper.whole : ∀ s : Stmt, s.Proper → s.Whole
  | .expression e, he | .print e, he => Expr.Proper.whole e he
  | .var _ _, ⟨_, he⟩ => he.whole
  | .ret _ _, he => optionalProper.whole he
  | .block body, h => bodyProper.whole body h
  | .cond c t none, ⟨hc, _, ht⟩ => ⟨Expr.Proper.whole c hc, Stmt.Proper.whole t ht⟩
  | .cond c t (some e), ⟨hc, ⟨_, ht⟩, _, he⟩ =>
    ⟨Expr.Proper.whole c hc, Stmt.Proper.whole t ht, Stmt.Proper.whole e he⟩
  | .loop c body, ⟨hc, _, hb⟩ => ⟨Expr.Proper.whole c hc, Stmt.Proper.whole body hb⟩
  | .function r, hr => Routine.Proper.whole r hr
  | .classDecl _ _ methods, ⟨_, _, hms⟩ => methodsProper.whole methods hms

theorem Routine.Proper.whole : ∀ r : Routine, r.Proper → r.Whole
  | .mk _ _ body, ⟨_, _, hb⟩ => bodyProper.whole body hb

theorem bodyProper.whole : ∀ ss : List Stmt, bodyProper ss → bodyWhole ss
  | [], _ => trivial
  | s :: ss, ⟨hs, hss⟩ => ⟨Stmt.Proper.whole s hs, bodyProper.whole ss hss⟩

theorem methodsProper.whole : ∀ ms : List Routine, methodsProper ms → methodsWhole ms
  | [], _ => trivial
  | m :: ms, ⟨hm, hms⟩ => ⟨Routine.Proper.whole m hm, methodsProper.whole ms hms⟩

end

/-! ### Reading, and running what was read -/

namespace Session

/-- The tree that a text is **read** as. -/
def read (s : Session) (source : String) : Session × List Stmt :=
  let (s, program) := s.parsed parseProgram source
  (s.trace ("parsed " ++ program.length.repr ++ " statements"), program)

/-- Analyses a tree and, if there is nothing to find, **runs** it within the given allowance. -/
def runTreeFor (n : Nat) (s : Session) (program : List Stmt) : Session × Option Interrupt :=
  match s.resolve (resolveProgram program) with
  | (s, some f) => (s, some (.fault f))
  | (s, none) =>
    if s.report.hadError then (s.trace "resolution failed, not executing", none)
    else
      match s.runStep (execAll n maxCallDepth program) with
      | (s, .ok _) => (s, none)
      | (s, .error i) => (s, some i)

/-- Analyses a tree and runs it. -/
def runTree (s : Session) (program : List Stmt) : Session × Option Interrupt :=
  s.runTreeFor maxSteps program

/-- The run of a tree comes to its end, within some allowance of steps. -/
def TreeEnds (s : Session) (program : List Stmt) (s' : Session) : Prop :=
  ∃ n, s.runTreeFor n program = (s', none)

theorem treeEnds_runTreeFor {s : Session} {program : List Stmt} {n : Nat}
    (h : (s.runTreeFor n program).2 = none) : s.TreeEnds program (s.runTreeFor n program).1 :=
  ⟨n, Prod.ext rfl h⟩

/-- The analysis of a tree comes to its end, and there is **nothing to find**. -/
def Accepts (s : Session) (program : List Stmt) : Prop :=
  (s.resolve (resolveProgram program)).2 = none ∧
    (s.resolve (resolveProgram program)).1.report.hadError = false

/-- The two halves put together. -/
theorem runFor_eq_runTreeFor {s : Session} {source : String}
    (h : (s.read source).1.report.hadError = false) (n : Nat) :
    s.runFor n source = (s.read source).1.runTreeFor n (s.read source).2 := by
  unfold read at h ⊢
  unfold runFor runTreeFor parsedProgram
  generalize s.parsed parseProgram source = parsed at h ⊢
  obtain ⟨s₁, program⟩ := parsed
  dsimp only at h ⊢
  simp only [h, Bool.false_eq_true, if_false]
  generalize (s₁.trace _).resolve (resolveProgram program) = resolved
  obtain ⟨s₂, fault⟩ := resolved
  cases fault with
  | some f => rfl
  | none =>
    dsimp only
    cases s₂.report.hadError <;> rfl

/-- A tree that may stand in the place of one that session `s` has **read**, which is session `s₁`
then: the numbers of its references are the ones that were given out. -/
structure Reading (s s₁ : Session) (program : List Stmt) : Prop where
  advances : Advances s s₁ []
  machine : s₁.machine = s.machine
  clear : s₁.report.hadError = false
  proper : bodyProper program
  numbered : Numbered s.nextId s₁.nextId (referencesOfBody program)

namespace Reading

variable {s s₁ : Session} {program program' : List Stmt}

/-- Another tree with the same numbers. -/
theorem congr (h : Reading s s₁ program) (hproper : bodyProper program')
    (hnumbers : numbersOfBody program' = numbersOfBody program) : Reading s s₁ program' := by
  unfold numbersOfBody at hnumbers
  refine { h with proper := hproper, numbered := ⟨fun ref href => ?_, ?_⟩ }
  · have hid : ref.id ∈ (referencesOfBody program).map (·.id) := by
      rw [← hnumbers]
      exact List.mem_map_of_mem href
    obtain ⟨ref', href', heq⟩ := List.mem_map.1 hid
    rw [← heq]
    exact h.numbered.bounds ref' href'
  · rw [hnumbers]
    exact h.numbered.nodup

/-- A tree is accepted if it breaks no rule. -/
theorem accepts_iff (h : Reading s s₁ program) : s₁.Accepts program ↔ Lawful program := by
  obtain ⟨hfault, hlawful⟩ := resolve_lawful h.clear (bodyProper.whole program h.proper)
  rw [← hlawful]
  exact and_iff_right hfault

/-- What the analysis makes of a tree that breaks no rule. -/
theorem resolve (h : Reading s s₁ program) (hs : s.Fresh) (hlawful : Lawful program) :
    ∃ s₂, s₁.resolve (resolveProgram program) = (s₂, none) ∧ Advances s s₂ [] ∧
      s₂.report = s₁.report ∧ s₂.traced = s₁.traced ∧
      bodyScoped (s₂.ledger Anything) false [] program := by
  have hsettles : ∀ {L : Ledger}, L.Allows (declarationsOfBody 0 program) → _ :=
    resolveProgram_scoped (D := s₁.machine.distances) h.proper h.numbered.nodup
      (fun ref href => by rw [h.machine]; exact hs ref.id (h.numbered.bounds ref href).1)
  have hany := hsettles (L := s.ledger Anything) fun _ _ => trivial
  have hfindings : (resolveProgram program s₁.machine.distances).findings = [] := by
    rw [(resolveProgram_findings (bodyProper.whole program h.proper) _).2]
    exact findingsAt_eq_nil_iff.2 hlawful
  have hadv := h.advances.resolve h.numbered hany
  rw [hfindings] at hadv
  refine ⟨_, Prod.ext rfl hany.fault, hadv, ?_, rfl, ?_⟩
  · change s₁.report.addAll (resolveProgram program s₁.machine.distances).findings = _
    rw [hfindings]
    rfl
  · exact (hsettles fun _ _ => trivial).result hfindings (ledger_covers h.numbered _)

/-- **A tree does what it does over names and cells.** -/
theorem runTreeFor (h : Reading s s₁ program) {μ : Lexical.State} (hμ : Agrees Anything s μ)
    (hlawful : Lawful program) (n : Nat) :
    ((s₁.runTreeFor n program).2 = none ↔
      ¬ Lexical.UsedUp (Lexical.execAll n maxCallDepth .top program μ)) ∧
    ((s₁.runTreeFor n program).2 = none ∨ (s₁.runTreeFor n program).2 = some .outOfFuel) ∧
    Shows s₁ (Lexical.execAll n maxCallDepth .top program μ) (s₁.runTreeFor n program).1 := by
  obtain ⟨s₂, hresolve, hadv, hreport, htraced, hscoped⟩ := h.resolve hμ.fresh hlawful
  have hclear : s₂.report.hadError = false := by
    rw [hreport]
    exact h.clear
  have hends := (hμ.advances hadv).executeFor hscoped n
  unfold Session.runTreeFor
  rw [hresolve]
  simp only [hclear, Bool.false_eq_true, if_false]
  generalize s₂.runStep (execAll n maxCallDepth program) = r at hends ⊢
  generalize Lexical.execAll n maxCallDepth .top program μ = r' at hends ⊢
  cases hends with
  | value hagrees _ =>
    refine ⟨by simp [Lexical.UsedUp], .inl rfl, hagrees, hreport, htraced, ?_⟩
    simp [finalInterrupt]
  | @error e _ _ hagrees =>
    refine ⟨by simp [Lexical.UsedUp], .inl rfl, hagrees, ?_, htraced, ?_⟩
    · exact congrArg (Report.runtimeError · e) hreport
    · simp [finalInterrupt, Interrupt.IsHarmless]
  | outOfFuel hagrees =>
    refine ⟨by simp [Lexical.UsedUp], .inr rfl, hagrees, hreport, htraced, ?_⟩
    simp [finalInterrupt, Interrupt.IsHarmless]

/-- A tree comes to its end as it does over names and cells. -/
theorem treeEnds (h : Reading s s₁ program) {μ : Lexical.State} (hμ : Agrees Anything s μ)
    (hlawful : Lawful program) {t : Session} (ht : s₁.TreeEnds program t) :
    ∃ r, Lexical.Ends maxCallDepth program μ r ∧ Shows s₁ r t := by
  obtain ⟨n, hn⟩ := ht
  obtain ⟨hiff, -, hshows⟩ := h.runTreeFor hμ hlawful n
  rw [hn] at hiff hshows
  exact ⟨_, ⟨hiff.1 rfl, n, rfl⟩, hshows⟩

theorem treeEnds_of_lexical (h : Reading s s₁ program) {μ : Lexical.State}
    (hμ : Agrees Anything s μ) (hlawful : Lawful program)
    {r : EStateM.Result Interrupt Lexical.State Lexical.Names}
    (hr : Lexical.Ends maxCallDepth program μ r) : ∃ t, s₁.TreeEnds program t := by
  obtain ⟨hr, n, rfl⟩ := hr
  exact ⟨_, treeEnds_runTreeFor ((h.runTreeFor hμ hlawful n).1.2 hr)⟩

end Reading

/-- A text that is accepted is read as its tree. -/
theorem read_of_accepted {s : Session} {source : String} {program : List Stmt}
    (h : s.acceptedProgram? source = some program) :
    (s.read source).2 = program ∧ Reading s (s.read source).1 program ∧ Lawful program := by
  obtain ⟨htree, hid, hmachine, hadv⟩ := parsed_advances s source
    (fun tokens endMark id => (parseProgram_sound tokens endMark id).1)
  have hsound := (parseProgram_sound (scan source.toList).tokens (scan source.toList).endMark
    s.nextId).2
  unfold acceptedProgram? parsedProgram at h
  unfold read
  generalize s.parsed parseProgram source = parsed at htree hid hmachine hadv h ⊢
  obtain ⟨s₁, tree⟩ := parsed
  dsimp only at htree hid hmachine hadv h ⊢
  have hadv := hadv.trace ("parsed " ++ tree.length.repr ++ " statements")
  rw [← trace_machine s₁ ("parsed " ++ tree.length.repr ++ " statements")] at hmachine
  rw [← trace_nextId s₁ ("parsed " ++ tree.length.repr ++ " statements")] at hid
  generalize s₁.trace ("parsed " ++ tree.length.repr ++ " statements") = s₂
    at hid hmachine hadv h ⊢
  by_cases herror : s₂.report.hadError = true
  · simp [herror] at h
  have hclear : s₂.report.hadError = false := by simpa using herror
  have hnil := hadv.findings_eq_nil hclear
  obtain ⟨hderived, hnumbers⟩ := hsound (List.append_eq_nil_iff.1 hnil).2
  rw [← htree, ← hid] at hnumbers
  rw [← htree] at hderived
  rw [hnil] at hadv
  have hreading : Reading s s₂ tree :=
    ⟨hadv, hmachine, hclear, hderived.proper (scan_spelled _), hnumbers⟩
  obtain ⟨hfault, hlawful⟩ := resolve_lawful hclear (bodyProper.whole tree hreading.proper)
  have hres : s₂.resolve (resolveProgram tree) = ((s₂.resolve (resolveProgram tree)).1, none) :=
    Prod.ext rfl hfault
  simp only [hclear, Bool.false_eq_true, if_false] at h
  rw [hres] at h
  dsimp only at h
  split at h
  · rename_i hprogram
    split at hprogram
    · obtain rfl := Except.ok.inj hprogram
      cases h
    · rename_i haccepted
      obtain rfl := Except.ok.inj hprogram
      obtain rfl := Option.some.inj h
      exact ⟨rfl, hreading, hlawful.1 (by simpa using haccepted)⟩
  · cases h

end Session

/-- Phases that find nothing have found no report of an earlier finding. -/
theorem Session.Advances.clear {s s₁ : Session} (h : Advances s s₁ [])
    (hclear : s₁.report.hadError = false) : s.report.hadError = false := by
  have hgains := h.gains.hadError
  rw [hclear] at hgains
  simpa using hgains.symm

/-- A text that is accepted is valid. -/
theorem Session.valid_of_accepted {s : Session} {source : String} {program : List Stmt}
    (h : s.acceptedProgram? source = some program) : Valid source program := by
  rw [acceptedProgram?] at h
  rcases s.parsedProgram_valid source with ⟨-, hnone, -⟩ | ⟨program', hsome, hvalid⟩
  · rw [hnone] at h
    cases h
  · rw [hsome] at h
    obtain rfl : program' = program := Option.some.inj h
    exact hvalid

/-- A text that is valid is accepted, if there is no earlier finding in the report. -/
theorem Session.accepted_of_valid {s : Session} {source : String} {program : List Stmt}
    (hclear : s.report.hadError = false) (h : Valid source program) :
    ∃ tree, s.acceptedProgram? source = some tree ∧
      unnumberedBody tree = unnumberedBody program := by
  rcases s.parsedProgram_valid source with ⟨-, -, hinvalid⟩ | ⟨tree, hsome, hvalid⟩
  · exact absurd h (hinvalid hclear program)
  · refine ⟨tree, ?_, hvalid.derived.unique h.derived⟩
    rw [acceptedProgram?, hsome]

/-! ### States beside themselves -/

theorem Lexical.Names.Match.refl (ρ : Lexical.Names) : Lexical.Names.Match .same ρ ρ :=
  fun _ _ h => h ▸ ⟨rfl, fun _ => rfl⟩

section

variable {braces : Prop} {L : Ledger} {W : Placement} {m : Machine} {μ : Lexical.State}

theorem ClosureMirrors.variant {c : Closure} {c' : Lexical.Closure}
    (h : ClosureMirrors L W m.heap c c') : c'.Variant braces c' := by
  obtain ⟨Γ, -, hscoped, -⟩ := h.body
  rw [← h.routine] at hscoped
  exact ⟨.same, .refl c'.names, Routine.Scoped.variant c'.routine hscoped, rfl, fun _ => rfl⟩

theorem MethodMirrors.variant {c : Closure} {c' : Lexical.Closure}
    (h : MethodMirrors L W m.heap c c') : c'.MethodVariant braces c' := by
  obtain ⟨Γ, -, hscoped⟩ := h.body
  rw [← h.routine] at hscoped
  refine ⟨.same, .refl c'.names, ?_, rfl⟩
  rw [Pairing.bind_same]
  exact Routine.Scoped.variant c'.routine hscoped

/-- The entry of one of two tables of the same size has a counterpart in the other. -/
theorem exists_of_rel {α β : Type} {P : α → β → Prop} {a? : Option α} {b : β}
    (h : Option.Rel P a? (some b)) : ∃ a, a? = some a ∧ P a b := by
  cases h with
  | some h => exact ⟨_, rfl, h⟩

/-- Classes are variants of themselves. -/
theorem Corresponds.class_variant (hc : Corresponds L W m μ) {id : Nat} {k' : Lexical.Class}
    (hk' : μ.classes[id]? = some k') : k'.Variant braces k' := by
  -- A class inherits from earlier ones only.
  induction id using Nat.strongRecOn generalizing k' with
  | ind id ih =>
    obtain ⟨k, hk, -⟩ := exists_of_rel (hk' ▸ hc.cls id)
    obtain ⟨methods', rfl, hmethods⟩ := (hc.classes id k k' hk hk').methods
    refine Lexical.Class.variant_mk _ ?_ fun x => ?_
    · cases hp : k.superclass with
      | none => exact .none
      | some p =>
        rw [Option.bind_some]
        cases hclass : μ.classes[p]? with
        | none => exact .none
        | some c => exact .some (ih p (m.classes.ordered id k p hk hp) hclass)
    · have hx := hmethods x
      generalize k.methods.get? x = c at hx
      generalize methods'.get? x = c' at hx ⊢
      cases hx with
      | none => exact .none
      | some hmirrors => exact .some hmirrors.variant

/-- The functions and classes of a state that corresponds to a machine are variants of
themselves. -/
theorem Corresponds.variant (hc : Corresponds L W m μ) : μ.Variant braces μ where
  cells := rfl
  globals := rfl
  closures := .refl fun id c' hid => by
    obtain ⟨c, -, hmirrors⟩ := exists_of_rel (hid ▸ hc.closure id)
    exact hmirrors.variant
  classes := .refl fun _ _ hk' => hc.class_variant hk'
  natives := rfl
  objects := rfl
  printed := rfl
  time := rfl

theorem Agrees.variant {M : Nat → String → Prop} {s : Session} (h : Agrees M s μ) :
    μ.Variant braces μ := by
  obtain ⟨W, hc⟩ := h.corresponds
  exact hc.variant

end

/-! ### What is shown -/

/-- Sessions that **show the same**: output, messages, exit code and globals. -/
structure Session.LooksLike (t t' : Session) : Prop where
  stdout : t.stdout = t'.stdout
  stderr : t.stderr = t'.stderr
  exitCode : t.exitCode = t'.exitCode
  globals : t.globals = t'.globals

section

variable {braces : Prop} {R : Lexical.Names → Lexical.Names → Prop} {s t t' : Session}
  {r r' : EStateM.Result Interrupt Lexical.State Lexical.Names}

theorem Shows.congr {s' : Session} (h : Shows s r t) (hreport : s'.report = s.report)
    (htraced : s'.traced = s.traced) : Shows s' r t :=
  { h with report := by rw [hreport, h.report], traced := by rw [htraced, h.traced] }

/-- Interrupts that are the same, but for what a variable is called, are reported the same. -/
theorem Report.ending_variant (report : Report) {i i' : Interrupt} (h : i.Variant i')
    (hi : i.IsHarmless false) : report.ending (some i') = report.ending (some i) := by
  cases h with
  | same => rfl
  | error cause hline =>
    simp only [Interrupt.at, Report.ending, Report.runtimeError, RuntimeError.line?,
      RuntimeError.message, Option.map_some, hline]
  | unbound => exact hi.elim

/-- **Results that are alike show the same.** -/
theorem Shows.looksLike (h : Shows s r t) (h' : Shows s r' t')
    (hr : Lexical.EndsVariant braces False False R r r') : t.LooksLike t' := by
  have hstate : (finalState r).Variant braces (finalState r') := by
    cases hr with
    | ok hμ => exact hμ
    | error hμ => exact hμ
    | left hshort => exact hshort.elim
    | right hshort => exact hshort.elim
  have hreport : t'.report = t.report := by
    rw [h.report, h'.report]
    cases hr with
    | ok => rfl
    | error _ hi => exact s.report.ending_variant hi (h.harmless _ rfl)
    | left hshort => exact hshort.elim
    | right hshort => exact hshort.elim
  refine ⟨?_, ?_, ?_, ?_⟩
  · rw [Session.stdout, Session.stdout, h.agrees.printed_eq, h'.agrees.printed_eq, hstate.printed]
  · rw [Session.stderr, Session.stderr, hreport]
  · rw [Session.exitCode, Session.exitCode, hreport]
  · have htext : (finalState r').text = (finalState r).text := funext hstate.text_eq
    rw [h.agrees.globals_eq, h'.agrees.globals_eq, Lexical.State.globalTexts,
      Lexical.State.globalTexts, hstate.globals, htext]

theorem Lexical.Resembles.interrupt_eq (hr : Lexical.Resembles .plain r r') :
    finalInterrupt r' = finalInterrupt r := by
  have hplain : Interrupt.relabel .plain = id := funext fun i => i.relabel_of_line rfl
  rw [hr.interrupt, hplain, Option.map_id_fun, id_eq]

/-- After results that differ in nothing but numbers, output and globals are the same. -/
theorem Shows.output_eq {s' : Session} (h : Shows s r t) (h' : Shows s' r' t')
    (hr : Lexical.Resembles .plain r r') : t.stdout = t'.stdout ∧ t.globals = t'.globals := by
  obtain ⟨hprinted, hglobals, htext⟩ := hr.state
  constructor
  · rw [Session.stdout, Session.stdout, h.agrees.printed_eq, h'.agrees.printed_eq, hprinted]
  · rw [h.agrees.globals_eq, h'.agrees.globals_eq, Lexical.State.globalTexts,
      Lexical.State.globalTexts, hglobals, funext htext]

/-- Results that differ in nothing but numbers show the same. -/
theorem Shows.looksLike_of_resembles (h : Shows s r t) (h' : Shows s r' t')
    (hr : Lexical.Resembles .plain r r') : t.LooksLike t' := by
  obtain ⟨hstdout, hglobals⟩ := h.output_eq h' hr
  have hreport : t'.report = t.report := by rw [h.report, h'.report, hr.interrupt_eq]
  refine ⟨hstdout, ?_, ?_, hglobals⟩
  · rw [Session.stderr, Session.stderr, hreport]
  · rw [Session.exitCode, Session.exitCode, hreport]

end

/-- Two ways to go on from a session, neither of which can be told from the other: the one **comes
to an end if the other does**, and then the two sessions show the same. -/
structure RunsAlike (ends ends' : Session → Prop) : Prop where
  ends_iff : (∃ t, ends t) ↔ ∃ t, ends' t
  looksLike : ∀ t t', ends t → ends' t' → t.LooksLike t'

theorem Session.LooksLike.trans {t t' t'' : Session} (h : t.LooksLike t') (h' : t'.LooksLike t'') :
    t.LooksLike t'' :=
  ⟨h.stdout.trans h'.stdout, h.stderr.trans h'.stderr, h.exitCode.trans h'.exitCode,
    h.globals.trans h'.globals⟩

theorem RunsAlike.trans {ends ends' ends'' : Session → Prop} (h : RunsAlike ends ends')
    (h' : RunsAlike ends' ends'') : RunsAlike ends ends'' := by
  refine ⟨h.ends_iff.trans h'.ends_iff, fun t t'' ht ht'' => ?_⟩
  obtain ⟨t', ht'⟩ := h.ends_iff.1 ⟨t, ht⟩
  exact (h.looksLike t t' ht ht').trans (h'.looksLike t' t'' ht' ht'')

namespace Session

variable {s s₁ : Session} {μ : Lexical.State} {program program' : List Stmt}

/-- A text that is accepted runs as the tree that it is read as. -/
theorem ends_eq_treeEnds {source : String} (h : s.acceptedProgram? source = some program) :
    s.Ends source = (s.read source).1.TreeEnds program := by
  obtain ⟨rfl, hreading, -⟩ := read_of_accepted h
  funext t
  simp only [Ends, TreeEnds, runFor_eq_runTreeFor hreading.clear]

/-- Two runs that come to an end or are cut short, the one **if the other does**. -/
theorem endings_eq {i? i'? : Option Interrupt} (h : i? = none ∨ i? = some .outOfFuel)
    (h' : i'? = none ∨ i'? = some .outOfFuel) (hiff : i? = none ↔ i'? = none) : i'? = i? := by
  rcases h with rfl | rfl
  · exact hiff.1 rfl
  · exact h'.resolve_left fun hend => absurd (hiff.2 hend) (Option.some_ne_none _)

namespace Reading

/-- Two trees run alike if they do so over names and cells, with results that show the same. -/
theorem runsAlike_of_ends {s₁' : Session} (h : Reading s s₁ program) (h' : Reading s s₁' program')
    (hμ : Agrees Anything s μ) (hlawful : Lawful program) (hlawful' : Lawful program')
    {T : EStateM.Result Interrupt Lexical.State Lexical.Names →
      EStateM.Result Interrupt Lexical.State Lexical.Names → Prop}
    (hends : (∀ r, Lexical.Ends maxCallDepth program μ r →
        ∃ r', Lexical.Ends maxCallDepth program' μ r' ∧ T r r') ∧
      (∀ r', Lexical.Ends maxCallDepth program' μ r' →
        ∃ r, Lexical.Ends maxCallDepth program μ r ∧ T r r'))
    (hT : ∀ {r r' t t'}, T r r' → Shows s₁ r t → Shows s₁' r' t' → t.LooksLike t') :
    RunsAlike (s₁.TreeEnds program) (s₁'.TreeEnds program') := by
  obtain ⟨hforward, hback⟩ := hends
  refine ⟨⟨?_, ?_⟩, fun t t' ht ht' => ?_⟩
  · rintro ⟨t, ht⟩
    obtain ⟨r, hr, -⟩ := h.treeEnds hμ hlawful ht
    obtain ⟨r', hr', -⟩ := hforward r hr
    exact h'.treeEnds_of_lexical hμ hlawful' hr'
  · rintro ⟨t', ht'⟩
    obtain ⟨r', hr', -⟩ := h'.treeEnds hμ hlawful' ht'
    obtain ⟨r, hr, -⟩ := hback r' hr'
    exact h.treeEnds_of_lexical hμ hlawful hr
  · obtain ⟨r, hr, hshows⟩ := h.treeEnds hμ hlawful ht
    obtain ⟨r', hr', hshows'⟩ := h'.treeEnds hμ hlawful' ht'
    obtain ⟨r'', hr'', hrelated⟩ := hforward r hr
    obtain rfl := hr'.unique hr''
    exact hT hrelated hshows hshows'

section

variable (h : Reading s s₁ program) (h' : Reading s s₁ program') (hμ : Agrees Anything s μ)
  (hlawful : Lawful program) (hlawful' : Lawful program')

include h h' hμ hlawful hlawful'

/-- **Variants run alike in a session.** -/
theorem runsAlike {braces : Prop} (hvariant : BodyVariant braces false .same program program') :
    RunsAlike (s₁.TreeEnds program) (s₁.TreeEnds program') :=
  h.runsAlike_of_ends h' hμ hlawful hlawful' (Lexical.ends_variant hvariant hμ.variant)
    fun hr hshows hshows' => hshows.looksLike hshows' hr

/-- Without braces, variants take the same steps, and **are cut short together**. -/
theorem runTreeFor_variant (hvariant : BodyVariant False false .same program program') (n : Nat) :
    (s₁.runTreeFor n program').2 = (s₁.runTreeFor n program).2 ∧
      (s₁.runTreeFor n program).1.LooksLike (s₁.runTreeFor n program').1 := by
  have halike := Lexical.execAll_variant not_false hvariant hμ.variant n maxCallDepth
  obtain ⟨hiff, hcases, hshows⟩ := h.runTreeFor hμ hlawful n
  obtain ⟨hiff', hcases', hshows'⟩ := h'.runTreeFor hμ hlawful' n
  rw [halike.usedUp_iff, ← hiff'] at hiff
  exact ⟨endings_eq hcases hcases' hiff, hshows.looksLike hshows' halike⟩

end

end Reading

end Session

/-! ### Texts for a tree -/

/-- A text without findings that **spells** a tree, whatever the numbers of its references. -/
structure Spells (source : String) (program : List Stmt) : Prop where
  scanned : (scan source.toList).findings = []
  derived : ∃ tree, Grammar.Program (scan source.toList).tokens tree ∧
    unnumberedBody tree = unnumberedBody program

/-- A text that spells a tree without findings is accepted. -/
theorem Spells.accepted {s s₁ : Session} {source : String} {program : List Stmt}
    (h : Spells source program) (hreading : Session.Reading s s₁ program)
    (hlawful : Lawful program) :
    ∃ tree, s.acceptedProgram? source = some tree ∧
      unnumberedBody tree = unnumberedBody program := by
  obtain ⟨tree, hderived, heq⟩ := h.derived
  have hvalid : Valid source tree := by
    refine ⟨h.scanned, hderived, ?_⟩
    rw [unnumberedBody_eq_relabelBody, unnumberedBody_eq_relabelBody] at heq
    rw [← lawful_relabel .unnumbering, heq, lawful_relabel]
    exact hlawful
  obtain ⟨tree', haccepted, htree⟩ :=
    Session.accepted_of_valid (hreading.advances.clear hreading.clear) hvalid
  exact ⟨tree', haccepted, htree.trans heq⟩

/-- **A text that spells a tree runs as the tree does**, unless the phases leave a trace. -/
theorem Spells.runsAlike {s s₁ : Session} {μ : Lexical.State} {source : String}
    {program : List Stmt} (h : Spells source program) (hreading : Session.Reading s s₁ program)
    (hlawful : Lawful program) (hμ : Agrees Anything s μ) (htraced : s.traced = false) :
    RunsAlike (s₁.TreeEnds program) (s.Ends source) := by
  obtain ⟨tree, haccepted, heq⟩ := h.accepted hreading hlawful
  obtain ⟨-, hreading', hlawful'⟩ := Session.read_of_accepted haccepted
  rw [Session.ends_eq_treeEnds haccepted]
  -- Neither of the two readings leaves anything in the report.
  have hreport : s₁.report = (s.read source).1.report := by
    rw [hreading.advances.quiet htraced rfl, hreading'.advances.quiet htraced rfl]
  have htrace : s₁.traced = (s.read source).1.traced := by
    rw [hreading.advances.traced, hreading'.advances.traced]
  have hends := Lexical.ends_of_resembles fun n =>
    Lexical.execAll_renumbered heq.symm n maxCallDepth μ
  exact hreading.runsAlike_of_ends hreading' hμ hlawful hlawful' hends fun hr hshows hshows' =>
    hshows.looksLike_of_resembles (hshows'.congr hreport htrace) hr

end Lox
