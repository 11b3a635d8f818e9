/-
**What a step of a session does.**

A step parses a tree and gives its references new numbers; the analysis of the tree notes distances
under these numbers; and an accepted tree is run.  Here it is said once and for all what this makes
of the machine: the distances that are noted are those of the sites of the tree, and besides, the
machine is changed only by the run.

Main definitions:

* `Lox.Site.write?`, `Lox.noteAll` — the distance that is noted for a site, and the table after
  several notes;
* `Lox.NotedOnce` — notes under the numbers of references, **under each at most once**;
* `Lox.Session.parsedReferences`, `Lox.Session.writes` — the references of the tree that a step
  parses, and **the distances that a step notes**;
* `Lox.Session.Effect` — **what a step does to the machine**.

Main results:

* `Lox.resolveProgram_writes`, `Lox.resolveExpression_writes` — the analysis of a tree notes the
  distances of its sites, one after the other;
* `Lox.Session.parsedReferences_numbered` — a new tree has new numbers;
* `Lox.Session.writes_notedOnce` — **a step notes every number at most once**;
* `Lox.Session.apply_effect` — what every step does.
-/

import Lox.Proofs.Grammar.Numbering
import Lox.Proofs.Grammar.Whole
import Lox.Proofs.Machine.Timeline
import Lox.Proofs.Scope.Rules
import Lox.Proofs.Session.Receiver

set_option relaxedAutoImplicit false
set_option autoImplicit false

namespace Lox

/-! ### Notes -/

/-- The number and the distance that are noted for a site: if the reference there is looked up, and
a scope around it holds the name. -/
def Site.write? (s : Site) : Option (NodeId × Nat) :=
  s.lookedUp?.bind fun ref => (s.path.distance? ref.name.lexeme).map fun d => (ref.id, d)

/-- The table after several **notes**, one after the other. -/
def noteAll (D : Distances) (writes : List (NodeId × Nat)) : Distances :=
  writes.foldl (fun D w => D.insert w.1 w.2) D

theorem noteAll_append (D : Distances) (writes writes' : List (NodeId × Nat)) :
    noteAll D (writes ++ writes') = noteAll (noteAll D writes) writes' :=
  List.foldl_append

/-- A number that is not noted keeps its distance. -/
theorem getElem?_noteAll {id : NodeId} {writes : List (NodeId × Nat)} (D : Distances)
    (h : ∀ w ∈ writes, w.1 ≠ id) : (noteAll D writes)[id]? = D[id]? := by
  induction writes generalizing D with
  | nil => rfl
  | cons w writes ih =>
    obtain ⟨hw, hwrites⟩ := List.forall_mem_cons.1 h
    refine (ih (D.insert w.1 w.2) hwrites).trans ?_
    simp [Std.TreeMap.getElem?_insert, hw]

/-- The sites of a tree are noted one after the other. -/
theorem foldl_record (sites : List Site) (D : Distances) :
    sites.foldl Site.record D = noteAll D (sites.filterMap Site.write?) := by
  induction sites generalizing D with
  | nil => rfl
  | cons s sites ih =>
    have hrecord : s.record D = noteAll D s.write?.toList := by
      unfold Site.record Site.write?
      cases s.lookedUp? with
      | none => rfl
      | some ref => cases hd : s.path.distance? ref.name.lexeme <;> simp [hd, noteAll]
    rw [List.foldl_cons, ih, hrecord, ← noteAll_append]
    congr 1
    rw [List.filterMap_cons]
    cases s.write? <;> rfl

/-- What is noted for sites is noted under the numbers of their references. -/
theorem writes_sublist (sites : List Site) :
    ((sites.filterMap Site.write?).map Prod.fst).Sublist ((referencesAt sites).map (·.id)) := by
  induction sites with
  | nil => exact .slnil
  | cons s sites ih =>
    rw [referencesAt_cons, List.map_append, List.filterMap_cons]
    unfold Site.write?
    cases href : s.lookedUp? with
    | none => exact ih.trans (List.sublist_append_right ..)
    | some ref =>
      rw [show s.reference? = some ref from (Site.lookedUp?_eq_some_iff.1 href).1]
      cases hd : s.path.distance? ref.name.lexeme with
      | none =>
        simp only [Option.bind_some, hd, Option.map_none]
        exact ih.trans (List.sublist_append_right ..)
      | some d =>
        simp only [Option.bind_some, hd, Option.map_some]
        exact ih.cons_cons _

/-- Notes under the numbers of references, **under each at most once**. -/
structure NotedOnce (refs : List Reference) (writes : List (NodeId × Nat)) : Prop where
  nodup : (writes.map Prod.fst).Nodup
  owned : ∀ w ∈ writes, ∃ ref ∈ refs, ref.id = w.1

namespace NotedOnce

variable {lo mid hi : Nat} {refs refs' : List Reference} {writes writes' : List (NodeId × Nat)}

theorem nil (refs : List Reference) : NotedOnce refs [] := ⟨.nil, nofun⟩

/-- The sites of a tree. -/
theorem of_sites {sites : List Site} (hsites : (referencesAt sites).Perm refs)
    (hrefs : Numbered lo hi refs) : NotedOnce refs (sites.filterMap Site.write?) := by
  have hsub := writes_sublist sites
  refine ⟨hsub.nodup ((hsites.map _).nodup_iff.2 hrefs.nodup), fun w hw => ?_⟩
  obtain ⟨ref, href, hid⟩ := List.mem_map.1 (hsub.subset (List.mem_map_of_mem hw))
  exact ⟨ref, hsites.mem_iff.1 href, hid⟩

/-- Notes for later references are under other numbers. -/
theorem append (h : NotedOnce refs writes) (h' : NotedOnce refs' writes')
    (hrefs : Numbered lo mid refs) (hrefs' : Numbered mid hi refs') :
    NotedOnce (refs ++ refs') (writes ++ writes') := by
  refine ⟨?_, fun w hw => ?_⟩
  · rw [List.map_append]
    refine List.nodup_append.2 ⟨h.nodup, h'.nodup, ?_⟩
    intro id hid id' hid'
    obtain ⟨w, hw, rfl⟩ := List.mem_map.1 hid
    obtain ⟨w', hw', rfl⟩ := List.mem_map.1 hid'
    obtain ⟨ref, href, hw⟩ := h.owned w hw
    obtain ⟨ref', href', hw'⟩ := h'.owned w' hw'
    rw [← hw, ← hw']
    exact Nat.ne_of_lt (Nat.lt_of_lt_of_le (hrefs.bounds ref href).2 (hrefs'.bounds ref' href').1)
  · rcases List.mem_append.1 hw with hw | hw
    · obtain ⟨ref, href, hid⟩ := h.owned w hw
      exact ⟨ref, List.mem_append_left _ href, hid⟩
    · obtain ⟨ref, href, hid⟩ := h'.owned w hw
      exact ⟨ref, List.mem_append_right _ href, hid⟩

end NotedOnce

/-! ### Whole trees -/

/-- What the analysis of a program notes. -/
def writesOfBody (program : List Stmt) : List (NodeId × Nat) :=
  (bodySites [] program).filterMap Site.write?

/-- What the analysis of a single expression notes. -/
def Expr.writes (e : Expr) : List (NodeId × Nat) := (e.sites [] none).filterMap Site.write?

/-- A step that goes over the sites of a tree, and comes to its end, notes them. -/
theorem Walks.distances {step : Resolve Unit} {sites : List Site} {whole : Prop}
    (h : Walks {} step [] none [] none sites whole) {D : Distances}
    (hfault : (runResolve step D).fault = none) :
    (runResolve step D).distances = noteAll D (sites.filterMap Site.write?) := by
  have hstep := h (.start D) .top rfl
  unfold runResolve at hfault ⊢
  generalize step (.start D) = res at hstep hfault
  cases hstep with
  | stopped hole => cases hfault
  | done _ hf => exact hf.distances.trans (foldl_record ..)

/-- **The analysis of a program notes the distances of its sites**, one after the other. -/
theorem resolveProgram_writes {program : List Stmt} (h : bodyWhole program) (D : Distances) :
    (resolveProgram program D).distances = noteAll D (writesOfBody program) := by
  have hwalks := resolveBody_walks program []
  rw [Path.declareAll_top] at hwalks
  exact hwalks.distances (resolveProgram_findings h D).1

theorem resolveExpression_writes {e : Expr} {D : Distances}
    (hfault : (resolveExpression e D).fault = none) :
    (resolveExpression e D).distances = noteAll D e.writes :=
  (resolveExpr_walks [] none e).distances hfault

/-! ### Steps of a session -/

namespace Session

/-- The references of the tree that a step **parses**, be the text in the grammar or not. -/
def parsedReferences (s : Session) : Step → List Reference
  | .perform .run source => referencesOfBody (s.parsed parseProgram source).2
  | .perform .evaluate source => (s.parsed parseExpression source).2.elim [] Expr.references
  | .perform .parse source => (s.parsed parseExpression source).2.elim [] Expr.references
  | _ => []

/-- The distances that a step **notes**, in the order in which the analysis comes to their sites.  A
tree is analysed if there is no finding in the report when it has been parsed. -/
def writes (s : Session) : Step → List (NodeId × Nat)
  | .perform .run source =>
    if (s.parsed parseProgram source).1.report.hadError then []
    else writesOfBody (s.parsed parseProgram source).2
  | .perform .evaluate source =>
    if (s.parsed parseExpression source).1.report.hadError then []
    else (s.parsed parseExpression source).2.elim [] Expr.writes
  | _ => []

variable (s : Session) (source : String)

/-- What a parser makes of a session. -/
theorem parsed_eq {α : Type} (parser : List Token → Token → NodeId → Parsed α) :
    let scan := scan source.toList
    let parsed := parser scan.tokens scan.endMark s.nextId
    (s.parsed parser source).2 = parsed.tree ∧
      (s.parsed parser source).1.nextId = parsed.nextId ∧
      (s.parsed parser source).1.machine = s.machine := by
  have hid : (s.scanned source).1.nextId = s.nextId := trace_nextId ..
  refine ⟨?_, ?_, trace_machine ..⟩ <;> (rw [← hid]; rfl)

/-- The analysis of a program notes the distances of its sites; otherwise the machine stays as it
is. -/
theorem parsedProgram_eq :
    (s.parsedProgram source).1.nextId = (s.parsed parseProgram source).1.nextId ∧
      (s.parsedProgram source).1.machine = { s.machine with
        distances := noteAll s.machine.distances (s.writes (.perform .run source)) } := by
  obtain ⟨htree, -, hmachine⟩ := s.parsed_eq source parseProgram
  have hwhole : bodyWhole (s.parsed parseProgram source).2 := htree ▸ parseProgram_whole ..
  rw [writes]
  unfold parsedProgram
  generalize s.parsed parseProgram source = parsed at hmachine hwhole ⊢
  obtain ⟨s₁, program⟩ := parsed
  dsimp only at hmachine hwhole ⊢
  -- The trace of the phase is of no consequence.
  have hid := s₁.trace_nextId ("parsed " ++ program.length.repr ++ " statements")
  have herror := s₁.trace_hadError ("parsed " ++ program.length.repr ++ " statements")
  have hmachine := (s₁.trace_machine
    ("parsed " ++ program.length.repr ++ " statements")).trans hmachine
  rw [← herror, ← hid]
  generalize s₁.trace ("parsed " ++ program.length.repr ++ " statements") = s₂ at hmachine ⊢
  cases hfound : s₂.report.hadError with
  | true => exact ⟨rfl, hmachine⟩
  | false =>
    have hresolved : (s₂.resolve (resolveProgram program)).1.machine = { s.machine with
        distances := noteAll s.machine.distances (writesOfBody program) } := by
      rw [← resolveProgram_writes hwhole, ← hmachine]
      rfl
    have hnextId : (s₂.resolve (resolveProgram program)).1.nextId = s₂.nextId := rfl
    rw [if_neg Bool.false_ne_true, if_neg Bool.false_ne_true]
    generalize s₂.resolve (resolveProgram program) = resolved at hresolved hnextId ⊢
    obtain ⟨s₃, fault⟩ := resolved
    dsimp only at hresolved hnextId ⊢
    cases fault with
    | some f => exact ⟨hnextId, hresolved⟩
    | none =>
      dsimp only
      split
      · exact ⟨(s₃.trace_nextId _).trans hnextId, (s₃.trace_machine _).trans hresolved⟩
      · exact ⟨hnextId, hresolved⟩

/-- **A new tree has new numbers**, one for each of its references. -/
theorem parsedReferences_numbered (step : Step) :
    s.nextId ≤ (s.apply step).1.nextId ∧
      Numbered s.nextId (s.apply step).1.nextId (s.parsedReferences step) := by
  have hexpression : ∀ source, s.nextId ≤ (s.parsed parseExpression source).1.nextId ∧
      Numbered s.nextId (s.parsed parseExpression source).1.nextId
        ((s.parsed parseExpression source).2.elim [] Expr.references) := by
    intro source
    obtain ⟨htree, hid, -⟩ := s.parsed_eq source parseExpression
    rw [htree, hid]
    exact parseExpression_numbered ..
  refine ⟨(s.roots_numbered step).1, ?_⟩
  cases step with
  | perform mode source =>
    cases mode with
    | tokenize => exact .nil ..
    | parse =>
      rw [show (s.apply (.perform .parse source)).1.nextId = _ from s.parse_nextId source]
      exact (hexpression source).2
    | evaluate =>
      rw [show (s.apply (.perform .evaluate source)).1.nextId = _ from s.evaluate_nextId source]
      exact (hexpression source).2
    | run =>
      rw [show (s.apply (.perform .run source)).1.nextId = _ from s.run_nextId source,
        (s.parsedProgram_eq source).1, parsedReferences]
      obtain ⟨htree, hid, -⟩ := s.parsed_eq source parseProgram
      rw [htree, hid]
      exact (parseProgram_numbered ..).2
  | reset => exact .nil ..
  | register name f => exact .nil ..

/-- **A step notes every number at most once**, and only numbers of the tree that it parses. -/
theorem writes_notedOnce (step : Step) : NotedOnce (s.parsedReferences step) (s.writes step) := by
  have hnumbered := (s.parsedReferences_numbered step).2
  cases step with
  | perform mode source =>
    cases mode with
    | tokenize => exact .nil _
    | parse => exact .nil _
    | evaluate =>
      rw [writes]
      split
      · exact .nil _
      · rw [parsedReferences] at hnumbered ⊢
        cases he : (s.parsed parseExpression source).2 with
        | none => exact .nil _
        | some e =>
          rw [he] at hnumbered
          exact .of_sites (e.referencesAt_sites [] none) hnumbered
    | run =>
      rw [writes]
      split
      · exact .nil _
      · exact .of_sites (referencesAt_bodySites _ []) hnumbered
  | reset => exact .nil _
  | register name f => exact .nil _

/-! ### What a step does to the machine -/

/-- What a step **does to the machine**.  It notes distances, and may print; it runs an accepted
tree, with the new distances; or it makes a native function known.  What is run is given with the
machine that it starts on. -/
inductive Effect (s : Session) : Step → List (Activity × Machine) → Machine → Prop
  | quiet (step : Step) (printed : Array String) :
      Effect s step [] { s.machine with
        distances := noteAll s.machine.distances (s.writes step), printed := printed }
  | ran {step : Step} {a : Activity} {m : Machine}
      (start : m = { s.machine with distances := noteAll s.machine.distances (s.writes step) })
      (supplied : a.Supplied m) (printed : Array String) :
      Effect s step [(a, m)] { a.leaves m with printed := printed }
  | registered (name : String) (f : Native) :
      Effect s (.register name f) [] (s.machine.register name f)

theorem runStep_machine {α : Type} (step : Run α) :
    (s.runStep step).1.machine = Run.after step s.machine := by
  unfold runStep Run.after
  cases step s.machine with
  | ok a m => rfl
  | error i m => cases i <;> rfl

theorem run_effect :
    s.Effect (.perform .run source) (s.roots (.perform .run source)) (s.run source).1.machine := by
  obtain ⟨-, hmachine⟩ := s.parsedProgram_eq source
  rw [roots, acceptedProgram?, run]
  generalize s.parsedProgram source = parsed at hmachine ⊢
  obtain ⟨s₁, result⟩ := parsed
  dsimp only at hmachine ⊢
  have hquiet : s.Effect (.perform .run source) [] s₁.machine := hmachine ▸ .quiet _ _
  rcases result with i | program?
  · exact hquiet
  · cases program? with
    | none => exact hquiet
    | some program =>
      have hrun := s₁.runStep_machine (Machine.execute program)
      have hsupplied :
          (Activity.statements maxSteps maxCallDepth program).Supplied s₁.machine := trivial
      have hran : s.Effect (.perform .run source)
          [(.statements maxSteps maxCallDepth program, s₁.machine)]
          (Run.after (Machine.execute program) s₁.machine) := .ran hmachine hsupplied _
      rw [← hrun] at hran
      dsimp only
      generalize s₁.runStep (Machine.execute program) = ran at hran ⊢
      obtain ⟨s₂, i | _⟩ := ran <;> exact hran

/-- An expression is evaluated, and then turned into text. -/
theorem after_evaluate (e : Expr) (m : Machine) :
    Run.after (Machine.evaluate e) m = Run.after (eval maxSteps maxExpressionCallDepth e) m := by
  unfold Run.after Machine.evaluate
  cases heval : eval maxSteps maxExpressionCallDepth e m with
  | ok v m' =>
    rw [bind_ok heval]
    rfl
  | error i m' =>
    rw [bind_error heval]

theorem evaluate_effect (hs : s.Fresh) :
    s.Effect (.perform .evaluate source) (s.roots (.perform .evaluate source))
      (s.evaluate source).1.machine := by
  obtain ⟨ds, ha, hmachine, hcases⟩ := parsedExpression_cases s source
  -- A tree that is not given on is not analysed.
  have hwrites : s.writes (.perform .evaluate source) =
      (s.parsedExpression source).2.elim [] Expr.writes := by
    rw [writes, parsedExpression]
    dsimp only
    split <;> rfl
  have hquiet : ∀ printed, s.Effect (.perform .evaluate source) [] { s.machine with
      distances := noteAll s.machine.distances
        ((s.parsedExpression source).2.elim [] Expr.writes), printed := printed } :=
    fun printed => hwrites ▸ .quiet _ printed
  have hran : ∀ {a : Activity} {m : Machine} (printed : Array String), m = { s.machine with
      distances := noteAll s.machine.distances
        ((s.parsedExpression source).2.elim [] Expr.writes) } → a.Supplied m →
      s.Effect (.perform .evaluate source) [(a, m)] { a.leaves m with printed := printed } :=
    fun printed hm hsupplied => .ran (hwrites ▸ hm) hsupplied printed
  rw [roots, acceptedExpression?]
  unfold resolvedExpression evaluate
  generalize s.parsedExpression source = parsed at ha hmachine hcases hquiet hran ⊢
  obtain ⟨s₁, e?⟩ := parsed
  dsimp only at ha hmachine hcases hquiet hran ⊢
  rcases hcases with rfl | ⟨e, rfl, rfl, hproper, hnumbers⟩
  · exact hmachine ▸ hquiet s.machine.printed
  -- The analysis of a proper tree comes to an end.
  obtain ⟨hfault, -, -⟩ := resolve_expression hs ha hmachine hproper hnumbers
  have hres : s₁.resolve (resolveExpression e) = ((s₁.resolve (resolveExpression e)).1, none) :=
    Prod.ext rfl hfault
  have hresolved : (s₁.resolve (resolveExpression e)).1.machine =
      { s.machine with distances := noteAll s.machine.distances e.writes } := by
    rw [← hmachine, ← resolveExpression_writes hfault]
    rfl
  dsimp only
  rw [hres, Option.filter_some]
  dsimp only
  cases herror : (s₁.resolve (resolveExpression e)).1.report.hadError with
  | true =>
    rw [if_pos rfl]
    exact hresolved ▸ hquiet s.machine.printed
  | false =>
    rw [if_neg Bool.false_ne_true]
    simp only [Bool.not_false, if_true, Option.elim_some]
    generalize (s₁.resolve (resolveExpression e)).1 = s₂ at hresolved ⊢
    have hsupplied :
        (Activity.expression none maxSteps maxExpressionCallDepth e).Supplied s₂.machine := trivial
    have hend := fun printed => hran printed hresolved hsupplied
    have hrun := (s₂.runStep_machine (Machine.evaluate e)).trans (after_evaluate e _)
    generalize s₂.runStep (Machine.evaluate e) = ran at hrun ⊢
    obtain ⟨s₃, result⟩ := ran
    rw [show (Activity.expression none maxSteps maxExpressionCallDepth e).leaves s₂.machine =
      s₃.machine from hrun.symm] at hend
    rcases result with i | text?
    · exact hend s₃.machine.printed
    · cases text? with
      | none => exact hend s₃.machine.printed
      | some text => exact hend _

theorem tokenize_effect :
    s.Effect (.perform .tokenize source) [] (s.tokenize source).machine := by
  obtain ⟨printed, hprint⟩ := foldl_print (s.scanned source).2.allTokens (s.scanned source).1
  have hstep : s.tokenize source = { (s.scanned source).1 with
      machine := { (s.scanned source).1.machine with printed := printed } } := hprint
  have hmachine : (s.scanned source).1.machine = s.machine := trace_machine ..
  rw [hstep, hmachine]
  exact .quiet _ printed

theorem parse_effect : s.Effect (.perform .parse source) [] (s.parse source).1.machine := by
  obtain ⟨-, -, hmachine⟩ := s.parsed_eq source parseExpression
  have hmachine : (s.parsedExpression source).1.machine = s.machine := hmachine
  unfold parse
  generalize s.parsedExpression source = parsed at hmachine ⊢
  obtain ⟨s₁, e?⟩ := parsed
  have hquiet : ∀ printed, s.Effect (.perform .parse source) []
      { s₁.machine with printed := printed } := by
    intro printed
    rw [show s₁.machine = s.machine from hmachine]
    exact .quiet _ printed
  cases e? with
  | none => exact hquiet s₁.machine.printed
  | some e =>
    dsimp only
    cases e.render with
    | ok text => exact hquiet _
    | error f => exact hquiet s₁.machine.printed

/-- **What every step does** to the machine. -/
theorem apply_effect (hs : s.Fresh) (step : Step) :
    s.Effect step (s.roots step) (s.apply step).1.machine := by
  cases step with
  | perform mode source =>
    cases mode with
    | tokenize => exact s.tokenize_effect source
    | parse => exact s.parse_effect source
    | evaluate => exact s.evaluate_effect source hs
    | run => exact s.run_effect source
  | reset => exact .quiet _ _
  | register name f => exact .registered name f

end Session

end Lox
