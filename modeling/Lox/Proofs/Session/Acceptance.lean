/-
**Which texts are accepted.**

Whether a text is accepted depends on the text alone: on its characters, its tokens and the sites of
its tree, and not on what the session has been through, as long as no earlier finding stands in the
report.  Valid texts can be put together at a line end.

Main definitions:

* `Lox.Lawful` — a program none of whose sites breaks a rule;
* `Lox.Valid` — **a text without findings**, and a tree for it.

Main results:

* `Lox.Lawful.append`, `Lox.lawful_relabel` — lawful programs put together, and on other lines;
* `Lox.Valid.seam` — valid texts put together;
* `Lox.Session.parsedProgram_valid` — **a text is accepted if and only if it is valid**.
-/

import Lox.Proofs.Grammar.Exact
import Lox.Proofs.Scope.Rules
import Lox.Proofs.Session.Front
import Lox.Proofs.Token.Seam
import Lox.Proofs.Tree.Relabel

set_option relaxedAutoImplicit false
set_option autoImplicit false

namespace Lox

/-! ### Valid texts -/

/-- A program none of whose sites breaks a rule. -/
def Lawful (program : List Stmt) : Prop := ∀ s ∈ bodySites [] program, s.violation? = none

theorem Lawful.append {program program' : List Stmt} (h : Lawful program) (h' : Lawful program') :
    Lawful (program ++ program') := by
  intro s hs
  rw [bodySites_append, List.mem_append] at hs
  rcases hs with hs | hs
  · exact h s hs
  · exact h' s hs

/-- The rules do not depend on lines and numbers. -/
theorem lawful_relabel (σ : Relabeling) (program : List Stmt) :
    Lawful (relabelBody σ program) ↔ Lawful program := by
  simp only [Lawful, bodySites_relabel, List.forall_mem_map, Site.violation?_relabel]

/-- A text **without findings**, and a tree for it. -/
structure Valid (source : String) (program : List Stmt) : Prop where
  scanned : (scan source.toList).findings = []
  derived : Grammar.Program (scan source.toList).tokens program
  lawful : Lawful program

/-- One tree of a valid text is as good as another. -/
theorem Valid.congr {source : String} {program program' : List Stmt} (h : Valid source program)
    (h' : Grammar.Program (scan source.toList).tokens program') : Valid source program' := by
  refine ⟨h.scanned, h', ?_⟩
  have htrees := h.derived.unique h'
  rw [unnumberedBody_eq_relabelBody, unnumberedBody_eq_relabelBody] at htrees
  rw [← lawful_relabel .unnumbering, ← htrees, lawful_relabel]
  exact h.lawful

/-! ### Texts put together -/

/-- The lines that the second of two texts is moved on by. -/
def seamLines (source : String) : Nat := 1 + lineCount source.toList

theorem scan_append {source₁ : String} (h₁ : (scan source₁.toList).findings = [])
    (source₂ : String) :
    scan (source₁ ++ "\n" ++ source₂).toList =
      { tokens := (scan source₁.toList).tokens ++
          (scan source₂.toList).tokens.map (Token.below (seamLines source₁))
        findings := (scan source₂.toList).findings.map (Diagnostic.below (seamLines source₁))
        lastLine := (scan source₂.toList).lastLine + seamLines source₁ } := by
  have hchars : (source₁ ++ "\n" ++ source₂).toList = source₁.toList ++ '\n' :: source₂.toList := by
    simp
  rw [hchars, scan_seam _ (closed_of_findings h₁), h₁]
  rfl

/-- **Valid texts put together** at a line end are a valid text. -/
theorem Valid.seam {source₁ source₂ : String} {program₁ program₂ : List Stmt}
    (h₁ : Valid source₁ program₁) (h₂ : Valid source₂ program₂) :
    ∃ program, Valid (source₁ ++ "\n" ++ source₂) program := by
  let σ : Relabeling := ⟨fun t => t.line + seamLines source₁, fun id => id⟩
  have hscan := scan_append h₁.scanned source₂
  refine ⟨program₁ ++ relabelBody σ program₂, ?_, ?_, ?_⟩
  · rw [hscan, h₂.scanned]
    rfl
  · rw [hscan]
    exact h₁.derived.append (h₂.derived.relabel σ)
  · exact h₁.lawful.append ((lawful_relabel σ program₂).2 h₂.lawful)

/-! ### Sessions -/

/-- The analysis of scopes comes to an end, and refuses a program if and only if a rule is
broken. -/
theorem Session.resolve_lawful {s : Session} (hs : s.report.hadError = false)
    {program : List Stmt} (hwhole : bodyWhole program) :
    (s.resolve (resolveProgram program)).2 = none ∧
      ((s.resolve (resolveProgram program)).1.report.hadError = false ↔ Lawful program) := by
  obtain ⟨hfault, hfindings⟩ := resolveProgram_findings hwhole s.machine.distances
  refine ⟨hfault, ?_⟩
  change (s.report.addAll (resolveProgram program s.machine.distances).findings).hadError = _ ↔ _
  rw [Report.addAll_hadError, hs, hfindings, Lawful, ← findingsAt_eq_nil_iff]
  simp

/-- **A text is accepted if and only if it is valid**, unless there is a finding already.  If it is
accepted, it is run as one of its trees. -/
theorem Session.parsedProgram_valid (s : Session) (source : String) :
    ((s.parsedProgram source).1.report.hadError = true ∧ (s.parsedProgram source).2 = .ok none ∧
      (s.report.hadError = false → ∀ program, ¬ Valid source program)) ∨
    ∃ program, (s.parsedProgram source).2 = .ok (some program) ∧ Valid source program := by
  obtain ⟨htree, -, -, hadv⟩ := parsed_advances s source
    (fun tokens endMark id => (parseProgram_sound tokens endMark id).1)
  have hsound := (parseProgram_sound (scan source.toList).tokens (scan source.toList).endMark
    s.nextId).2
  have hwhole := parseProgram_whole (scan source.toList).tokens (scan source.toList).endMark
    s.nextId
  unfold parsedProgram
  generalize s.parsed parseProgram source = parsed at htree hadv ⊢
  obtain ⟨s₁, program⟩ := parsed
  dsimp only at htree hadv ⊢
  rw [← htree] at hsound hwhole
  have hadv := hadv.trace ("parsed " ++ program.length.repr ++ " statements")
  generalize s₁.trace ("parsed " ++ program.length.repr ++ " statements") = s₂ at hadv ⊢
  by_cases herror : s₂.report.hadError = true
  · rw [if_pos herror]
    refine .inl ⟨herror, rfl, fun hs program' hvalid => ?_⟩
    -- A valid text has no findings up to here.
    have hfindings := hadv.gains.hadError
    rw [hs, herror, hvalid.scanned, (parseProgram_complete hvalid.derived).1] at hfindings
    cases hfindings
  · rw [if_neg herror]
    have hclear : s₂.report.hadError = false := by simpa using herror
    have hnil := List.append_eq_nil_iff.1 (hadv.findings_eq_nil hclear)
    have hderived := (hsound hnil.2).1
    obtain ⟨hfault, hlawful⟩ := resolve_lawful hclear hwhole
    have hres : s₂.resolve (resolveProgram program) =
        ((s₂.resolve (resolveProgram program)).1, none) := Prod.ext rfl hfault
    rw [hres]
    dsimp only
    split
    · rename_i hrefused
      refine .inl ⟨?_, rfl, fun _ program' hvalid => ?_⟩
      · rw [trace_hadError]
        exact hrefused
      · rw [hlawful.2 (hvalid.congr hderived).lawful] at hrefused
        cases hrefused
    · rename_i haccepted
      have hrules := hlawful.1 (by simpa using haccepted)
      exact .inr ⟨program, rfl, hnil.1, hderived, hrules⟩

end Lox
