/-
**Findings are exact.**

The analysis of scopes reports what the sites of a tree say, and nothing else: every site that
breaks a rule is reported once, at its own token, in the order in which the tree is gone through.
So a program is accepted if and only if none of its sites breaks a rule.  The rules are in
`Lox.Site.violation?`; they speak of the path of a site alone.

Main results:

* `Lox.resolveProgram_findings` — what is reported of a tree without holes;
* `Lox.findings_exact` — **the findings for the tree of a text** are the broken rules.
-/

import Lox.Proofs.Grammar.Whole
import Lox.Proofs.Scope.Exactness

set_option relaxedAutoImplicit false
set_option autoImplicit false

namespace Lox

/-- The findings at the given sites, in order. -/
def findingsAt (sites : List Site) : List Diagnostic := sites.filterMap Site.finding?

/-- There is nothing to report if no rule is broken. -/
theorem findingsAt_eq_nil_iff {sites : List Site} :
    findingsAt sites = [] ↔ ∀ s ∈ sites, s.violation? = none := by
  simp [findingsAt, List.filterMap_eq_nil_iff, Site.finding?]

/-- A whole pass reports what it finds at the sites. -/
theorem Walks.findings {step : Resolve Unit} {sites : List Site} {whole : Prop}
    (h : Walks {} step [] none [] none sites whole) (hwhole : whole) (D : Distances) :
    (runResolve step D).fault = none ∧ (runResolve step D).findings = findingsAt sites := by
  have hstep := h (.start D) .top rfl
  unfold runResolve
  generalize step (.start D) = res at hstep
  cases hstep with
  | stopped hole => exact absurd hwhole hole
  | done _ hf =>
    refine ⟨rfl, ?_⟩
    dsimp only
    rw [hf.findings, List.reverse_append, List.reverse_reverse]
    rfl

/-- What is reported of a program without holes. -/
theorem resolveProgram_findings {program : List Stmt} (h : bodyWhole program) (D : Distances) :
    (resolveProgram program D).fault = none ∧
      (resolveProgram program D).findings = findingsAt (bodySites [] program) := by
  have hwalks := resolveBody_walks program []
  rw [Path.declareAll_top] at hwalks
  exact hwalks.findings h D

/-- **Findings are exact.**  For the tree of any tokens, in the grammar or not, the analysis comes
to its end, and its findings are the broken rules of the tree, each reported once.  It reports
nothing if and only if no rule is broken. -/
theorem findings_exact (tokens : List Token) (endMark : Token) (id : NodeId) (D : Distances) :
    let program := (parseProgram tokens endMark id).tree
    (resolveProgram program D).fault = none ∧
      (resolveProgram program D).findings = (bodySites [] program).filterMap Site.finding? ∧
      ((resolveProgram program D).findings = [] ↔
        ∀ s ∈ bodySites [] program, s.violation? = none) := by
  intro program
  obtain ⟨hfault, hfindings⟩ :=
    resolveProgram_findings (parseProgram_whole tokens endMark id) D
  refine ⟨hfault, hfindings, ?_⟩
  rw [hfindings]
  exact findingsAt_eq_nil_iff

/-- The innermost function counts: inside the method `init` a function of the same name may return a
value, and the method itself may not. -/
example :
    let name (x : String) (line : Int) : Token := ⟨.identifier, x, line, .none⟩
    let ret (line : Int) : Stmt :=
      .ret ⟨.keyword .return_, "return", line, .none⟩ (some (.literal .nil))
    findingsAt (bodySites [] [.classDecl (name "A" 1) none [.mk (name "init" 2) []
      [.function (.mk (name "init" 3) [] [ret 4]), ret 5]]]) =
      [⟨.token ⟨.keyword .return_, "return", 5, .none⟩, .returnFromInitializer⟩] := by
  decide

end Lox
