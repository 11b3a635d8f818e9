/-
**The parser accepts the grammar, and nothing else.**

A text is parsed without a finding if and only if the grammar derives it, and then the tree is the
one of the derivation.  In particular the grammar is unambiguous: two derivations of the same tokens
have the same tree.

Main results:

* `Lox.parse_exact` — **nothing is found if and only if the grammar derives the tokens**, and the
  tree is the only one.
-/

import Lox.Proofs.Grammar.Completeness.Program

set_option relaxedAutoImplicit false
set_option autoImplicit false

namespace Lox

open Grammar

section

variable {α : Type} {p : Nat → Parse α} {tokens : List Token} {endMark : Token} {id : NodeId}

/-- A step that reads all tokens of a text, and does not want for fuel, finds nothing. -/
theorem runParse_complete {b : Nat} {P : α → Prop}
    {Q : ParsePost α}
    (hfuel : ParseOutcome ⟨tokens, endMark, [], id⟩ b Q
      (p (parseFuel tokens) ⟨tokens, endMark, [], id⟩))
    (hread : Reads (p (parseFuel tokens)) tokens [] P) :
    (runParse p tokens endMark id).findings = [] ∧
      ∃ a, (runParse p tokens endMark id).tree = some a ∧ P a := by
  unfold runParse
  have hstart := hread ⟨tokens, endMark, [], id⟩ (List.append_nil _).symm
  rcases hstart with ⟨a, id', hrun, ha⟩ | ⟨c, hrun⟩
  · rw [hrun]
    exact ⟨rfl, a, rfl, ha⟩
  · rw [hrun] at hfuel
    cases hfuel

/-- A program of the grammar is parsed without a finding, into its tree. -/
theorem parseProgram_complete {program : List Stmt} (h : Program tokens program) :
    (parseProgram tokens endMark id).findings = [] ∧
      unnumberedBody (parseProgram tokens endMark id).tree = unnumberedBody program := by
  obtain ⟨parts, hparts, rfl, rfl⟩ := h
  have hfuel := declarations_outcome (parseFuel (parts.map Prod.fst).flatten)
    (c := ⟨(parts.map Prod.fst).flatten, endMark, [], id⟩) (by simp only [parseFuel]; omega)
  obtain ⟨hfindings, ss, htree, hss⟩ := runParse_complete hfuel (declarations_reads _ hparts)
  refine ⟨hfindings, ?_⟩
  simp only [parseProgram, htree, Option.getD_some]
  exact hss

/-- The grammar derives one program only from the same tokens. -/
theorem Grammar.Program.unique {program program' : List Stmt} (h : Program tokens program)
    (h' : Program tokens program') : unnumberedBody program = unnumberedBody program' := by
  -- Both are what the parser gives, whatever it takes for the end of the text.
  have hparsed : unnumberedBody (parseProgram tokens (.endMark 1) 0).tree = _ :=
    (parseProgram_complete h).2
  rw [← hparsed]
  exact (parseProgram_complete h').2

/-- An expression of the grammar is parsed without a finding, into its tree. -/
theorem parseExpression_complete {e : Expr} (h : Derives .assignment tokens e) :
    (parseExpression tokens endMark id).findings = [] ∧
      ∃ a, (parseExpression tokens endMark id).tree = some a ∧ e.Matches a := by
  refine runParse_complete (expression_outcome (by simp only [parseFuel]; omega)) ?_
  refine ((completeExpr _).expr h (.nil _)).last fun a ha => ?_
  exact .inspect (fun c hc => show _ = EStateM.Result.ok true c from by
    change EStateM.Result.ok c.rest.isEmpty c = _
    rw [hc]
    rfl) (.pure ha)

end

/-- **The parser accepts exactly the grammar.**  A program, or a single expression, is parsed
without a finding if and only if the grammar derives its tokens; then the tree is derived from just
these tokens, and up to the numbers of references it is the only one that is. -/
theorem parse_exact (tokens : List Token) (endMark : Token) (id : NodeId) :
    (((parseProgram tokens endMark id).findings = [] ↔ ∃ program, Program tokens program) ∧
      ((parseProgram tokens endMark id).findings = [] →
        Program tokens (parseProgram tokens endMark id).tree ∧
        ∀ program, Program tokens program →
          unnumberedBody program = unnumberedBody (parseProgram tokens endMark id).tree)) ∧
    (((parseExpression tokens endMark id).findings = [] ↔ ∃ e, Derives .assignment tokens e) ∧
      ((parseExpression tokens endMark id).findings = [] →
        ∃ e, (parseExpression tokens endMark id).tree = some e ∧ Derives .assignment tokens e ∧
          ∀ e', Derives .assignment tokens e' → e'.unnumbered = e.unnumbered)) := by
  have hprogram := (parseProgram_sound tokens endMark id).2
  have hexpression := (parseExpression_sound tokens endMark id).2
  refine ⟨⟨⟨fun h => ⟨_, (hprogram h).1⟩, ?_⟩, fun h => ⟨(hprogram h).1, ?_⟩⟩,
    ⟨⟨fun h => ?_, ?_⟩, fun h => ?_⟩⟩
  · rintro ⟨program, hderived⟩
    exact (parseProgram_complete hderived).1
  · intro program hderived
    exact (parseProgram_complete hderived).2.symm
  · obtain ⟨e, -, he, -⟩ := hexpression h
    exact ⟨e, he⟩
  · rintro ⟨e, hderived⟩
    exact (parseExpression_complete hderived).1
  · obtain ⟨e, htree, he, -⟩ := hexpression h
    refine ⟨e, htree, he, fun e' hderived => ?_⟩
    obtain ⟨-, a, htree', ha⟩ := parseExpression_complete hderived
    obtain rfl := Option.some.inj (htree.symm.trans htree')
    exact ha.symm

end Lox
