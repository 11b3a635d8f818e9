/-
**Local names do not matter.**

A local variable or a parameter may be called by any other name that the program does not use: with
its declaration and the references that are bound to it renamed, the program is accepted as before
and does the same.  The new name may be that of a global: nothing in the program refers to it.

Main results:

* `Lox.Session.Reading.renamed` — the renamed tree may stand in the place of the one that was read;
* `Lox.Session.exists_spells` — a program with other names has a text;
* `Lox.run_rename` — **local names do not matter**.
-/

import Lox.Proofs.Grammar.Variant
import Lox.Proofs.Scope.Renaming
import Lox.Proofs.Session.Tree

set_option relaxedAutoImplicit false
set_option autoImplicit false

namespace Lox

section

variable {before after : List Stmt} {K : Context} {st st' : Stmt} {σ : Renaming}

/-- What the program does not use is not used at a place of it. -/
theorem BodyAvoids.at_place {z : String}
    (h : BodyAvoids z 0 (before ++ K.fill st :: after)) : ∃ k, st.Avoids z k :=
  K.avoids_of_fill 0 (bodyAvoids_cons.1 (bodyAvoids_append.1 h).2).1

/-- The renamed tree breaks no rule, and can be analysed in the place of the other. -/
theorem Session.Reading.renamed {s s₁ : Session}
    (h : Session.Reading s s₁ (before ++ K.fill st :: after))
    (hlawful : Lawful (before ++ K.fill st :: after)) (hrenames : Stmt.Renames σ st st')
    (hnew : IsName σ.new) (hfresh : BodyAvoids σ.new 0 (before ++ K.fill st :: after)) :
    Session.Reading s s₁ (before ++ K.fill st' :: after) ∧
      Lawful (before ++ K.fill st' :: after) := by
  obtain ⟨k, havoids⟩ := hfresh.at_place
  refine ⟨h.congr ?_ (numbersOfBody_swap (K.fill_numbers hrenames.numbers_eq) before after), ?_⟩
  · have hproper := hrenames.proper hnew.plain
    exact bodyProper_swap (K.fill_proper hrenames.declared?_eq hproper) h.proper
  · exact bodyLawfulAt_swap (K.fill_lawfulAt (hrenames.lawfulAt havoids) hrenames.introduces_eq)
      (K.fill_introduces hrenames.introduces_eq) before after [] hlawful

/-- The renamed tree is a variant of the other. -/
theorem renamed_variant {L : Ledger} (hD : L.distances = σ.distances)
    (hrenames : Stmt.Renames σ st st') (hnew : IsName σ.new)
    (hfresh : BodyAvoids σ.new 0 (before ++ K.fill st :: after))
    (h : bodyScoped L false [] (before ++ K.fill st :: after)) :
    BodyVariant False false .same (before ++ K.fill st :: after)
      (before ++ K.fill st' :: after) := by
  obtain ⟨k, havoids⟩ := hfresh.at_place
  refine bodyVariant_swap (K.fill_declared? hrenames.declared?_eq) (fun Γ hfill => ?_)
    before after h
  refine K.fill_variant hrenames.declared?_eq (fun inBody isLocal Γ hst => ?_) hfill
  exact hrenames.variant hD hnew hst havoids

end

/-- A program that differs from an accepted one in local names **has a text**. -/
theorem Session.exists_spells {s : Session} {source : String} {program program' : List Stmt}
    (h : s.acceptedProgram? source = some program)
    (hvariant : BodyVariant False false .same program program') :
    ∃ source', Spells source' program' := by
  have hvalid := valid_of_accepted h
  obtain ⟨ts', hprogram, hts⟩ := hvalid.derived.varies hvariant.varies
  obtain ⟨source', hscanned, htokens⟩ := scan_respelled hvalid.scanned hts
  exact ⟨source', hscanned, program', htokens ▸ hprogram, rfl⟩

/-- **Local names do not matter.**  Take a session that there is, a text that it accepts, and a
declaration of a local variable or a parameter `x`, at any depth of the program: it stands in the
block, the function or the class `st`.  With the declaration and the references that are bound to it
renamed to a name `z` that the program does not use, the program is accepted as well.  From the same
session the two programs take the same steps, for every allowance of them, and show the same:
output, messages, exit code and globals.  And the renamed program has a text, every one of which is
accepted and runs alike, unless the phases leave a trace. -/
theorem run_rename {s : Session} (hs : s.Reachable) {source x z : String}
    {before after : List Stmt} {K : Context} {st st' : Stmt}
    (haccepted : s.acceptedProgram? source = some (before ++ K.fill st :: after))
    (hrenames : Stmt.Renames
      ⟨(resolveProgram (before ++ K.fill st :: after) s.machine.distances).distances, x, z⟩ st st')
    (hz : IsName z) (hfresh : BodyAvoids z 0 (before ++ K.fill st :: after)) :
    let s₁ := (s.read source).1
    let renamed := before ++ K.fill st' :: after
    s₁.Accepts renamed ∧
    (∀ n, (s₁.runTreeFor n renamed).2 = (s.runFor n source).2 ∧
      (s.runFor n source).1.LooksLike (s₁.runTreeFor n renamed).1) ∧
    (∃ source', Spells source' renamed) ∧
    ∀ source', Spells source' renamed → (s.acceptedProgram? source').isSome ∧
      (s.traced = false → RunsAlike (s.Ends source) (s.Ends source')) := by
  intro s₁ renamed
  obtain ⟨μ, htwins⟩ := hs.twin
  have hμ : Agrees Anything s μ := htwins.agrees fun _ _ => trivial
  obtain ⟨htree, hreading, hlawful⟩ := Session.read_of_accepted haccepted
  obtain ⟨hreading', hlawful'⟩ := hreading.renamed hlawful hrenames hz hfresh
  obtain ⟨s₂, hresolve, -, -, -, hscoped⟩ := hreading.resolve hμ.fresh hlawful
  -- The distances that say what is bound to the declaration are the ones that the run goes by.
  have hdistances : (s₂.ledger Anything).distances =
      (resolveProgram (before ++ K.fill st :: after) s.machine.distances).distances := by
    obtain rfl := congrArg Prod.fst hresolve
    rw [← hreading.machine]
    rfl
  have hvariant := renamed_variant hdistances hrenames hz hfresh hscoped
  refine ⟨hreading'.accepts_iff.2 hlawful', fun n => ?_, Session.exists_spells haccepted hvariant,
    fun source' hspells => ?_⟩
  · rw [Session.runFor_eq_runTreeFor hreading.clear, htree]
    exact hreading.runTreeFor_variant hreading' hμ hlawful hlawful' hvariant n
  · obtain ⟨tree, htree', -⟩ := hspells.accepted hreading' hlawful'
    refine ⟨by rw [htree']; rfl, fun htraced => ?_⟩
    rw [Session.ends_eq_treeEnds haccepted]
    exact (hreading.runsAlike hreading' hμ hlawful hlawful' hvariant).trans
      (hspells.runsAlike hreading' hlawful' hμ htraced)

/-- The parameter of the function that a program begins with, if it is the only one. -/
def onlyParameter? : List Stmt → Option Token
  | .function (.mk _ [x] _) :: _ => some x
  | _ => none

theorem eq_of_onlyParameter? {program : List Stmt} {x : Token}
    (h : onlyParameter? program = some x) :
    ∃ f body rest, program = .function (.mk f [x] body) :: rest := by
  unfold onlyParameter? at h
  split at h
  · obtain rfl := Option.some.inj h
    exact ⟨_, _, _, rfl⟩
  · cases h

/-- The parameter of a function that is captured by another one, and hidden in a block. -/
theorem run_rename_captured :
    let s := Session.initial default false
    let source := "fun f(x) \x7b \x7b var x = 1; \x7d fun g() \x7b return x; \x7d return g; \x7d" ++
      " print f(true)();"
    ∃ f x body program, s.Reachable ∧
      s.acceptedProgram? source = some (.function (.mk f [x] body) :: program) ∧
      let tree := Stmt.function (.mk f [x] body) :: program
      let D := (resolveProgram tree s.machine.distances).distances
      let renamed := Routine.mk f [x.respell "z"] (renameBody ⟨D, "x", "z"⟩ 0 body)
      ((s.read source).1.runTreeFor 40 (.function renamed :: program)).1.stdout = "true\n" := by
  intro s source
  have hs : s.Reachable := .initial default false
  have hstdout : (s.runFor 40 source).1.stdout = "true\n" := by decide +kernel
  have hshape : (s.acceptedProgram? source).any (fun program =>
      (onlyParameter? program).any (·.lexeme == "x") &&
        decide (BodyAvoids "z" 0 program)) = true := by
    decide +kernel
  obtain ⟨_, haccepted, hboth⟩ := (Option.any_eq_true ..).1 hshape
  obtain ⟨hparameter, hfresh⟩ := Bool.and_eq_true_iff.1 hboth
  obtain ⟨x, hx, hlexeme⟩ := (Option.any_eq_true ..).1 hparameter
  obtain ⟨f, body, program, rfl⟩ := eq_of_onlyParameter? hx
  have hplace : s.acceptedProgram? source =
      some ([] ++ Context.here.fill (.function (.mk f [x] body)) :: program) := haccepted
  have hrenames : ∀ D, Stmt.Renames ⟨D, "x", "z"⟩ (.function (.mk f [x] body)) _ := fun _ =>
    .function (.parameter f [] (eq_of_beq hlexeme) [] body)
  have hname : IsName "z" := by decide
  have hruns := (run_rename hs hplace (hrenames _) hname (of_decide_eq_true hfresh)).2.1 40
  refine ⟨f, x, body, program, hs, haccepted, ?_⟩
  rw [← hstdout]
  exact hruns.2.stdout.symm

end Lox
