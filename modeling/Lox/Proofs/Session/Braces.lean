/-
**Extra braces change nothing.**

A statement that is no declaration may be put into a block of its own, wherever it stands in a
program: the program is accepted as before and does the same.  The block is one more scope between
everything inside the statement and everything around it, so distances change on both sides of it;
but over names and cells there is nothing to be seen of a scope that holds no name.

Main results:

* `Lox.Session.Reading.braced` — a tree with braces may stand in the place of the one without;
* `Lox.run_braces` — **extra braces change nothing**.
-/

import Lox.Proofs.Scope.Braces
import Lox.Proofs.Session.Tree

set_option relaxedAutoImplicit false
set_option autoImplicit false

namespace Lox

section

variable {before after : List Stmt} {K : Context} {st : Stmt}

/-- The braces break no rule, and the tree can be analysed in the place of the one without. -/
theorem Session.Reading.braced {s s₁ : Session}
    (h : Session.Reading s s₁ (before ++ K.fill st :: after))
    (hlawful : Lawful (before ++ K.fill st :: after)) (hd : st.declared? = none) :
    Session.Reading s s₁ (before ++ K.fill (.block [st]) :: after) ∧
      Lawful (before ++ K.fill (.block [st]) :: after) := by
  have hfill : (K.fill st).Proper := (bodyProper_iff _).1 h.proper (K.fill st) (by simp)
  have hst : st.Proper := K.proper_of_fill hfill
  have hdeclared : (Stmt.block [st]).declared? = st.declared? := hd.symm
  have hnumbers : (Stmt.block [st]).numbers = st.numbers := by
    simp [Stmt.numbers, Stmt.references, referencesOfBody]
  have hintroduces : (Stmt.block [st]).introduces = st.introduces := by
    rw [Stmt.Proper.introduces st hst, hd]
    rfl
  refine ⟨h.congr ?_ (numbersOfBody_swap (K.fill_numbers hnumbers) before after), ?_⟩
  · exact bodyProper_swap (K.fill_proper hdeclared fun hst => ⟨hst, trivial⟩) h.proper
  · exact bodyLawfulAt_swap
      (K.fill_lawfulAt (Stmt.lawfulAt_block hintroduces.symm) hintroduces)
      (K.fill_introduces hintroduces) before after [] hlawful

/-- A tree with braces is a variant of the one without. -/
theorem braced_variant {L : Ledger} (hd : st.declared? = none)
    (h : bodyScoped L false [] (before ++ K.fill st :: after)) :
    BodyVariant True false .same (before ++ K.fill st :: after)
      (before ++ K.fill (.block [st]) :: after) := by
  have hdeclared : (Stmt.block [st]).declared? = st.declared? := hd.symm
  refine bodyVariant_swap (K.fill_declared? hdeclared) (fun Γ hfill => ?_) before after h
  refine K.fill_variant hdeclared (fun inBody isLocal Γ hst => ?_) hfill
  exact .braced trivial hd hd (Stmt.Scoped.congruent st hst)

end

/-- **Extra braces change nothing.**  Take a session that there is, a text that it accepts, and a
statement `st` of the program, at any depth, that is no declaration.  With `st` in a block of its
own the program is accepted as well.  From the same session the two programs come to an end both or
neither, and show the same then: output, messages, exit code and globals.  This holds for every
allowance of steps, and so for the runs of a session that are not cut short.  And every text for the
program with the braces is accepted and runs alike, unless the phases leave a trace. -/
theorem run_braces {s : Session} (hs : s.Reachable) {source : String} {before after : List Stmt}
    {K : Context} {st : Stmt}
    (haccepted : s.acceptedProgram? source = some (before ++ K.fill st :: after))
    (hd : st.declared? = none) :
    let s₁ := (s.read source).1
    let braced := before ++ K.fill (.block [st]) :: after
    s₁.Accepts braced ∧
    RunsAlike (s.Ends source) (s₁.TreeEnds braced) ∧
    ((s.run source).2 = none → (s₁.runTree braced).2 = none →
      (s.run source).1.LooksLike (s₁.runTree braced).1) ∧
    ∀ source', Spells source' braced → (s.acceptedProgram? source').isSome ∧
      (s.traced = false → RunsAlike (s.Ends source) (s.Ends source')) := by
  intro s₁ braced
  obtain ⟨μ, htwins⟩ := hs.twin
  have hμ : Agrees Anything s μ := htwins.agrees fun _ _ => trivial
  obtain ⟨-, hreading, hlawful⟩ := Session.read_of_accepted haccepted
  obtain ⟨hreading', hlawful'⟩ := hreading.braced hlawful hd
  obtain ⟨s₂, -, -, -, -, hscoped⟩ := hreading.resolve hμ.fresh hlawful
  have hruns : RunsAlike (s.Ends source) (s₁.TreeEnds braced) := by
    rw [Session.ends_eq_treeEnds haccepted]
    exact hreading.runsAlike hreading' hμ hlawful hlawful' (braced_variant hd hscoped)
  refine ⟨hreading'.accepts_iff.2 hlawful', hruns, fun hrun hrun' => ?_, fun source' hspells => ?_⟩
  · rw [Session.run_eq_runFor] at hrun ⊢
    exact hruns.looksLike _ _ (Session.ends_runFor hrun) (Session.treeEnds_runTreeFor hrun')
  · obtain ⟨tree, htree, -⟩ := hspells.accepted hreading' hlawful'
    refine ⟨by rw [htree]; rfl, fun htraced => ?_⟩
    exact hruns.trans (hspells.runsAlike hreading' hlawful' hμ htraced)

/-- The program begins with a function that begins with a loop over an expression. -/
def beginsWithLoop : List Stmt → Bool
  | .function (.mk _ _ (.loop _ (.expression _) :: _)) :: _ => true
  | _ => false

theorem of_beginsWithLoop {program : List Stmt} (h : beginsWithLoop program = true) :
    ∃ f params c e body rest,
      program = .function (.mk f params (.loop c (.expression e) :: body)) :: rest := by
  unfold beginsWithLoop at h
  split at h
  · exact ⟨_, _, _, _, _, _, rfl⟩
  · cases h

/-- The body of a loop in a function gets braces; it changes a variable that is captured later. -/
theorem run_braces_loop :
    let s := Session.initial default false
    let source :=
      "fun f(x) \x7b while (x) x = nil; fun g() \x7b return x; \x7d return g; \x7d print f(true)();"
    ∃ f params c e body program, s.Reachable ∧
      s.acceptedProgram? source =
        some (.function (.mk f params (.loop c (.expression e) :: body)) :: program) ∧
      ∃ t, (s.read source).1.TreeEnds
        (.function (.mk f params (.loop c (.block [.expression e]) :: body)) :: program) t ∧
        t.stdout = "nil\n" := by
  intro s source
  have hs : s.Reachable := .initial default false
  have hends : s.Ends source (s.runFor 40 source).1 := Session.ends_runFor (by decide +kernel)
  have hstdout : (s.runFor 40 source).1.stdout = "nil\n" := by decide +kernel
  have hshape : (s.acceptedProgram? source).any beginsWithLoop = true := by decide +kernel
  obtain ⟨_, haccepted, hloop⟩ := (Option.any_eq_true ..).1 hshape
  obtain ⟨f, params, c, e, body, program, rfl⟩ := of_beginsWithLoop hloop
  let K : Context := .function f params [] (.loop c .here) body
  have hplace : s.acceptedProgram? source = some ([] ++ K.fill (.expression e) :: program) :=
    haccepted
  have hruns := (run_braces hs hplace rfl).2.1
  obtain ⟨t, ht⟩ := hruns.ends_iff.1 ⟨_, hends⟩
  refine ⟨f, params, c, e, body, program, hs, haccepted, t, ht, ?_⟩
  rw [← (hruns.looksLike _ t hends ht).stdout, hstdout]

end Lox
