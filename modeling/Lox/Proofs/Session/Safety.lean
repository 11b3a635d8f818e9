/-
**Texts never lead to faults.**

Whatever texts have been given to a session before, a text that is given to it in any mode is either
refused with findings, or done with; at most one runtime error is reported, and it is the last thing
that happens.  No fault and no stray `return` ever escapes: the trees of texts have no holes and no
unknown operators, and every reference has a distance at which the running program has its variable.

Main results:

* `Lox.Session.perform_never_fails` — **nothing escapes from a text but the end of the allowance**.
-/

import Lox.Proofs.Session.Agreement

set_option relaxedAutoImplicit false
set_option autoImplicit false

namespace Lox

namespace Session

/-- Every session agrees with a state. -/
theorem Reachable.agrees {s : Session} (hs : s.Reachable) : ∃ μ, Agrees (fun _ _ => True) s μ := by
  obtain ⟨μ, hμ⟩ := hs.twin
  exact ⟨μ, hμ.agrees fun _ _ => trivial⟩

/-- **A text never leads to a fault.**  In every session and every mode, nothing escapes from a text
but the end of the allowance of steps.  What is added to the report is either the findings of the
text, or one runtime error. -/
theorem perform_never_fails {s : Session} (hs : s.Reachable) (mode : Mode) (source : String) :
    ((s.perform mode source).2 = none ∨ (s.perform mode source).2 = some .outOfFuel) ∧
      ((∃ ds : List Diagnostic,
          (s.perform mode source).1.report.messages.toList =
            s.report.messages.toList ++ ds.map Diagnostic.text ∧
          (s.perform mode source).1.report.hadRuntimeError = s.report.hadRuntimeError) ∨
        ∃ e : RuntimeError,
          (s.perform mode source).1.report.messages.toList =
            s.report.messages.toList ++ [Report.runtimeText e.line? e.message] ∧
          (s.perform mode source).1.report.hadRuntimeError = true) := by
  obtain ⟨μ, hagrees⟩ := hs.agrees
  have h := hagrees.performs mode source fun _ _ => trivial
  refine ⟨h.escaped, ?_⟩
  -- A runtime error comes after the phases that make findings, and these made none.
  rcases h.reported with ⟨ds, hgains⟩ | ⟨q, e, hgains, hreport⟩
  · exact .inl ⟨ds, hgains.messages, hgains.hadRuntimeError⟩
  · refine .inr ⟨e, ?_, ?_⟩
    · have hmessages := hgains.messages
      rw [List.map_nil, List.append_nil] at hmessages
      rw [hreport, ← hmessages]
      exact Array.toList_push
    · rw [hreport]
      rfl

/-- A call with too many arguments, in a session in which the function has been declared and another
text has ended with a runtime error. -/
theorem perform_never_fails_after_error :
    let declaration := "fun f(a) \x7b return a; \x7d"
    let s₁ := ((Session.initial default false).apply (.perform .run declaration)).1
    let s₂ := (s₁.apply (.perform .run "f(1) + nil;")).1
    let r := s₂.perform .run "f(1, 2);"
    s₂.Reachable ∧ (r.2 = none ∨ r.2 = some .outOfFuel) := by
  intro declaration s₁ s₂ r
  have hs : s₂.Reachable := ((Reachable.initial default false).step _).step _
  exact ⟨hs, (perform_never_fails hs .run "f(1, 2);").1⟩

end Session

end Lox
