/-
**Calls and constructors, in a session.**

In every run of an accepted program, a body is entered with as many arguments as it has parameters;
a class that is called gives a new object of its own; and an initializer gives the object that it is
bound to, be it called by its class or a subclass, on an object, through `super`, or as a value that
has been kept.

Main results:

* `Lox.calls_right` — **whatever a run comes to, its calls are right**.
-/

import Lox.Proofs.Receiver.Calls
import Lox.Proofs.Session.Receiver

set_option relaxedAutoImplicit false
set_option autoImplicit false

namespace Lox

/-- **Calls and constructors.**  Take a session and an accepted text, and whatever the run of the
text comes to.  A call is refused, or it enters a body that has as many parameters as there are
arguments, whichever way leads to this body; none is dropped, and every parameter has the value of
its argument where the body begins.  A class that is called, and gives anything, gives an object
that has not been there before, and its class is this one.  Initializers are the bound methods of
that name and no other closures; one that comes to its end, or returns, gives the object that it is
bound to. -/
theorem calls_right {roots : List (Activity × Machine)} {s : Session} (hs : s.Trail roots)
    {source : String} {program : List Stmt} (hprogram : s.acceptedProgram? source = some program)
    (n room : Nat) :
    let start := (s.parsedProgram source).1.machine
    let E := Events.of (roots ++ [(.statements n room program, start)])
    ∀ a m, Reaches (.statements n room program) start a m → a.CallsRight E m := by
  intro start E a m hreach
  have hroot : E.Covers (.statements n room program, start) :=
    Events.of_covers (List.mem_append_right _ (List.mem_singleton.2 rfl))
  have hsane : s.Sane E := hs.sane fun root hroot =>
    Events.of_covers (List.mem_append_left _ hroot)
  obtain ⟨h₁, haccepted⟩ := hsane.accepted hprogram
  refine (hreach.secure (h₁.secure haccepted hroot)).callsRight ?_
  rintro _ _ c arguments rfl
  exact hreach.length_eq

/-- Whether an initializer is run that is given `true`. -/
def Activity.isInitializerOfTrue : Activity → Bool
  | .closure (_ + 1) _ c arguments => c.isInitializer && arguments == [.bool true]
  | _ => false

theorem Activity.eq_of_isInitializerOfTrue {a : Activity} (h : a.isInitializerOfTrue = true) :
    ∃ n room c arguments, a = .closure (n + 1) room c arguments ∧ c.isInitializer = true := by
  unfold isInitializerOfTrue at h
  split at h
  · exact ⟨_, _, _, _, rfl, (Bool.and_eq_true_iff.1 h).1⟩
  · cases h

/-- An inherited initializer is kept and called later, and returns in the middle of its body. -/
theorem calls_right_kept :
    let s := Session.initial default false
    let source := "class A \x7b init(x) \x7b this.x = x; if (x) return; print x; \x7d \x7d " ++
      "class B < A \x7b init(x) \x7b super.init(x); \x7d \x7d class D < B \x7b \x7d " ++
      "var f = D(false).init; f(true);"
    s.Trail [] ∧ ∃ program n room c arguments m x o,
      s.acceptedProgram? source = some program ∧
      Reaches (.statements 40 5 program) (s.parsedProgram source).1.machine
        (.closure (n + 1) room c arguments) m ∧
      let E := Events.of ([] ++ [(.statements 40 5 program, (s.parsedProgram source).1.machine)])
      Bound E m c x o ∧ c.Takes arguments m ∧ c.GivesObject n room arguments m o := by
  intro s source
  have hs : s.Trail [] := .initial default false
  have hsome : ((s.acceptedProgram? source).bind fun program =>
      ((Activity.statements 40 5 program).firstReached Activity.isInitializerOfTrue 40
        (s.parsedProgram source).1.machine).map fun found => (program, found)).isSome = true := by
    decide +kernel
  obtain ⟨⟨program, a, m⟩, hfound⟩ := Option.isSome_iff_exists.1 hsome
  obtain ⟨program', hprogram, hfound⟩ := Option.bind_eq_some_iff.1 hfound
  obtain ⟨found, hfound, heq⟩ := Option.map_eq_some_iff.1 hfound
  obtain ⟨rfl, rfl⟩ := Prod.mk.inj heq
  obtain ⟨hreach, hp⟩ := Activity.reaches_of_firstReached hfound
  obtain ⟨n, room, c, arguments, rfl, hinit⟩ := Activity.eq_of_isInitializerOfTrue hp
  have hright := calls_right hs hprogram 40 5 _ m hreach
  obtain ⟨hname, x, o, hbound⟩ := (hright.initializers (n + 1) room c arguments rfl).1 hinit
  exact ⟨hs, program', n, room, c, arguments, m, x, o, hprogram, hreach, hbound,
    hright.takes (n + 1) room c arguments rfl,
    hright.gives n room c arguments x o rfl hbound hname⟩

end Lox
