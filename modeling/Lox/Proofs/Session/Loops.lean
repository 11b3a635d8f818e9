/-
**Loops, in a session.**

Every word `for` in an accepted text begins a loop, and the loop stands at its place in the tree of
the text; written by hand it makes the same tree, but for lines and numbers.  Whatever is run in a
session, and wherever the run comes to a loop, be it in the body of a function that an earlier text
has left: the machine does with the tree what the loop does over names and cells, and the scope in
force afterwards is the one before.

Main definitions:

* `Lox.Session.Starts` — what may be run in a session;
* `Lox.ForLoop.StandsIn` — **a loop at its place in an accepted text**;
* `Lox.ForLoop.Matched` — **a loop that a machine does as it is meant**.

Main results:

* `Lox.ForLoop.matched` — a tree that may be executed is done as the loop;
* `Lox.loops_right` — **loops mean what they say**.
-/

import Lox.Proofs.Grammar.Lines
import Lox.Proofs.Lexical.Loop
import Lox.Proofs.Session.Lookup
import Lox.Proofs.Session.Receiver
import Lox.Proofs.Session.Restoration
import Lox.Proofs.Session.Tree

set_option relaxedAutoImplicit false
set_option autoImplicit false

namespace Lox

open Placement

/-! ### What is run -/

/-- What may be **run** in a session: the program or the expression of an accepted text, on the
machine that its analysis leaves. -/
inductive Session.Starts (s : Session) : Activity → Machine → Prop
  | program {source : String} {program : List Stmt}
      (h : s.acceptedProgram? source = some program) (n room : Nat) :
      Starts s (.statements n room program) (s.parsedProgram source).1.machine
  | expression {source : String} {e : Expr} (h : s.acceptedExpression? source = some e)
      (n room : Nat) :
      Starts s (.expression none n room e) (s.resolvedExpression source e).machine

/-- Whatever may be run in a session is sound. -/
theorem Session.Starts.sound {s : Session} {a : Activity} {m : Machine} (h : s.Starts a m)
    (hs : s.Reachable) : ∃ L, a.Sound L m := by
  obtain ⟨μ, htwins⟩ := hs.twin
  have hagrees : Agrees Anything s μ := htwins.agrees fun _ _ => trivial
  cases h with
  | program hprogram n room =>
    obtain ⟨⟨_, ha⟩, haccepted⟩ := accepted_program hagrees.fresh hprogram
    exact ⟨_, (hagrees.advances ha).sound (haccepted Anything fun _ _ => trivial) n room⟩
  | expression he n room =>
    obtain ⟨⟨_, ha⟩, hscoped⟩ := accepted_expression hagrees.fresh he
    have hagrees := hagrees.advances ha
    obtain ⟨W, hc⟩ := hagrees.corresponds
    exact ⟨_, W, μ, [], .top, hc, ⟨hagrees.current, rfl, fun _ => rfl⟩, nofun, hscoped Anything⟩

/-! ### Loops of a text -/

/-- A loop **at its place in an accepted text**, which is read as the given program.  Its tokens
stand between the tokens `before`, the last of which is the word `for`, and the tokens `after`.  Its
tree stands at a place of the program, and if the loop is written by hand there, on whatever lines,
the text is accepted as well, as the same program but for lines and numbers. -/
structure ForLoop.StandsIn (l : ForLoop) (s : Session) (program : List Stmt) (closed : Bool)
    (before : List Token) (t : ForTokens) (after : List Token) : Prop where
  derived : l.DerivedFrom closed t
  /-- The body is no declaration. -/
  undeclaring : l.body.declared? = none
  place : ∃ (ss ss' : List Stmt) (K : Context), program = ss ++ K.fill l.tree :: ss'
  parsed : ∀ line tokens endMark id,
    Relabeling.bare.Merges tokens (before ++ l.byHand line t ++ after) →
    (parseProgram tokens endMark id).findings = [] ∧
      relabelBody .bare (parseProgram tokens endMark id).tree = relabelBody .bare program
  accepted : ∀ line source, (scan source.toList).findings = [] →
    Relabeling.bare.Merges (scan source.toList).tokens (before ++ l.byHand line t ++ after) →
    ∃ program', s.acceptedProgram? source = some program' ∧
      relabelBody .bare program' = relabelBody .bare program

section

variable {s : Session} {source : String} {program tree : List Stmt}

/-- A text for the tree of an accepted text, on other lines, is accepted. -/
theorem accepted_elsewhere (hprogram : s.acceptedProgram? source = some program) {source' : String}
    (hscan : (scan source'.toList).findings = [])
    (htree : Grammar.Program (scan source'.toList).tokens tree)
    (heq : relabelBody .bare tree = relabelBody .bare program) :
    ∃ program', s.acceptedProgram? source' = some program' ∧
      relabelBody .bare program' = relabelBody .bare program := by
  obtain ⟨-, hreading, hlawful⟩ := Session.read_of_accepted hprogram
  have hvalid : Valid source' tree := by
    refine ⟨hscan, htree, ?_⟩
    rw [← lawful_relabel .bare, heq, lawful_relabel]
    exact hlawful
  obtain ⟨program', haccepted, htrees⟩ :=
    Session.accepted_of_valid (hreading.advances.clear hreading.clear) hvalid
  exact ⟨program', haccepted, (relabelBody_bare_of_unnumbered htrees).trans heq⟩

/-- **Every word `for` in an accepted text begins a loop** at its place there. -/
theorem ForLoop.exists_standsIn (hprogram : s.acceptedProgram? source = some program)
    {before rest : List Token} {word : Token}
    (htokens : (scan source.toList).tokens = before ++ word :: rest)
    (hword : word.kind = .keyword .for_) :
    ∃ (l : ForLoop) (closed : Bool) (t : ForTokens) (after : List Token),
      rest = t.all ++ after ∧ l.StandsIn s program closed before t after := by
  obtain ⟨l, closed, t, after, hrest, hderived, hplace, hbyHand⟩ :=
    (Session.valid_of_accepted hprogram).derived.beginsLoop htokens hword
  refine ⟨l, closed, t, after, hrest, hderived, hderived.body.declared?_eq_none, hplace, ?_, ?_⟩
  · intro line tokens endMark id hmerges
    obtain ⟨tree, htree, heq⟩ := (hbyHand line).elsewhere hmerges
    obtain ⟨hnone, htrees⟩ := parseProgram_complete htree
    exact ⟨hnone, (relabelBody_bare_of_unnumbered htrees).trans heq⟩
  · intro line source' hscan hmerges
    obtain ⟨tree, htree, heq⟩ := (hbyHand line).elsewhere hmerges
    exact accepted_elsewhere hprogram hscan htree heq

end

/-! ### Loops of a run -/

/-- How a loop ends on a machine, beside the loop over names and cells: both give the same, or are
interrupted the same, the scope in force is the one before, and machine and state correspond
again. -/
def ForLoop.EndsWith (L : Ledger) (W : Placement) (m : Machine) (Γ : Scopes) (inBody : Bool) :
    EStateM.Result Interrupt Machine Unit → Lexical.Ending Lexical.Names → Prop :=
  EndsAlike L (Here m.current) inBody W m fun W' m' _ ρ => InForce W' m' Γ ρ

/-- A loop that a machine **does as it is meant**.  The machine corresponds to a state, and the
scope in force mirrors the names.  What the machine does with the tree, within any allowance that it
does not use up, is what the loop does over names and cells, and whatever the loop does there, the
machine does within some allowance.  However the tree ends, the scope in force is the one before. -/
structure ForLoop.Matched (l : ForLoop) (room : Nat) (L : Ledger) (W : Placement) (m : Machine)
    (μ : Lexical.State) (Γ : Scopes) (ρ : Lexical.Names) (inBody : Bool) : Prop where
  corresponds : Corresponds L W m μ
  inForce : InForce W m Γ ρ
  unique : ∀ r r', l.Runs room ρ μ r → l.Runs room ρ μ r' → r = r'
  finishes : ∀ n, finalInterrupt (exec n room l.tree m) ≠ some .outOfFuel →
    ∃ r, l.Runs room ρ μ r ∧ ForLoop.EndsWith L W m Γ inBody (exec n room l.tree m) r
  reached : ∀ r, l.Runs room ρ μ r →
    ∃ n, finalInterrupt (exec n room l.tree m) ≠ some .outOfFuel ∧
      ForLoop.EndsWith L W m Γ inBody (exec n room l.tree m) r
  current : ∀ n, (Run.after (exec n room l.tree) m).current = m.current

/-- Steps that end alike use up their allowances together. -/
theorem EndsAlike.usedUp_iff {α β : Type} {L : Ledger} {S : Nat → String → Prop} {inBody : Bool}
    {W : Placement} {m : Machine} {Q : Placement → Machine → α → β → Prop}
    {r : EStateM.Result Interrupt Machine α} {r' : Lexical.Ending β}
    (h : EndsAlike L S inBody W m Q r r') :
    Lexical.UsedUp r' ↔ finalInterrupt r = some .outOfFuel := by
  cases h with
  | ok => simp [Lexical.UsedUp, finalInterrupt]
  | error => simp [Lexical.UsedUp, finalInterrupt]

/-- **A tree that may be executed is done as the loop.** -/
theorem ForLoop.matched {l : ForLoop} (hd : l.body.declared? = none) {L : Ledger} {m : Machine}
    {n room : Nat} (h : (Activity.statement n room l.tree).Sound L m) :
    ∃ W μ Γ ρ inBody, l.Matched room L W m μ Γ ρ inBody := by
  obtain ⟨W, μ, Γ, ρ, inBody, hc, hin, -, hs⟩ := h
  have halike : ∀ n, ForLoop.EndsWith L W m Γ inBody (exec n room l.tree m)
      (Lexical.exec n room ρ l.tree μ) := fun n => by
    have hends := (simulates L n).exec room hc hin hs
    rwa [Γ.after_of_declared?_eq_none l.declared?_tree] at hends
  refine ⟨W, μ, Γ, ρ, inBody, hc, hin, fun r r' hr hr' => ?_, fun n hn => ?_, fun r hr => ?_, ?_⟩
  · exact Lexical.Finishes.unique (Lexical.exec_steady room ρ l.tree) ((executes_iff hd hs).2 hr)
      ((executes_iff hd hs).2 hr')
  · have hends : ¬ Lexical.UsedUp _ := (halike n).usedUp_iff.not.2 hn
    exact ⟨_, (executes_iff hd hs).1 ⟨hends, n, rfl⟩, halike n⟩
  · obtain ⟨hends, n, rfl⟩ := (executes_iff hd hs).2 hr
    exact ⟨n, (halike n).usedUp_iff.not.1 hends, halike n⟩
  · exact fun n => (restoring n).exec room l.tree m

/-- **Loops mean what they say.**  Take a session and an accepted text.  Every word `for` of the
text begins a loop, with any of its parts present or absent; the loop stands at its place in the
tree of the text, its body is no declaration, and written by hand, as a block with a `while` loop,
it makes the same tree but for lines and numbers.  And whatever is run in the session, and wherever
the run comes to a loop: the machine does with its tree what is meant by the loop, and the scope in
force afterwards is the one before. -/
theorem loops_right {s : Session} (hs : s.Reachable) {source : String} {program : List Stmt}
    (hprogram : s.acceptedProgram? source = some program) :
    (∀ before word rest, (scan source.toList).tokens = before ++ word :: rest →
      word.kind = .keyword .for_ →
      ∃ (l : ForLoop) (closed : Bool) (t : ForTokens) (after : List Token),
        rest = t.all ++ after ∧ l.StandsIn s program closed before t after) ∧
    ∀ (l : ForLoop) a m n room m', l.body.declared? = none → s.Starts a m →
      Reaches a m (.statement n room l.tree) m' →
      ∃ L W μ Γ ρ inBody, l.Matched room L W m' μ Γ ρ inBody := by
  refine ⟨fun before word rest htokens hword => ForLoop.exists_standsIn hprogram htokens hword, ?_⟩
  intro l a m n room m' hd hstarts hreach
  obtain ⟨L, hsound⟩ := hstarts.sound hs
  exact ⟨L, ForLoop.matched hd (hreach.sound hsound)⟩

/-- A loop that is executed, if all its parts are present and its body declares nothing. -/
def Activity.loop? : Activity → Option (Nat × ForLoop)
  | .statement _ room (.block [s, .loop c (.block [body, .expression e])]) =>
    if body.declared? = none then some (room, ⟨some s, some c, some e, body⟩) else none
  | _ => none

theorem Activity.eq_of_loop? {a : Activity} {room : Nat} {l : ForLoop}
    (h : a.loop? = some (room, l)) :
    l.body.declared? = none ∧ ∃ n, a = .statement n room l.tree := by
  unfold loop? at h
  split at h
  · split at h
    · rename_i hd
      cases h
      exact ⟨hd, _, rfl⟩
    · cases h
  · cases h

/-- The value that a step returns with. -/
def returned? {α : Type} : EStateM.Result Interrupt Machine α → Option Value
  | .error (.returned v) _ => some v
  | _ => none

theorem eq_of_returned? {α : Type} {r : EStateM.Result Interrupt Machine α} {v : Value}
    (h : returned? r = some v) : ∃ m, r = .error (.returned v) m := by
  unfold returned? at h
  split at h
  · cases h
    exact ⟨_, rfl⟩
  · cases h

/-- The first such loop of a run, with the machine there, if it returns. -/
def Activity.returnedLoop? (a : Activity) (m : Machine) :
    Option (Nat × ForLoop × Machine × Value) := do
  let (b, m') ← a.firstReached (·.loop?.isSome) 40 m
  let (room, l) ← b.loop?
  let v ← returned? (exec 30 room l.tree m')
  return (room, l, m', v)

theorem Activity.eq_of_returnedLoop? {a : Activity} {m m' : Machine} {room : Nat} {l : ForLoop}
    {v : Value} (h : a.returnedLoop? m = some (room, l, m', v)) :
    l.body.declared? = none ∧ (∃ n, Reaches a m (.statement n room l.tree) m') ∧
      ∃ m'', exec 30 room l.tree m' = .error (.returned v) m'' := by
  simp only [returnedLoop?, Option.bind_eq_bind, Option.bind_eq_some_iff, Option.pure_def,
    Option.some.injEq, Prod.mk.injEq] at h
  obtain ⟨⟨b, m₁⟩, hfound, ⟨room', l'⟩, hl, v', hv, rfl, rfl, rfl, rfl⟩ := h
  obtain ⟨hd, n, rfl⟩ := eq_of_loop? hl
  exact ⟨hd, ⟨n, (reaches_of_firstReached hfound).1⟩, eq_of_returned? hv⟩

/-- A loop whose body keeps the variable in a function, and returns in the second round. -/
theorem loops_right_returned :
    let s := Session.initial default false
    let source := "fun f() \x7b for (var i = 0; i < 2; i = i + 1) \x7b " ++
      "fun g() \x7b return i; \x7d if (0 < i) return g; \x7d \x7d f();"
    s.Reachable ∧ ∃ program, s.acceptedProgram? source = some program ∧
      (∃ before word rest, (scan source.toList).tokens = before ++ word :: rest ∧
        word.kind = .keyword .for_ ∧
        ∃ (l : ForLoop) (closed : Bool) (t : ForTokens) (after : List Token),
          rest = t.all ++ after ∧ l.StandsIn s program closed before t after) ∧
      ∃ (l : ForLoop) (a : Activity) (m : Machine) (n room : Nat) (m' : Machine),
        l.body.declared? = none ∧ s.Starts a m ∧ Reaches a m (.statement n room l.tree) m' ∧
        ∃ L W μ Γ ρ inBody v μ', l.Matched room L W m' μ Γ ρ inBody ∧
          l.Runs room ρ μ (.error (.returned v) μ') := by
  intro s source
  have hs : s.Reachable := .initial default false
  have hfor : (scan source.toList).tokens.any (·.kind == .keyword .for_) = true := by
    decide +kernel
  obtain ⟨word, hmem, hword⟩ := List.any_eq_true.1 hfor
  obtain ⟨before, rest, htokens⟩ := List.append_of_mem hmem
  have hkind : word.kind = .keyword .for_ := eq_of_beq hword
  have hsome : ((s.acceptedProgram? source).bind fun program =>
      ((Activity.statements 40 5 program).returnedLoop?
        (s.parsedProgram source).1.machine).map fun found => (program, found)).isSome = true := by
    decide +kernel
  obtain ⟨⟨program, room, l, m', v⟩, hfound⟩ := Option.isSome_iff_exists.1 hsome
  obtain ⟨program', hprogram, hfound⟩ := Option.bind_eq_some_iff.1 hfound
  obtain ⟨found, hfound, heq⟩ := Option.map_eq_some_iff.1 hfound
  obtain ⟨rfl, rfl⟩ := Prod.mk.inj heq
  obtain ⟨hd, ⟨n, hreach⟩, m'', hreturned⟩ := Activity.eq_of_returnedLoop? hfound
  have hstarts : s.Starts _ _ := .program hprogram 40 5
  obtain ⟨htexts, hruns⟩ := loops_right hs hprogram
  obtain ⟨L, W, μ, Γ, ρ, inBody, hmatched⟩ := hruns l _ _ n room m' hd hstarts hreach
  obtain ⟨r, hr, hends⟩ := hmatched.finishes 30 (by rw [hreturned]; exact nofun)
  rw [hreturned] at hends
  refine ⟨hs, program', hprogram, ⟨before, word, rest, htokens, hkind, ?_⟩, ?_⟩
  · exact htexts before word rest htokens hkind
  · cases hends with
    | @error _ _ _ μ' _ _ _ _ =>
      exact ⟨l, _, _, n, room, m', hd, hstarts, hreach, L, W, μ, Γ, ρ, inBody, v, μ', hmatched, hr⟩

end Lox
