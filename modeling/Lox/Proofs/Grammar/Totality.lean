/-
**Parsing comes to an end.**

However malformed the tokens are, the parser over positions passes all of them and stops at the end
mark, and on the way no token is asked for that is not there.  What carries this is a declaration: a
call for one that is made before the end mark passes at least one token, since nothing that fits the
grammar is empty, and recovery from what does not fit drops a token.

Main definitions:

* `Lox.Text.cursor` — the cursor at a position;
* `Lox.Advance` — **how a call for a declaration ends**.

Main results:

* `Lox.declaration_advances` — every call for a declaration goes forward;
* `Lox.parse_total` — whatever the tokens are, **parsing ends at the end mark**.
-/

import Lox.Proofs.Grammar.Tracking
import Lox.Proofs.Grammar.Soundness.Program

set_option relaxedAutoImplicit false
set_option autoImplicit false

namespace Lox

/-! ### Declarations -/

/-- The cursor at a position of a text. -/
def Text.cursor (T : Text) (c : Pointer) : Cursor :=
  ⟨T.body.drop c.current, T.mark, c.findings, c.nextId⟩

section

variable {T : Text} {c : Pointer}

theorem Text.cursor_inside : (T.cursor c).Inside T := ⟨List.drop_suffix .., rfl⟩

theorem Text.pointer_cursor (hc : c.current ≤ T.body.length) : (T.cursor c).pointer T = c := by
  have hcurrent : T.body.length - (T.body.length - c.current) = c.current := by omega
  simp [Cursor.pointer, Text.cursor, hcurrent]

end

/-- How a call for a declaration **ends**: further on in the text, with a new finding if there is no
result; or for want of fuel, where there was not enough of it for the text. -/
inductive Advance (T : Text) (n : Nat) (c : Pointer) :
    EStateM.Result WalkStop Pointer (Option Stmt) → Prop
  | ok {d? : Option Stmt} {c' : Pointer} (forward : c.current < c'.current)
      (inside : c'.current ≤ T.body.length) (findings : c.findings <:+ c'.findings)
      (reported : d? = none → c'.findings ≠ c.findings) : Advance T n c (.ok d? c')
  | outOfFuel {c' : Pointer} (scarce : n < parseFuel T.body) :
      Advance T n c (.error .outOfFuel c')

/-- Where there is no declaration, a problem has been reported. -/
theorem declaration_reports {n : Nat} {c c' : Cursor} (hok : parseDeclaration n c = .ok none c') :
    c'.findings ≠ c.findings := by
  cases n with
  | zero => cases hok
  | succ n =>
    have hcourse := (courseStmt n).attempt.orderly c
    rw [parseDeclaration_succ, recovering] at hok
    generalize attemptDeclaration n c = r at hok hcourse
    cases hcourse with
    | ok => cases hok
    | outOfFuel => cases hok
    | malformed _ hearlier hfound =>
      cases hok
      intro heq
      have hle := hearlier.length_le
      rw [← heq, hfound, List.length_cons] at hle
      omega

/-- A call for a declaration fails only for want of fuel. -/
theorem declaration_error {n : Nat} {c c' : Cursor} {stop : ParseStop}
    (herror : parseDeclaration n c = .error stop c') : stop = .outOfFuel := by
  cases n with
  | zero =>
    cases herror
    rfl
  | succ n =>
    rw [parseDeclaration_succ, recovering] at herror
    split at herror <;> cases herror
    rfl

/-- With enough fuel for a text, a declaration is never given up for want of it. -/
theorem declaration_scarce {T : Text} {n : Nat} {c : Pointer} {c' : Cursor}
    (hc : c.current < T.body.length)
    (herror : parseDeclaration n (T.cursor c) = .error .outOfFuel c') : n < parseFuel T.body := by
  refine Nat.lt_of_not_le fun hn => ?_
  have hsome : (T.cursor c).rest ≠ [] := by simpa [Text.cursor] using hc
  have hfuel : 32 * (T.cursor c).rest.length + 12 ≤ n := by
    simp only [Text.cursor, List.length_drop, parseFuel] at hn ⊢
    omega
  have houtcome := (soundStmt n).declaration (T.cursor c) hsome hfuel
  rw [herror] at houtcome
  cases houtcome

/-- **Every call for a declaration goes forward**, whatever the fuel. -/
theorem declaration_advances (T : Text) (n : Nat) (c : Pointer) (hc : c.current < T.body.length) :
    Advance T n c (Indexed.declaration T.tokens n c) := by
  have hsome : (T.cursor c).rest ≠ [] := by simpa [Text.cursor] using hc
  have htracks := (tracksStmt T n).declaration (T.cursor c) Text.cursor_inside hsome
  rw [Text.pointer_cursor (Nat.le_of_lt hc)] at htracks
  rw [htracks]
  cases hstep : parseDeclaration n (T.cursor c) with
  | ok d? c' =>
    have hpasses := (courseStmt n).declaration.passes hstep
    have htakes := declaration_takes hsome hstep
    refine .ok ?_ (Nat.sub_le ..) hpasses.findings ?_
    · simp only [Cursor.pointer, Text.cursor, List.length_drop] at htakes ⊢
      omega
    · rintro rfl
      exact declaration_reports hstep
  | error stop c' =>
    obtain rfl := declaration_error hstep
    exact .outOfFuel (declaration_scarce hc hstep)

/-! ### Whole texts -/

/-- The cursor and the position at the beginning of a text. -/
theorem Text.pointer_start (T : Text) (id : NodeId) :
    Cursor.pointer T ⟨T.body, T.mark, [], id⟩ = ⟨0, [], id⟩ := by
  simp [Cursor.pointer]

theorem Text.start_inside (T : Text) (id : NodeId) :
    Cursor.Inside T ⟨T.body, T.mark, [], id⟩ := ⟨List.suffix_refl _, rfl⟩

/-- Declarations are parsed up to the end, unless fuel is wanting: no problem is left over. -/
theorem declarations_end (n : Nat) (c : Cursor) :
    (∃ ss c', parseDeclarations n c = .ok ss c' ∧ c'.rest = []) ∨
      ∃ c', parseDeclarations n c = .error .outOfFuel c' := by
  induction n generalizing c with
  | zero => exact .inr ⟨c, rfl⟩
  | succ n ih =>
    have hend : Parse.atEnd c = .ok c.rest.isEmpty c := rfl
    rw [parseDeclarations, bind_ok hend]
    split
    · rename_i hnil
      exact .inl ⟨[], c, rfl, List.isEmpty_iff.1 hnil⟩
    · cases hfirst : parseDeclaration n c with
      | error stop c₁ =>
        rw [bind_error hfirst]
        obtain rfl := declaration_error hfirst
        exact .inr ⟨c₁, rfl⟩
      | ok first c₁ =>
        rw [bind_ok hfirst]
        rcases ih c₁ with ⟨more, c₂, hmore, hrest⟩ | ⟨c₂, hmore⟩
        · exact .inl ⟨_, c₂, bind_ok hmore, hrest⟩
        · exact .inr ⟨c₂, bind_error hmore⟩

/-- The run behind a parsed program: it comes to the end of the text. -/
theorem parseProgram_run (tokens : List Token) (endMark : Token) (id : NodeId) :
    ∃ c, parseDeclarations (parseFuel tokens) ⟨tokens, endMark, [], id⟩ =
        .ok (parseProgram tokens endMark id).tree c ∧
      c.rest = [] ∧ c.findings.reverse = (parseProgram tokens endMark id).findings := by
  have houtcome := declarations_outcome (parseFuel tokens) (c := ⟨tokens, endMark, [], id⟩)
    (by simp only [parseFuel]; omega)
  rcases declarations_end (parseFuel tokens) ⟨tokens, endMark, [], id⟩ with
    ⟨ss, c, hok, hrest⟩ | ⟨c, herror⟩
  · refine ⟨c, ?_, hrest, ?_⟩ <;> rw [parseProgram, runParse, hok]
    rfl
  · rw [herror] at houtcome
    cases houtcome

/-- A program is parsed over positions as it is over cursors, **up to the end mark**. -/
theorem program_ends (T : Text) (id : NodeId) :
    ∃ c, Indexed.program T.tokens (parseFuel T.body) ⟨0, [], id⟩ =
        .ok (parseProgram T.body T.mark id).tree c ∧
      c.current = T.body.length ∧
      c.findings.reverse = (parseProgram T.body T.mark id).findings := by
  have htracks := program_tracks T (parseFuel T.body) _ (T.start_inside id) trivial
  rw [T.pointer_start id] at htracks
  obtain ⟨c, hok, hrest, hfindings⟩ := parseProgram_run T.body T.mark id
  refine ⟨c.pointer T, ?_, ?_, hfindings⟩
  · rw [htracks, hok]
    rfl
  · simp [Cursor.pointer, hrest]

/-- A single expression is parsed over positions as it is over cursors, inside the text. -/
theorem single_ends (T : Text) (id : NodeId) :
    ∃ c, Indexed.single T.tokens (parseFuel T.body) ⟨0, [], id⟩ =
        .ok (parseExpression T.body T.mark id).tree c ∧
      c.current ≤ T.body.length ∧
      c.findings.reverse = (parseExpression T.body T.mark id).findings := by
  have htracks := singleExpression_tracks T (parseFuel T.body) _ (T.start_inside id) trivial
  have houtcome := expression_outcome (n := parseFuel T.body) (c := ⟨T.body, T.mark, [], id⟩)
    (by simp only [parseFuel]; omega)
  rw [T.pointer_start id] at htracks
  unfold Indexed.single parseExpression runParse
  rw [htracks]
  dsimp only
  generalize (do
    let e ← parseExpr (parseFuel T.body)
    if ← Parse.atEnd then return e else Parse.fail .missingEnd : Parse Expr)
    ⟨T.body, T.mark, [], id⟩ = r at houtcome ⊢
  cases houtcome with
  | @ok e c => exact ⟨c.pointer T, rfl, Nat.sub_le .., rfl⟩
  | @malformed c => exact ⟨c.pointer T, rfl, Nat.sub_le .., rfl⟩

/-- Whatever the tokens before the end mark are, **parsing ends**.  A program is parsed up to the
end mark, a single expression somewhere in the text, and every call for a declaration that is made
before the end mark goes forward.  No token is asked for that is not there. -/
theorem parse_total (T : Text) (id : NodeId) :
    (∃ c, Indexed.program T.tokens (parseFuel T.body) ⟨0, [], id⟩ =
        .ok (parseProgram T.body T.mark id).tree c ∧
      c.current = T.body.length ∧
      c.findings.reverse = (parseProgram T.body T.mark id).findings) ∧
    (∃ c, Indexed.single T.tokens (parseFuel T.body) ⟨0, [], id⟩ =
        .ok (parseExpression T.body T.mark id).tree c ∧
      c.current ≤ T.body.length ∧
      c.findings.reverse = (parseExpression T.body T.mark id).findings) ∧
    ∀ n c, c.current < T.body.length → Advance T n c (Indexed.declaration T.tokens n c) :=
  ⟨program_ends T id, single_ends T id, fun n c => declaration_advances T n c⟩

end Lox
