/-
**Steps over tokens.**

Parsing is a walk over the tokens that are left.  A step may take tokens, report problems and give
out new references; it stops without a result where the tokens do not fit the grammar.

Main definitions:

* `Lox.Cursor` — the tokens that are left, and what has been found;
* `Lox.Parse` — **steps** over the tokens;
* `Lox.Parse.peek`, `Lox.Parse.check`, `Lox.Parse.accept`, `Lox.Parse.expect` — looking at the next
  token, and taking it;
* `Lox.Parse.report`, `Lox.Parse.fail` — problems that are gone past, and problems that stop a step;
* `Lox.recovering`, `Lox.synchronize` — where parsing goes on after a problem.

Main results:

* `Lox.synchronize_suffix` — recovery only drops tokens;
* `Lox.synchronize_length_lt` — and it drops at least one, so that parsing comes to an end.
-/

import Lox.Diagnostic.Basic
import Lox.Tree.Basic

set_option relaxedAutoImplicit false
set_option autoImplicit false

namespace Lox

/-! ### Steps over the tokens -/

/-- The tokens that are left, the mark behind them, the findings so far (the last one first), and
the next free number for a reference. -/
structure Cursor where
  rest : List Token
  endMark : Token
  findings : List Diagnostic
  nextId : NodeId
deriving DecidableEq

/-- Why a step gave no result: a problem that was reported, or a lack of fuel. -/
inductive ParseStop where
  | malformed
  | outOfFuel
deriving DecidableEq

/-- A step over the tokens that are left. -/
abbrev Parse := EStateM ParseStop Cursor

namespace Parse

/-- The token that is next; at the end, the end mark. -/
def peek : Parse Token := do
  let c ← get
  return c.rest.headD c.endMark

/-- Whether no token is left. -/
def atEnd : Parse Bool := return (← get).rest.isEmpty

/-- Whether the next token is of the given kind. -/
def check (k : Token.Kind) : Parse Bool := return (← get).rest.head?.any fun t => t.kind == k

/-- Whether a closing brace is next, or no token is left. -/
def atBlockEnd : Parse Bool := return (← check (.symbol .rightBrace)) || (← atEnd)

/-- Takes the next token if it is of one of the given kinds. -/
def acceptAny (ks : List Token.Kind) : Parse (Option Token) := do
  let c ← get
  match c.rest with
  | [] => return none
  | t :: rest =>
    if ks.contains t.kind then
      set { c with rest := rest }
      return some t
    else
      return none

/-- Takes the next token if it is of the given kind. -/
def accept (k : Token.Kind) : Parse (Option Token) := acceptAny [k]

/-- Reports a problem and goes on. -/
def report (t : Token) (p : Problem) : Parse Unit :=
  modify fun c => { c with findings := ⟨.token t, p⟩ :: c.findings }

/-- Reports a problem with the next token, if there is one, and goes on. -/
def reportIf (c : Bool) (p : Problem) : Parse Unit :=
  if c then do report (← peek) p else pure ()

/-- Reports a problem with the next token and gives up. -/
def fail {α : Type} (p : Problem) : Parse α := do
  report (← peek) p
  throw .malformed

/-- Takes the token that the grammar demands. -/
def expect (e : Expectation) : Parse Token := do
  match ← accept e.kind with
  | some t => return t
  | none => fail (.missing e)

/-- What the given step gives, if a token of the given kind is next and taken. -/
def after {α : Type} (k : Token.Kind) (step : Parse α) : Parse (Option α) := do
  match ← accept k with
  | none => return none
  | some _ => some <$> step

/-- What the given step gives, unless a token of the given kind is next. -/
def unlessNext {α : Type} (k : Token.Kind) (absent : α) (step : Parse α) : Parse α := do
  if ← check k then return absent else step

/-- A new reference by the given name. -/
def newReference (name : Token) : Parse Reference := do
  let c ← get
  set { c with nextId := c.nextId + 1 }
  return ⟨c.nextId, name⟩

end Parse

/-! ### Recovery -/

/-- The words that a statement or a declaration begins with. -/
def statementWords : List Token.Kind :=
  [.keyword .class_, .keyword .fun_, .keyword .var, .keyword .for_, .keyword .if_, .keyword .while_,
    .keyword .print, .keyword .return_]

/-- Tokens are dropped while the last dropped one is no semicolon and the next one begins no
statement. -/
def skipFrom : Token → List Token → List Token
  | _, [] => []
  | last, t :: ts =>
    if last.kind == .symbol .semicolon || statementWords.contains t.kind then t :: ts
    else skipFrom t ts

/-- Where parsing goes on after a problem: at least one token is dropped. -/
def synchronize : List Token → List Token
  | [] => []
  | t :: ts => skipFrom t ts

theorem skipFrom_suffix (last : Token) (ts : List Token) : skipFrom last ts <:+ ts := by
  induction ts generalizing last with
  | nil => exact List.suffix_refl _
  | cons t ts ih =>
    unfold skipFrom
    split
    · exact List.suffix_refl _
    · exact (ih t).trans (List.suffix_cons t ts)

/-- Recovery only drops tokens. -/
theorem synchronize_suffix (ts : List Token) : synchronize ts <:+ ts := by
  cases ts with
  | nil => exact List.suffix_refl _
  | cons t ts => exact (skipFrom_suffix t ts).trans (List.suffix_cons t ts)

/-- Recovery drops at least one token. -/
theorem synchronize_length_lt {ts : List Token} (h : ts ≠ []) :
    (synchronize ts).length < ts.length := by
  cases ts with
  | nil => exact absurd rfl h
  | cons t ts => exact Nat.lt_succ_of_le (skipFrom_suffix t ts).length_le

/-- A step whose problems are recovered from: it then gives nothing, and the tokens are
synchronized. -/
def recovering {α : Type} (p : Parse α) : Parse (Option α) := fun c =>
  match p c with
  | .ok a c => .ok (some a) c
  | .error .malformed c => .ok none { c with rest := synchronize c.rest }
  | .error .outOfFuel c => .error .outOfFuel c

end Lox
