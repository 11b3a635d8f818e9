/-
**From text to tokens.**

A text is cut into pieces, each the longest that belongs to one of the lexical classes at the
place where the last one ended.  Strings, numbers, words and symbols become tokens; comments,
blanks and line ends are skipped; a character of no class and a string without an end are
reported.  A token and a report carry the line on which their piece ends.

Main definitions:

* `Lox.Piece` — a stretch of text with its lexical class;
* `Lox.nextPiece` — the first piece of a text, and what follows it;
* `Lox.pieces` — **all pieces of a text**;
* `Lox.Scan`, `Lox.scan` — the tokens, the findings and the last line of a text.

Main results:

* `Lox.nextPiece_append` — a piece and what follows it make up the text;
* `Lox.nextPiece_ne_nil` — no piece is empty;
* `Lox.pieces_flatten` — **nothing is lost**: the pieces of a text, put together, are the text.
-/

import Lox.Diagnostic.Basic

set_option relaxedAutoImplicit false
set_option autoImplicit false

namespace Lox

/-! ### Character classes -/

/-- Letters and the underscore: the characters a word begins with. -/
def isWordStart (c : Char) : Bool := c.isAlpha || c == '_'

/-- Letters, digits and the underscore. -/
def isWordChar (c : Char) : Bool := isWordStart c || c.isDigit

/-- Blanks within a line. -/
def isBlank (c : Char) : Bool := c == ' ' || c == '\r' || c == '\t'

/-! ### Pieces -/

/-- The lexical classes. -/
inductive PieceClass where
  | comment
  | string
  | unterminated
  | number
  | word
  | symbol (s : Symbol)
  | newline
  | blank
  | other
deriving DecidableEq

/-- A stretch of text with its lexical class. -/
structure Piece where
  cls : PieceClass
  text : List Char
deriving DecidableEq

/-- A piece that begins with `lead` and goes on while the characters are in `p`. -/
def runOf (cls : PieceClass) (lead : List Char) (p : Char → Bool) (cs : List Char) :
    Piece × List Char :=
  (⟨cls, lead ++ cs.takeWhile p⟩, cs.dropWhile p)

/-- A string after its opening quote: up to the next quote, or up to the end. -/
def stringPiece (cs : List Char) : Piece × List Char :=
  let body := cs.takeWhile (· != '"')
  match cs.dropWhile (· != '"') with
  | quote :: rest => (⟨.string, '"' :: body ++ [quote]⟩, rest)
  | [] => (⟨.unterminated, '"' :: body⟩, [])

/-- A number: digits, and a point only if a digit follows it. -/
def numberPiece (cs : List Char) : Piece × List Char :=
  let whole := cs.takeWhile Char.isDigit
  match cs.dropWhile Char.isDigit with
  | '.' :: d :: rest =>
    if d.isDigit then runOf .number (whole ++ ['.', d]) Char.isDigit rest
    else (⟨.number, whole⟩, '.' :: d :: rest)
  | rest => (⟨.number, whole⟩, rest)

/-- A symbol of one character, or a character of no class. -/
def singlePiece (c : Char) (cs : List Char) : Piece × List Char :=
  (⟨(Symbol.ofChars? [c]).elim .other .symbol, [c]⟩, cs)

/-- A symbol of two characters if there is one, else a single character. -/
def symbolPiece (c : Char) : List Char → Piece × List Char
  | [] => singlePiece c []
  | d :: rest =>
    match Symbol.ofChars? [c, d] with
    | some s => (⟨.symbol s, [c, d]⟩, rest)
    | none => singlePiece c (d :: rest)

/-- The first piece of a text that begins with `c`, and what follows it. -/
def nextPiece (c : Char) (cs : List Char) : Piece × List Char :=
  if c == '"' then stringPiece cs
  else if c == '\n' then (⟨.newline, ['\n']⟩, cs)
  else if isBlank c then runOf .blank [c] isBlank cs
  else if c.isDigit then numberPiece (c :: cs)
  else if isWordStart c then runOf .word [c] isWordChar cs
  else if c == '/' && cs.head? == some '/' then runOf .comment [c] (· != '\n') cs
  else symbolPiece c cs

theorem runOf_append (cls : PieceClass) (lead : List Char) (p : Char → Bool) (cs : List Char) :
    (runOf cls lead p cs).1.text ++ (runOf cls lead p cs).2 = lead ++ cs := by
  simp [runOf, List.append_assoc]

theorem stringPiece_append (cs : List Char) :
    (stringPiece cs).1.text ++ (stringPiece cs).2 = '"' :: cs := by
  have h : cs.takeWhile (· != '"') ++ cs.dropWhile (· != '"') = cs :=
    List.takeWhile_append_dropWhile
  unfold stringPiece
  split <;> rename_i hd <;> rw [hd] at h <;> simpa using h

theorem numberPiece_append (cs : List Char) :
    (numberPiece cs).1.text ++ (numberPiece cs).2 = cs := by
  have h : cs.takeWhile Char.isDigit ++ cs.dropWhile Char.isDigit = cs :=
    List.takeWhile_append_dropWhile
  unfold numberPiece
  split <;> rename_i hd
  · split
    · rw [runOf_append, List.append_assoc]
      rwa [hd] at h
    · rwa [hd] at h
  · exact h

theorem symbolPiece_append (c : Char) (cs : List Char) :
    (symbolPiece c cs).1.text ++ (symbolPiece c cs).2 = c :: cs := by
  unfold symbolPiece
  split
  · rfl
  · split <;> rfl

/-- A piece and what follows it make up the text. -/
theorem nextPiece_append (c : Char) (cs : List Char) :
    (nextPiece c cs).1.text ++ (nextPiece c cs).2 = c :: cs := by
  unfold nextPiece
  split
  · rename_i h
    rw [stringPiece_append, eq_of_beq h]
  split
  · rename_i h
    rw [eq_of_beq h]
    rfl
  split
  · exact runOf_append ..
  split
  · exact numberPiece_append _
  split
  · exact runOf_append ..
  split
  · exact runOf_append ..
  · exact symbolPiece_append c cs

/-- No piece is empty. -/
theorem nextPiece_ne_nil (c : Char) (cs : List Char) : (nextPiece c cs).1.text ≠ [] := by
  unfold nextPiece
  split
  · unfold stringPiece
    split <;> simp
  split
  · simp
  split
  · simp [runOf]
  split
  · rename_i hd
    unfold numberPiece
    simp only [List.takeWhile_cons, hd, if_true]
    split
    · split <;> simp [runOf]
    · simp
  split
  · simp [runOf]
  split
  · simp [runOf]
  · unfold symbolPiece
    split
    · simp [singlePiece]
    · split <;> simp [singlePiece]

/-- What follows a piece is shorter than the text. -/
theorem nextPiece_length_lt (c : Char) (cs : List Char) :
    (nextPiece c cs).2.length < (c :: cs).length := by
  have h := congrArg List.length (nextPiece_append c cs)
  have hpos := List.length_pos_iff.2 (nextPiece_ne_nil c cs)
  rw [List.length_append] at h
  omega

/-- Pieces, at most `n` of them. -/
def piecesF : Nat → List Char → List Piece
  | 0, _ => []
  | _, [] => []
  | n + 1, c :: cs => (nextPiece c cs).1 :: piecesF n (nextPiece c cs).2

/-- All the **pieces** of a text.  Each takes at least one character, so that the length of the text
bounds their number. -/
def pieces (cs : List Char) : List Piece := piecesF cs.length cs

theorem piecesF_flatten (n : Nat) (cs : List Char) (h : cs.length ≤ n) :
    ((piecesF n cs).map (·.text)).flatten = cs := by
  induction n generalizing cs with
  | zero => cases cs <;> simp_all [piecesF]
  | succ n ih =>
    cases cs with
    | nil => rfl
    | cons c cs =>
      have hlt := nextPiece_length_lt c cs
      simp only [piecesF, List.map_cons, List.flatten_cons]
      rw [ih _ (by omega), nextPiece_append]

/-- Nothing is lost: the pieces of a text, put together, are the text. -/
theorem pieces_flatten (cs : List Char) : ((pieces cs).map (·.text)).flatten = cs :=
  piecesF_flatten _ cs (Nat.le_refl _)

/-! ### Tokens and findings -/

/-- The number of line ends in a text. -/
def lineCount (cs : List Char) : Nat := cs.count '\n'

/-- What a text gives: its tokens before the end mark, its findings, and the line it ends on. -/
structure Scan where
  tokens : List Token
  findings : List Diagnostic
  lastLine : Nat
deriving DecidableEq

namespace Scan

/-- The end mark of a text. -/
def endMark (s : Scan) : Token := Token.endMark s.lastLine

/-- The tokens with the end mark. -/
def allTokens (s : Scan) : List Token := s.tokens ++ [s.endMark]

end Scan

/-- The value of a number's text. -/
def numberValue (text : List Char) : Number :=
  Number.ofDigits (text.takeWhile Char.isDigit) ((text.dropWhile Char.isDigit).drop 1)

/-- The token that a piece gives; `line` is the line the piece ends on. -/
def Piece.token? (p : Piece) (line : Nat) : Option Token :=
  let lexeme := String.ofList p.text
  match p.cls with
  | .string => some ⟨.string, lexeme, line, .string (String.ofList (p.text.drop 1).dropLast)⟩
  | .number => some ⟨.number, lexeme, line, .number (numberValue p.text)⟩
  | .word => some ⟨.ofWord lexeme, lexeme, line, .none⟩
  | .symbol s => some ⟨.symbol s, lexeme, line, .none⟩
  | _ => none

/-- The problem that a piece gives. -/
def Piece.problem? (p : Piece) : Option Problem :=
  match p.cls with
  | .unterminated => some .unterminatedString
  | .other => p.text.head?.map .unexpectedCharacter
  | _ => none

/-- The tokens and findings of a list of pieces, the first of which begins in line `line`. -/
def scanPieces : Nat → List Piece → Scan
  | line, [] => ⟨[], [], line⟩
  | line, p :: ps =>
    let last := line + lineCount p.text
    let rest := scanPieces last ps
    { rest with
      tokens := (p.token? last).toList ++ rest.tokens
      findings := (p.problem?.map fun problem => ⟨.line last, problem⟩).toList ++ rest.findings }

/-- The tokens and the findings of a text. -/
def scan (cs : List Char) : Scan := scanPieces 1 (pieces cs)

end Lox
