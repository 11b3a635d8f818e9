/-
**Texts put together at a line end.**

No piece of a text reaches over a line end but a string, so a text whose strings are all closed can
be cut there: the pieces of the two parts are the pieces of the whole, with the line end between
them.  The tokens and findings of the second part are those that it has by itself, with their lines
moved on by the lines of the first part.

Main definitions:

* `Lox.Token.below`, `Lox.Diagnostic.below`, `Lox.Scan.below` — the same on later lines;
* `Lox.Closed` — a text without an unterminated string.

Main results:

* `Lox.pieces_seam` — **the pieces of two texts** with a line end between them;
* `Lox.scan_seam` — **the tokens and findings** of two texts with a line end between them;
* `Lox.closed_of_findings` — a text without findings is closed;
* `Lox.scan_lines` — the lines of the tokens of a text.
-/

import Lox.Token.Lexer

set_option relaxedAutoImplicit false
set_option autoImplicit false

namespace Lox

/-! ### Pieces -/

section

variable {p : Char → Bool}

/-- A run of characters ends where a character is not one of them. -/
theorem takeWhile_seam (hp : p '\n' = false) (cs rest : List Char) :
    (cs ++ '\n' :: rest).takeWhile p = cs.takeWhile p := by
  induction cs with
  | nil => simp [hp]
  | cons c cs ih => simp only [List.cons_append, List.takeWhile_cons, ih]

theorem dropWhile_seam (hp : p '\n' = false) (cs rest : List Char) :
    (cs ++ '\n' :: rest).dropWhile p = cs.dropWhile p ++ '\n' :: rest := by
  induction cs with
  | nil => simp [hp]
  | cons c cs ih =>
    simp only [List.cons_append, List.dropWhile_cons, ih]
    split <;> rfl

theorem runOf_seam (hp : p '\n' = false) (cls : PieceClass) (lead cs rest : List Char) :
    runOf cls lead p (cs ++ '\n' :: rest) =
      ((runOf cls lead p cs).1, (runOf cls lead p cs).2 ++ '\n' :: rest) := by
  simp only [runOf, takeWhile_seam hp, dropWhile_seam hp]

end

/-- A run of characters that does not go on to the end of a text goes no further in a longer
one. -/
theorem takeWhile_dropWhile_of_ne_nil {p : Char → Bool} {cs : List Char} (h : cs.dropWhile p ≠ [])
    (rest : List Char) :
    (cs ++ rest).takeWhile p = cs.takeWhile p ∧
      (cs ++ rest).dropWhile p = cs.dropWhile p ++ rest := by
  induction cs with
  | nil => exact absurd rfl h
  | cons c cs ih =>
    simp only [List.cons_append, List.takeWhile_cons, List.dropWhile_cons] at h ⊢
    split
    · rename_i hc
      rw [if_pos hc] at h
      obtain ⟨htake, hdrop⟩ := ih h
      exact ⟨by rw [htake], hdrop⟩
    · exact ⟨rfl, rfl⟩

/-- A string that is closed ends before the line end. -/
theorem stringPiece_seam {cs : List Char} (h : (stringPiece cs).1.cls ≠ .unterminated)
    (rest : List Char) :
    stringPiece (cs ++ '\n' :: rest) =
      ((stringPiece cs).1, (stringPiece cs).2 ++ '\n' :: rest) := by
  have hne : cs.dropWhile (· != '"') ≠ [] := by
    intro hnil
    rw [stringPiece, hnil] at h
    exact h rfl
  obtain ⟨htake, hdrop⟩ := takeWhile_dropWhile_of_ne_nil hne ('\n' :: rest)
  obtain ⟨quote, after, hquote⟩ := List.exists_cons_of_ne_nil hne
  simp only [stringPiece, htake, hdrop, hquote, List.cons_append]

theorem numberPiece_seam (cs rest : List Char) :
    numberPiece (cs ++ '\n' :: rest) =
      ((numberPiece cs).1, (numberPiece cs).2 ++ '\n' :: rest) := by
  have hdigit : Char.isDigit '\n' = false := by decide
  unfold numberPiece
  rw [takeWhile_seam hdigit, dropWhile_seam hdigit]
  rcases cs.dropWhile Char.isDigit with - | ⟨c, - | ⟨d, after⟩⟩
  · rfl
  · by_cases hc : c = '.'
    · subst hc
      simp [hdigit]
    · simp [hc]
  · by_cases hc : c = '.'
    · subst hc
      simp only [List.cons_append]
      split
      · exact runOf_seam hdigit ..
      · rfl
    · simp [hc]

/-- A line end is part of no symbol. -/
theorem ofChars?_newline (c : Char) : Symbol.ofChars? [c, '\n'] = none := by
  cases h : Symbol.ofChars? [c, '\n'] with
  | none => rfl
  | some s =>
    have hchars := Symbol.chars_of_ofChars? h
    cases s <;> simp [Symbol.chars] at hchars

theorem symbolPiece_seam (c : Char) (cs rest : List Char) :
    symbolPiece c (cs ++ '\n' :: rest) =
      ((symbolPiece c cs).1, (symbolPiece c cs).2 ++ '\n' :: rest) := by
  cases cs with
  | nil => simp only [List.nil_append, symbolPiece, ofChars?_newline, singlePiece]
  | cons d cs =>
    simp only [List.cons_append, symbolPiece]
    split <;> rfl

/-- **No piece but an unterminated string reaches over a line end.** -/
theorem nextPiece_seam {c : Char} {cs : List Char} (h : (nextPiece c cs).1.cls ≠ .unterminated)
    (rest : List Char) :
    nextPiece c (cs ++ '\n' :: rest) =
      ((nextPiece c cs).1, (nextPiece c cs).2 ++ '\n' :: rest) := by
  have hhead : ((cs ++ '\n' :: rest).head? == some '/') = (cs.head? == some '/') := by
    cases cs <;> rfl
  unfold nextPiece at h ⊢
  rw [hhead]
  split
  · rename_i hq
    rw [if_pos hq] at h
    exact stringPiece_seam h rest
  split
  · rfl
  split
  · exact runOf_seam (by decide) ..
  split
  · exact numberPiece_seam (c :: cs) rest
  split
  · exact runOf_seam (by decide) ..
  split
  · exact runOf_seam (by decide) ..
  · exact symbolPiece_seam c cs rest

/-- Fuel beyond the length of the text makes no difference. -/
theorem piecesF_congr (n : Nat) : ∀ (m : Nat) (cs : List Char), cs.length ≤ n → cs.length ≤ m →
    piecesF n cs = piecesF m cs := by
  induction n with
  | zero =>
    intro m cs hn _
    obtain rfl : cs = [] := List.length_eq_zero_iff.1 (by omega)
    cases m <;> rfl
  | succ n ih =>
    intro m cs hn hm
    cases cs with
    | nil => cases m <;> rfl
    | cons c cs =>
      obtain ⟨m, rfl⟩ : ∃ k, m = k + 1 := ⟨m - 1, by simp only [List.length_cons] at hm; omega⟩
      have hlt := nextPiece_length_lt c cs
      simp only [piecesF]
      rw [ih m _ (by omega) (by omega)]

theorem pieces_cons (c : Char) (cs : List Char) :
    pieces (c :: cs) = (nextPiece c cs).1 :: pieces (nextPiece c cs).2 := by
  have hlt := nextPiece_length_lt c cs
  simp only [List.length_cons] at hlt
  simp only [pieces, List.length_cons, piecesF]
  rw [piecesF_congr _ _ _ (Nat.le_of_lt_succ hlt) (Nat.le_refl _)]

/-- A text without an unterminated string. -/
def Closed (cs : List Char) : Prop := ∀ p ∈ pieces cs, p.cls ≠ .unterminated

/-- The piece that a line end is. -/
def lineEnd : Piece := ⟨.newline, ['\n']⟩

/-- **The pieces of two texts** with a line end between them. -/
theorem pieces_seam (cs : List Char) (hcs : Closed cs) (rest : List Char) :
    pieces (cs ++ '\n' :: rest) = pieces cs ++ lineEnd :: pieces rest := by
  -- By induction on the length: the first piece is taken off both sides.
  generalize hlen : cs.length = n
  induction n using Nat.strongRecOn generalizing cs with
  | ind n ih =>
    cases cs with
    | nil => exact pieces_cons '\n' rest
    | cons c cs =>
      have hlt := nextPiece_length_lt c cs
      have hpieces := pieces_cons c cs
      have hfirst : (nextPiece c cs).1.cls ≠ .unterminated :=
        hcs _ (hpieces ▸ List.mem_cons_self ..)
      have hrest : Closed (nextPiece c cs).2 := fun p hp =>
        hcs p (hpieces ▸ List.mem_cons_of_mem _ hp)
      rw [List.cons_append, pieces_cons, nextPiece_seam hfirst, hpieces, List.cons_append]
      dsimp only
      rw [ih _ (by omega) _ hrest rfl]

/-! ### Tokens and findings -/

/-- The same token `k` lines further down. -/
def Token.below (k : Nat) (t : Token) : Token := { t with line := t.line + k }

/-- The same place `k` lines further down. -/
def Place.below (k : Nat) : Place → Place
  | .line n => .line (n + k)
  | .token t => .token (t.below k)

/-- The same finding `k` lines further down. -/
def Diagnostic.below (k : Nat) (d : Diagnostic) : Diagnostic := { d with place := d.place.below k }

/-- The same tokens and findings `k` lines further down. -/
def Scan.below (k : Nat) (s : Scan) : Scan where
  tokens := s.tokens.map (Token.below k)
  findings := s.findings.map (Diagnostic.below k)
  lastLine := s.lastLine + k

theorem Piece.token?_below (p : Piece) (line k : Nat) :
    p.token? (line + k) = (p.token? line).map (Token.below k) := by
  obtain ⟨cls, text⟩ := p
  cases cls <;> simp [Piece.token?, Token.below]

/-- Pieces that begin `k` lines further down. -/
theorem scanPieces_below (k : Nat) (ps : List Piece) (line : Nat) :
    scanPieces (line + k) ps = (scanPieces line ps).below k := by
  induction ps generalizing line with
  | nil => rfl
  | cons p ps ih =>
    have hlast : line + k + lineCount p.text = line + lineCount p.text + k := by omega
    simp only [scanPieces, hlast]
    generalize line + lineCount p.text = last
    rw [ih, Piece.token?_below p last k]
    cases p.token? last <;> cases p.problem? <;>
      simp [Scan.below, Diagnostic.below, Place.below]

/-- The tokens and findings of pieces one after the other. -/
theorem scanPieces_append (ps qs : List Piece) (line : Nat) :
    scanPieces line (ps ++ qs) =
      { tokens := (scanPieces line ps).tokens ++
          (scanPieces (scanPieces line ps).lastLine qs).tokens
        findings := (scanPieces line ps).findings ++
          (scanPieces (scanPieces line ps).lastLine qs).findings
        lastLine := (scanPieces (scanPieces line ps).lastLine qs).lastLine } := by
  induction ps generalizing line with
  | nil => rfl
  | cons p ps ih => simp only [List.cons_append, scanPieces, ih, List.append_assoc]

/-- The last line is as many lines on as there are line ends. -/
theorem scanPieces_lastLine (ps : List Piece) (line : Nat) :
    (scanPieces line ps).lastLine = line + lineCount (ps.map (·.text)).flatten := by
  induction ps generalizing line with
  | nil => rfl
  | cons p ps ih =>
    simp only [scanPieces, ih, List.map_cons, List.flatten_cons, lineCount, List.count_append]
    omega

theorem scan_lastLine (cs : List Char) : (scan cs).lastLine = 1 + lineCount cs := by
  rw [scan, scanPieces_lastLine, pieces_flatten]

/-- **Tokens and findings** of two texts with a line end between them: those of the second part are
moved on by the lines of the first. -/
theorem scan_seam (cs : List Char) (hcs : Closed cs) (rest : List Char) :
    scan (cs ++ '\n' :: rest) =
      { tokens := (scan cs).tokens ++ ((scan rest).below (1 + lineCount cs)).tokens
        findings := (scan cs).findings ++ ((scan rest).below (1 + lineCount cs)).findings
        lastLine := ((scan rest).below (1 + lineCount cs)).lastLine } := by
  have hline : scanPieces (scan cs).lastLine (lineEnd :: pieces rest) =
      (scan rest).below (1 + lineCount cs) := by
    have hbelow := scanPieces_below (1 + lineCount cs) (pieces rest) 1
    rw [scan_lastLine]
    simp only [scanPieces, lineEnd, lineCount, Piece.token?, Piece.problem?, Option.toList_none,
      Option.map_none, List.nil_append, List.count_singleton_self] at hbelow ⊢
    rw [Nat.add_comm _ 1, hbelow]
    rfl
  have hwhole : scan (cs ++ '\n' :: rest) =
      scanPieces 1 (pieces cs ++ lineEnd :: pieces rest) := by
    rw [scan, pieces_seam cs hcs]
  rw [hwhole, scanPieces_append, ← hline]
  rfl

/-! ### Texts without findings -/

/-- An unterminated string is reported. -/
theorem closed_of_unreported {cs : List Char}
    (h : ∀ d ∈ (scan cs).findings, d.problem ≠ .unterminatedString) : Closed cs := by
  have hpieces : ∀ (ps : List Piece) (line : Nat),
      (∀ d ∈ (scanPieces line ps).findings, d.problem ≠ .unterminatedString) →
      ∀ p ∈ ps, p.cls ≠ .unterminated := by
    intro ps
    induction ps with
    | nil => exact fun _ _ p hp => absurd hp (by simp)
    | cons q ps ih =>
      intro line h p hp
      simp only [scanPieces, List.mem_append] at h
      rcases List.mem_cons.1 hp with rfl | hp
      · intro hcls
        refine h ⟨.line (line + lineCount p.text : Nat), .unterminatedString⟩ (.inl ?_) rfl
        simp [Piece.problem?, hcls]
      · exact ih _ (fun d hd => h d (.inr hd)) p hp
  exact hpieces (pieces cs) 1 h

/-- A text without findings has no unterminated string. -/
theorem closed_of_findings {cs : List Char} (h : (scan cs).findings = []) : Closed cs :=
  closed_of_unreported (by simp [h])

/-! ### Lines -/

theorem Piece.token?_line {p : Piece} {line : Nat} {t : Token} (h : p.token? line = some t) :
    t.line = line := by
  obtain ⟨cls, text⟩ := p
  cases cls <;> simp [Piece.token?] at h <;> rw [← h]

theorem scanPieces_lines (ps : List Piece) (line : Nat) :
    ∀ t ∈ (scanPieces line ps).tokens,
      (line : Int) ≤ t.line ∧ t.line ≤ (scanPieces line ps).lastLine := by
  induction ps generalizing line with
  | nil => simp [scanPieces]
  | cons p ps ih =>
    intro t ht
    have hlast := scanPieces_lastLine ps (line + lineCount p.text)
    simp only [scanPieces, List.mem_append] at ht ⊢
    rcases ht with ht | ht
    · have hline := Piece.token?_line (Option.mem_toList.1 ht)
      omega
    · have hline := ih _ t ht
      omega

/-- The tokens of a text are on its lines, which are counted from one. -/
theorem scan_lines (cs : List Char) :
    ∀ t ∈ (scan cs).tokens, 1 ≤ t.line ∧ t.line ≤ (1 + lineCount cs : Nat) := by
  intro t ht
  have h := scanPieces_lines (pieces cs) 1 t ht
  rw [show scanPieces 1 (pieces cs) = scan cs from rfl, scan_lastLine] at h
  exact h

end Lox
