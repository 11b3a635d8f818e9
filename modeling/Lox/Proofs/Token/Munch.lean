/-
**Longest pieces.**

The lexical classes said by themselves: which stretches of text are comments, strings, numbers,
words, symbols, line ends and blanks, and which characters are of no class.  A text can be cut into
stretches of these classes in two ways.  One takes the longest stretch of any class each time; the
other tries the classes in a fixed order, and takes the longest stretch of the first class that has
one.  The two cut every text alike, and into the pieces that the tokens are made from.

Main definitions:

* `Lox.Belongs` — **the lexical classes**;
* `Lox.LongestFirst`, `Lox.EarliestFirst` — the longest stretch of any class, and the longest one of
  the earliest class;
* `Lox.Cut` — a text cut into pieces, each of which is the first one of the rest;
* `Lox.Piece.Yields`, `Lox.Piece.Reports` — the token and the finding that a piece stands for;
* `Lox.markedPieces`, `Lox.ReadOff` — the lines that pieces end on, and **what is read** off pieces.

Main results:

* `Lox.nextPiece_belongs`, `Lox.Belongs.within` — the first piece is of its class, and no stretch is
  longer or of an earlier class;
* `Lox.cut_longest_iff`, `Lox.cut_earliest_iff` — either way there is one cut only;
* `Lox.scan_maximal` — **the tokens and findings of a text** are read off its longest pieces.
-/

import Mathlib.Data.List.Forall2
import Mathlib.Data.List.TakeWhile
import Lox.Proofs.Token.Seam

set_option relaxedAutoImplicit false
set_option autoImplicit false

namespace Lox

/-! ### The lexical classes -/

/-- A character that no stretch of the other classes begins with. -/
structure IsOther (c : Char) : Prop where
  quote : c ≠ '"'
  newline : c ≠ '\n'
  blank : isBlank c = false
  digit : c.isDigit = false
  word : isWordStart c = false
  symbol : ∀ s : Symbol, s.chars ≠ [c]

/-- The **lexical classes**: a stretch of text that belongs to a class, where `rest` is what follows
it.  Only an unterminated string depends on what follows: it goes up to the end of the text. -/
inductive Belongs : PieceClass → List Char → List Char → Prop
  | comment {body : List Char} (hbody : '\n' ∉ body) (rest : List Char) :
      Belongs .comment ('/' :: '/' :: body) rest
  | string {body : List Char} (hbody : '"' ∉ body) (rest : List Char) :
      Belongs .string ('"' :: body ++ ['"']) rest
  | unterminated {body : List Char} (hbody : '"' ∉ body) : Belongs .unterminated ('"' :: body) []
  | whole {digits : List Char} (hne : digits ≠ []) (hdigits : ∀ c ∈ digits, c.isDigit = true)
      (rest : List Char) : Belongs .number digits rest
  | decimal {digits places : List Char} (hne : digits ≠ [])
      (hdigits : ∀ c ∈ digits, c.isDigit = true) (hne' : places ≠ [])
      (hplaces : ∀ c ∈ places, c.isDigit = true) (rest : List Char) :
      Belongs .number (digits ++ '.' :: places) rest
  | word {c : Char} {cs : List Char} (hc : isWordStart c = true)
      (hcs : ∀ d ∈ cs, isWordChar d = true) (rest : List Char) : Belongs .word (c :: cs) rest
  | symbol (s : Symbol) (rest : List Char) : Belongs (.symbol s) s.chars rest
  | newline (rest : List Char) : Belongs .newline ['\n'] rest
  | blank {blanks : List Char} (hne : blanks ≠ []) (hblanks : ∀ c ∈ blanks, isBlank c = true)
      (rest : List Char) : Belongs .blank blanks rest
  | other {c : Char} (hc : IsOther c) (rest : List Char) : Belongs .other [c] rest

theorem Symbol.chars_ne_nil (s : Symbol) : s.chars ≠ [] := by cases s <;> decide

theorem Belongs.ne_nil {cls : PieceClass} {text rest : List Char} (h : Belongs cls text rest) :
    text ≠ [] := by
  cases h with
  | whole hne => exact hne
  | blank hne => exact hne
  | symbol s => exact s.chars_ne_nil
  | _ => simp

/-- The place of a class in the order in which the classes are tried; a symbol of two characters
comes before those of one. -/
def PieceClass.turn : PieceClass → Nat
  | comment => 0
  | string => 1
  | unterminated => 2
  | number => 3
  | word => 4
  | symbol s => if s.chars.length = 2 then 5 else 6
  | newline => 7
  | blank => 8
  | other => 9

/-! ### Cutting a text -/

/-- A piece is the **longest** stretch of any class that the text begins with. -/
structure LongestFirst (cs : List Char) (p : Piece) (rest : List Char) : Prop where
  split : cs = p.text ++ rest
  belongs : Belongs p.cls p.text rest
  longest : ∀ {cls : PieceClass} {text rest' : List Char}, cs = text ++ rest' →
    Belongs cls text rest' → text.length ≤ p.text.length

/-- A piece is the longest stretch of the **earliest class** that the text begins with a stretch
of. -/
structure EarliestFirst (cs : List Char) (p : Piece) (rest : List Char) : Prop where
  split : cs = p.text ++ rest
  belongs : Belongs p.cls p.text rest
  earliest : ∀ {cls : PieceClass} {text rest' : List Char}, cs = text ++ rest' →
    Belongs cls text rest' → p.cls.turn ≤ cls.turn
  longest : ∀ {text rest' : List Char}, cs = text ++ rest' → Belongs p.cls text rest' →
    text.length ≤ p.text.length

/-- A text **cut into pieces**, each of which is the first one of what is left. -/
inductive Cut (First : List Char → Piece → List Char → Prop) : List Char → List Piece → Prop
  | nil : Cut First [] []
  | cons {cs rest : List Char} {p : Piece} {ps : List Piece} (hfirst : First cs p rest)
      (hrest : Cut First rest ps) : Cut First cs (p :: ps)

/-! ### The first piece, by its first character -/

section

variable {c : Char}

theorem blank_cases (h : isBlank c = true) : c = ' ' ∨ c = '\r' ∨ c = '\t' := by
  simpa [isBlank, or_assoc] using h

theorem isDigit_of_blank (h : isBlank c = true) : c.isDigit = false ∧ isWordStart c = false := by
  rcases blank_cases h with rfl | rfl | rfl <;> decide

theorem isBlank_of_digit (h : c.isDigit = true) : isBlank c = false := by
  cases hb : isBlank c with
  | false => rfl
  | true => exact absurd h (by simp [(isDigit_of_blank hb).1])

theorem isBlank_of_wordStart (h : isWordStart c = true) : isBlank c = false := by
  cases hb : isBlank c with
  | false => rfl
  | true => exact absurd h (by simp [(isDigit_of_blank hb).2])

theorem isDigit_of_wordStart (h : isWordStart c = true) : c.isDigit = false := by
  by_cases hc : c = '_'
  · subst hc
    decide
  · unfold isWordStart at h
    delta Char.isAlpha Char.isUpper Char.isLower at h
    delta Char.isDigit
    grind

end

section

variable {c : Char} (cs : List Char)

theorem nextPiece_blank (hc : isBlank c = true) :
    nextPiece c cs = runOf .blank [c] isBlank cs := by
  rcases blank_cases hc with rfl | rfl | rfl <;> rfl

theorem nextPiece_digit (hc : c.isDigit = true) : nextPiece c cs = numberPiece (c :: cs) := by
  have hquote : c ≠ '"' := by
    rintro rfl
    exact absurd hc (by decide)
  have hline : c ≠ '\n' := by
    rintro rfl
    exact absurd hc (by decide)
  simp [nextPiece, hquote, hline, isBlank_of_digit hc, hc]

theorem nextPiece_word (hc : isWordStart c = true) :
    nextPiece c cs = runOf .word [c] isWordChar cs := by
  have hquote : c ≠ '"' := by
    rintro rfl
    exact absurd hc (by decide)
  have hline : c ≠ '\n' := by
    rintro rfl
    exact absurd hc (by decide)
  simp [nextPiece, hquote, hline, isBlank_of_wordStart hc, isDigit_of_wordStart hc, hc]

theorem nextPiece_other (hc : IsOther c) : nextPiece c cs = symbolPiece c cs := by
  have hslash : c ≠ '/' := fun h => hc.symbol .slash (by rw [h]; rfl)
  simp [nextPiece, hc.quote, hc.newline, hc.blank, hc.digit, hc.word, hslash]

end

/-! ### The first piece is of its class -/

theorem not_mem_takeWhile {x : Char} {cs : List Char} : x ∉ cs.takeWhile (· != x) := by
  intro hx
  simpa using List.mem_takeWhile_imp hx

theorem stringPiece_belongs (cs : List Char) :
    Belongs (stringPiece cs).1.cls (stringPiece cs).1.text (stringPiece cs).2 := by
  unfold stringPiece
  split
  · rename_i quote rest hdrop
    have hquote : quote = '"' := by
      have hhead := List.head?_dropWhile_not (· != '"') cs
      simpa [hdrop] using hhead
    subst hquote
    exact .string not_mem_takeWhile rest
  · exact .unterminated not_mem_takeWhile

theorem numberPiece_belongs {cs : List Char} (hne : cs.takeWhile Char.isDigit ≠ []) :
    Belongs (numberPiece cs).1.cls (numberPiece cs).1.text (numberPiece cs).2 := by
  unfold numberPiece
  split
  · rename_i d rest hdrop
    split
    · rename_i hd
      have hplaces : ∀ c ∈ d :: rest.takeWhile Char.isDigit, c.isDigit = true := by
        rintro c (_ | ⟨_, hc⟩)
        · exact hd
        · exact List.mem_takeWhile_imp hc
      have h := Belongs.decimal hne (fun _ => List.mem_takeWhile_imp) (List.cons_ne_nil _ _) hplaces
        (rest.dropWhile Char.isDigit)
      simpa [runOf] using h
    · exact .whole hne (fun _ => List.mem_takeWhile_imp) _
  · exact .whole hne (fun _ => List.mem_takeWhile_imp) _

/-- A character with which no piece but a symbol begins. -/
theorem symbolPiece_belongs {c : Char} {cs : List Char}
    (hc : Symbol.ofChars? [c] = none → IsOther c) :
    Belongs (symbolPiece c cs).1.cls (symbolPiece c cs).1.text (symbolPiece c cs).2 := by
  have hsingle : ∀ rest, Belongs (singlePiece c rest).1.cls (singlePiece c rest).1.text rest := by
    intro rest
    cases h : Symbol.ofChars? [c] with
    | none =>
      simp only [singlePiece, h, Option.elim_none]
      exact .other (hc h) rest
    | some s =>
      simp only [singlePiece, h, Option.elim_some]
      rw [← Symbol.chars_of_ofChars? h]
      exact .symbol s rest
  cases cs with
  | nil => exact hsingle []
  | cons d rest =>
    unfold symbolPiece
    dsimp only
    split
    · rename_i s hs
      rw [← Symbol.chars_of_ofChars? hs]
      exact .symbol s rest
    · exact hsingle (d :: rest)

/-- The first piece of a text belongs to its class. -/
theorem nextPiece_belongs (c : Char) (cs : List Char) :
    Belongs (nextPiece c cs).1.cls (nextPiece c cs).1.text (nextPiece c cs).2 := by
  unfold nextPiece
  split
  · exact stringPiece_belongs cs
  rename_i hquote
  split
  · exact .newline cs
  rename_i hline
  split
  · rename_i hc
    refine .blank (by simp [runOf]) ?_ _
    rintro d (_ | ⟨_, hd⟩)
    · exact hc
    · exact List.mem_takeWhile_imp hd
  rename_i hblank
  split
  · rename_i hc
    exact numberPiece_belongs (by simp [hc])
  rename_i hdigit
  split
  · rename_i hc
    exact .word hc (fun _ => List.mem_takeWhile_imp) _
  rename_i hword
  split
  · rename_i hc
    simp only [Bool.and_eq_true, beq_iff_eq] at hc
    obtain ⟨rfl, hhead⟩ := hc
    obtain ⟨cs, rfl⟩ : ∃ cs', cs = '/' :: cs' := by
      cases cs with
      | nil => cases hhead
      | cons d cs => exact ⟨cs, by rw [Option.some.inj hhead]⟩
    simp only [runOf, List.takeWhile_cons, List.dropWhile_cons]
    exact .comment not_mem_takeWhile _
  · refine symbolPiece_belongs fun hnone => ?_
    refine ⟨by simpa using hquote, by simpa using hline, by simpa using hblank,
      by simpa using hdigit, by simpa using hword, fun s hs => ?_⟩
    rw [← hs, Symbol.ofChars?_chars] at hnone
    cases hnone

/-! ### No stretch is longer, or of an earlier class -/

/-- A stretch of text **does not surpass** a piece: it is not longer and not of an earlier class,
and a stretch of another class is shorter and of a later one. -/
structure Within (cls : PieceClass) (text : List Char) (p : Piece) : Prop where
  length_le : text.length ≤ p.text.length
  turn_le : p.cls.turn ≤ cls.turn
  same : text.length = p.text.length ∨ cls.turn = p.cls.turn → cls = p.cls

/-- A stretch of the same class. -/
theorem Within.of_length {text : List Char} {p : Piece} (h : text.length ≤ p.text.length) :
    Within p.cls text p :=
  ⟨h, Nat.le_refl _, fun _ => rfl⟩

/-- A run of characters takes in every stretch of them. -/
theorem length_le_takeWhile {p : Char → Bool} {cs : List Char} (h : ∀ c ∈ cs, p c = true)
    (rest : List Char) : cs.length ≤ ((cs ++ rest).takeWhile p).length := by
  rw [List.takeWhile_append_of_pos h, List.length_append]
  exact Nat.le_add_right _ _

theorem takeWhile_exact {p : Char → Bool} {cs : List Char} (h : ∀ c ∈ cs, p c = true) {d : Char}
    (hd : p d = false) (rest : List Char) :
    (cs ++ d :: rest).takeWhile p = cs ∧ (cs ++ d :: rest).dropWhile p = d :: rest := by
  rw [List.takeWhile_append_of_pos h, List.dropWhile_append_of_pos h]
  simp [hd]

theorem takeWhile_all {p : Char → Bool} {cs : List Char} (h : ∀ c ∈ cs, p c = true) :
    cs.takeWhile p = cs ∧ cs.dropWhile p = [] := by
  induction cs with
  | nil => exact ⟨rfl, rfl⟩
  | cons c cs ih =>
    have ih := ih fun d hd => h d (List.mem_cons_of_mem c hd)
    simp [h c, ih]

theorem ne_of_not_mem {x : Char} {cs : List Char} (h : x ∉ cs) : ∀ c ∈ cs, (c != x) = true := by
  intro c hc
  rw [bne_iff_ne]
  rintro rfl
  exact h hc

theorem string_within {body : List Char} (hbody : '"' ∉ body) (rest : List Char) :
    Within .string ('"' :: body ++ ['"']) (nextPiece '"' (body ++ '"' :: rest)).1 := by
  obtain ⟨htake, hdrop⟩ := takeWhile_exact (ne_of_not_mem hbody)
    (by decide : ('"' != '"') = false) rest
  have hpiece : (nextPiece '"' (body ++ '"' :: rest)).1 = ⟨.string, '"' :: body ++ ['"']⟩ := by
    change (stringPiece _).1 = _
    simp only [stringPiece, htake, hdrop]
  rw [hpiece]
  exact .of_length (p := ⟨.string, _⟩) (Nat.le_refl _)

theorem unterminated_within {body : List Char} (hbody : '"' ∉ body) :
    Within .unterminated ('"' :: body) (nextPiece '"' body).1 := by
  obtain ⟨htake, hdrop⟩ := takeWhile_all (ne_of_not_mem hbody)
  have hpiece : (nextPiece '"' body).1 = ⟨.unterminated, '"' :: body⟩ := by
    change (stringPiece _).1 = _
    simp only [stringPiece, htake, hdrop]
  rw [hpiece]
  exact .of_length (p := ⟨.unterminated, _⟩) (Nat.le_refl _)

theorem numberPiece_cls (cs : List Char) : (numberPiece cs).1.cls = .number := by
  unfold numberPiece
  split
  · split <;> rfl
  · rfl

/-- A number takes in all the digits that the text begins with. -/
theorem length_le_numberPiece (cs : List Char) :
    (cs.takeWhile Char.isDigit).length ≤ (numberPiece cs).1.text.length := by
  unfold numberPiece
  split
  · split
    · simp only [runOf, List.length_append]
      omega
    · exact Nat.le_refl _
  · exact Nat.le_refl _

theorem whole_within {digits : List Char} (hdigits : ∀ c ∈ digits, c.isDigit = true)
    (rest : List Char) : Within .number digits (numberPiece (digits ++ rest)).1 := by
  rw [← numberPiece_cls (digits ++ rest)]
  exact .of_length (Nat.le_trans (length_le_takeWhile hdigits rest) (length_le_numberPiece _))

theorem decimal_within {digits places : List Char} (hdigits : ∀ c ∈ digits, c.isDigit = true)
    (hne : places ≠ []) (hplaces : ∀ c ∈ places, c.isDigit = true) (rest : List Char) :
    Within .number (digits ++ '.' :: places) (numberPiece (digits ++ '.' :: places ++ rest)).1 := by
  obtain ⟨d, places, rfl⟩ := List.exists_cons_of_ne_nil hne
  obtain ⟨htake, hdrop⟩ := takeWhile_exact hdigits (by decide : Char.isDigit '.' = false)
    (d :: places ++ rest)
  have hd : d.isDigit = true := hplaces d (by simp)
  have hle := length_le_takeWhile (fun c hc => hplaces c (List.mem_cons_of_mem d hc)) rest
  have hpiece : (numberPiece (digits ++ '.' :: (d :: places) ++ rest)).1 =
      ⟨.number, digits ++ ['.', d] ++ (places ++ rest).takeWhile Char.isDigit⟩ := by
    rw [List.append_assoc, List.cons_append, numberPiece, htake, hdrop]
    simp [hd, runOf]
  rw [hpiece]
  refine .of_length (p := ⟨.number, _⟩) ?_
  simp only [List.length_append, List.length_cons, List.length_nil]
  omega

namespace Symbol

/-- A symbol has one or two characters. -/
theorem chars_cases (s : Symbol) : (∃ c, s.chars = [c]) ∨ ∃ c d, s.chars = [c, d] := by
  cases s <;> simp [chars]

/-- The first character of a symbol is one by itself. -/
theorem first_of_chars {s : Symbol} {c d : Char} (h : s.chars = [c, d]) :
    ∃ s' : Symbol, s'.chars = [c] := by
  cases s <;> simp [chars] at h
  case bangEqual => exact ⟨.bang, by rw [← h.1]; rfl⟩
  case equalEqual => exact ⟨.equal, by rw [← h.1]; rfl⟩
  case greaterEqual => exact ⟨.greater, by rw [← h.1]; rfl⟩
  case lessEqual => exact ⟨.less, by rw [← h.1]; rfl⟩

end Symbol

/-- A text that begins with a symbol of two characters. -/
theorem nextPiece_double {s : Symbol} {c d : Char} (h : s.chars = [c, d]) (rest : List Char) :
    nextPiece c (d :: rest) = (⟨.symbol s, [c, d]⟩, rest) := by
  cases s <;> simp only [Symbol.chars, List.cons.injEq, reduceCtorEq, and_false, and_true] at h
  all_goals
    obtain ⟨rfl, rfl⟩ := h
    rfl

/-- A text that begins with a symbol of one character: a slash may begin a comment. -/
theorem nextPiece_single {s : Symbol} {c : Char} (h : s.chars = [c]) (cs : List Char) :
    nextPiece c cs =
      if c == '/' && cs.head? == some '/' then runOf .comment [c] (· != '\n') cs
      else symbolPiece c cs := by
  cases s <;> simp only [Symbol.chars, List.cons.injEq, reduceCtorEq, and_false, and_true] at h
  all_goals
    subst h
    rfl

theorem single_within {s : Symbol} {c : Char} (h : s.chars = [c]) (cs : List Char) :
    Within (.symbol s) [c] (nextPiece c cs).1 := by
  have hturn : PieceClass.turn (.symbol s) = 6 := by simp [PieceClass.turn, h]
  have hfound : Symbol.ofChars? [c] = some s := by rw [← h, Symbol.ofChars?_chars]
  have hsingle : Within (.symbol s) [c] (singlePiece c cs).1 := by
    simp only [singlePiece, hfound, Option.elim_some]
    exact .of_length (p := ⟨.symbol s, _⟩) (Nat.le_refl _)
  rw [nextPiece_single h]
  split
  · -- A comment is longer, and comments are tried before symbols.
    rename_i hslash
    simp only [Bool.and_eq_true, beq_iff_eq] at hslash
    obtain ⟨rfl, hhead⟩ := hslash
    obtain ⟨cs, rfl⟩ : ∃ cs', cs = '/' :: cs' := by
      cases cs with
      | nil => cases hhead
      | cons d cs => exact ⟨cs, by rw [Option.some.inj hhead]⟩
    refine ⟨by simp [runOf], by simp [runOf, PieceClass.turn], ?_⟩
    rw [hturn]
    simp [runOf, PieceClass.turn]
  · cases cs with
    | nil => exact hsingle
    | cons d rest =>
      unfold symbolPiece
      dsimp only
      split
      · -- A symbol of two characters is longer, and tried before.
        rename_i s' hs'
        have hturn' : PieceClass.turn (.symbol s') = 5 := by
          simp [PieceClass.turn, Symbol.chars_of_ofChars? hs']
        refine ⟨by simp, by dsimp only; omega, ?_⟩
        dsimp only
        rw [hturn, hturn']
        simp
      · exact hsingle

theorem symbol_within (s : Symbol) {c : Char} {cs rest : List Char}
    (hsplit : c :: cs = s.chars ++ rest) : Within (.symbol s) s.chars (nextPiece c cs).1 := by
  rcases s.chars_cases with ⟨d, hs⟩ | ⟨d, e, hs⟩
  · rw [hs] at hsplit ⊢
    obtain ⟨rfl, rfl⟩ := List.cons.inj hsplit
    exact single_within hs _
  · rw [hs] at hsplit ⊢
    simp only [List.cons_append, List.nil_append, List.cons.injEq] at hsplit
    obtain ⟨rfl, rfl⟩ := hsplit
    rw [nextPiece_double hs]
    exact .of_length (p := ⟨.symbol s, _⟩) (Nat.le_refl _)

theorem other_within {c : Char} (hc : IsOther c) (cs : List Char) :
    Within .other [c] (nextPiece c cs).1 := by
  have hnone : Symbol.ofChars? [c] = none := by
    cases h : Symbol.ofChars? [c] with
    | none => rfl
    | some s => exact absurd (Symbol.chars_of_ofChars? h) (hc.symbol s)
  have hsingle : Within .other [c] (singlePiece c cs).1 := by
    simp only [singlePiece, hnone, Option.elim_none]
    exact .of_length (p := ⟨.other, _⟩) (Nat.le_refl _)
  rw [nextPiece_other cs hc]
  cases cs with
  | nil => exact hsingle
  | cons d rest =>
    unfold symbolPiece
    dsimp only
    split
    · rename_i s hs
      obtain ⟨s', hs'⟩ := Symbol.first_of_chars (Symbol.chars_of_ofChars? hs)
      exact absurd hs' (hc.symbol s')
    · exact hsingle

/-- **No stretch surpasses the first piece** of a text that begins with it. -/
theorem Belongs.within {cls : PieceClass} {text rest : List Char} (h : Belongs cls text rest)
    {c : Char} {cs : List Char} (hsplit : c :: cs = text ++ rest) :
    Within cls text (nextPiece c cs).1 := by
  cases h with
  | comment hbody rest =>
    obtain ⟨rfl, rfl⟩ := List.cons.inj hsplit
    refine .of_length (p := (runOf .comment ['/'] (· != '\n') _).1) ?_
    have hle := length_le_takeWhile (ne_of_not_mem hbody) rest
    simp [runOf]
    omega
  | string hbody rest =>
    simp only [List.cons_append, List.append_assoc, List.nil_append, List.cons.injEq] at hsplit
    obtain ⟨rfl, rfl⟩ := hsplit
    exact string_within hbody rest
  | unterminated hbody =>
    simp only [List.append_nil, List.cons.injEq] at hsplit
    obtain ⟨rfl, rfl⟩ := hsplit
    exact unterminated_within hbody
  | whole hne hdigits rest =>
    obtain ⟨d, digits, rfl⟩ := List.exists_cons_of_ne_nil hne
    obtain ⟨rfl, rfl⟩ := List.cons.inj hsplit
    rw [nextPiece_digit _ (hdigits c (by simp))]
    exact whole_within hdigits rest
  | decimal hne hdigits hne' hplaces rest =>
    obtain ⟨d, digits, rfl⟩ := List.exists_cons_of_ne_nil hne
    obtain ⟨rfl, rfl⟩ := List.cons.inj hsplit
    rw [nextPiece_digit _ (hdigits c (by simp))]
    exact decimal_within hdigits hne' hplaces rest
  | word hc hcs rest =>
    obtain ⟨rfl, rfl⟩ := List.cons.inj hsplit
    rw [nextPiece_word _ hc]
    refine .of_length (p := (runOf .word [c] isWordChar _).1) ?_
    simpa [runOf] using length_le_takeWhile hcs rest
  | symbol s rest => exact symbol_within s hsplit
  | newline rest =>
    obtain ⟨rfl, rfl⟩ := List.cons.inj hsplit
    exact .of_length (p := ⟨.newline, _⟩) (Nat.le_refl _)
  | blank hne hblanks rest =>
    obtain ⟨d, blanks, rfl⟩ := List.exists_cons_of_ne_nil hne
    obtain ⟨rfl, rfl⟩ := List.cons.inj hsplit
    rw [nextPiece_blank _ (hblanks c (by simp))]
    refine .of_length (p := (runOf .blank [c] isBlank _).1) ?_
    have hle := length_le_takeWhile (fun d hd => hblanks d (List.mem_cons_of_mem c hd)) rest
    simpa [runOf] using hle
  | other hc rest =>
    obtain ⟨rfl, rfl⟩ := List.cons.inj hsplit
    exact other_within hc _

/-! ### There is one cut only -/

/-- The first piece is the longest stretch, and the longest one of the earliest class. -/
theorem nextPiece_first (c : Char) (cs : List Char) :
    LongestFirst (c :: cs) (nextPiece c cs).1 (nextPiece c cs).2 ∧
      EarliestFirst (c :: cs) (nextPiece c cs).1 (nextPiece c cs).2 := by
  have hsplit := (nextPiece_append c cs).symm
  have hbelongs := nextPiece_belongs c cs
  constructor
  · exact ⟨hsplit, hbelongs, fun hcs h => (h.within hcs).length_le⟩
  · exact ⟨hsplit, hbelongs, fun hcs h => (h.within hcs).turn_le,
      fun hcs h => (h.within hcs).length_le⟩

/-- Two pieces of one length and one class that a text begins with are the same. -/
theorem eq_nextPiece {c : Char} {cs rest : List Char} {p : Piece}
    (hsplit : c :: cs = p.text ++ rest) (hlength : p.text.length = (nextPiece c cs).1.text.length)
    (hcls : p.cls = (nextPiece c cs).1.cls) : nextPiece c cs = (p, rest) := by
  have happend := (nextPiece_append c cs).trans hsplit
  obtain ⟨htext, hrest⟩ := List.append_inj happend hlength.symm
  have hpiece : (nextPiece c cs).1 = p := by
    rw [← show Piece.mk p.cls p.text = p from rfl, hcls, ← htext]
  exact Prod.ext hpiece hrest

theorem LongestFirst.eq {c : Char} {cs rest : List Char} {p : Piece}
    (h : LongestFirst (c :: cs) p rest) : nextPiece c cs = (p, rest) := by
  have hwithin := h.belongs.within h.split
  have hlength := Nat.le_antisymm hwithin.length_le
    (h.longest (nextPiece_append c cs).symm (nextPiece_belongs c cs))
  exact eq_nextPiece h.split hlength (hwithin.same (.inl hlength))

theorem EarliestFirst.eq {c : Char} {cs rest : List Char} {p : Piece}
    (h : EarliestFirst (c :: cs) p rest) : nextPiece c cs = (p, rest) := by
  have hwithin := h.belongs.within h.split
  have hnext := nextPiece_belongs c cs
  have hturn := Nat.le_antisymm (h.earliest (nextPiece_append c cs).symm hnext) hwithin.turn_le
  have hcls := hwithin.same (.inr hturn)
  rw [← hcls] at hnext
  have hlength := Nat.le_antisymm hwithin.length_le
    (h.longest (nextPiece_append c cs).symm hnext)
  exact eq_nextPiece h.split hlength hcls

section

variable {First : List Char → Piece → List Char → Prop}

/-- A text is cut into its pieces, if these are the first ones. -/
theorem cut_pieces (hfirst : ∀ c cs, First (c :: cs) (nextPiece c cs).1 (nextPiece c cs).2)
    (cs : List Char) : Cut First cs (pieces cs) := by
  generalize hlen : cs.length = n
  induction n using Nat.strongRecOn generalizing cs with
  | ind n ih =>
    cases cs with
    | nil => exact .nil
    | cons c cs =>
      have hlt := nextPiece_length_lt c cs
      rw [pieces_cons]
      exact .cons (hfirst c cs) (ih _ (by omega) _ rfl)

/-- A cut is into the pieces of the text, if the first piece is the only one. -/
theorem Cut.eq_pieces (hne : ∀ {cs p rest}, First cs p rest → cs ≠ [])
    (honly : ∀ {c cs p rest}, First (c :: cs) p rest → nextPiece c cs = (p, rest))
    {cs : List Char} {ps : List Piece} (h : Cut First cs ps) : ps = pieces cs := by
  induction h with
  | nil => rfl
  | @cons cs rest p ps hfirst _ ih =>
    obtain ⟨c, cs, rfl⟩ := List.exists_cons_of_ne_nil (hne hfirst)
    rw [pieces_cons, honly hfirst, ih]

end

theorem append_ne_nil {cls : PieceClass} {cs text rest : List Char} (h : Belongs cls text rest)
    (hsplit : cs = text ++ rest) : cs ≠ [] := by
  rw [hsplit]
  exact List.append_ne_nil_of_left_ne_nil h.ne_nil rest

/-- Taking the longest stretch each time cuts a text in one way only. -/
theorem cut_longest_iff {cs : List Char} {ps : List Piece} :
    Cut LongestFirst cs ps ↔ ps = pieces cs := by
  constructor
  · exact Cut.eq_pieces (fun h => append_ne_nil h.belongs h.split) LongestFirst.eq
  · rintro rfl
    exact cut_pieces (fun c cs => (nextPiece_first c cs).1) cs

/-- Trying the classes in their order cuts a text in the same way. -/
theorem cut_earliest_iff {cs : List Char} {ps : List Piece} :
    Cut EarliestFirst cs ps ↔ ps = pieces cs := by
  constructor
  · exact Cut.eq_pieces (fun h => append_ne_nil h.belongs h.split) EarliestFirst.eq
  · rintro rfl
    exact cut_pieces (fun c cs => (nextPiece_first c cs).2) cs

/-- Every piece belongs to its class, and an unterminated string is the last one. -/
theorem Cut.belongs {cs : List Char} {ps : List Piece} (h : Cut LongestFirst cs ps) :
    (∀ p ∈ ps, ∃ rest, Belongs p.cls p.text rest) ∧ ∀ p ∈ ps.dropLast, p.cls ≠ .unterminated := by
  induction h with
  | nil => simp
  | @cons cs rest p ps hfirst hrest ih =>
    refine ⟨?_, ?_⟩
    · rintro q (_ | ⟨_, hq⟩)
      · exact ⟨rest, hfirst.belongs⟩
      · exact ih.1 q hq
    · cases hrest with
      | nil => simp
      | cons hfirst' _ =>
        rintro q (_ | ⟨_, hq⟩)
        · -- Nothing follows an unterminated string.
          intro hcls
          have hbelongs := hfirst.belongs
          rw [hcls] at hbelongs
          have hnil : rest = [] := by
            generalize p.text = text at hbelongs
            cases hbelongs
            rfl
          exact append_ne_nil hfirst'.belongs hfirst'.split hnil
        · exact ih.2 q hq

/-! ### What is read off pieces -/

/-- The **token** that a piece stands for, on the line where the piece ends.  A word is a keyword
only if it is spelled exactly like one. -/
inductive Piece.Yields (line : Nat) : Piece → Token → Prop
  | string (body : List Char) :
      Yields line ⟨.string, '"' :: body ++ ['"']⟩
        ⟨.string, String.ofList ('"' :: body ++ ['"']), line, .string (String.ofList body)⟩
  | number (text : List Char) :
      Yields line ⟨.number, text⟩
        ⟨.number, String.ofList text, line, .number (numberValue text)⟩
  | keyword {text : List Char} {k : Keyword} (hk : k.word = String.ofList text) :
      Yields line ⟨.word, text⟩ ⟨.keyword k, String.ofList text, line, .none⟩
  | name {text : List Char} (hname : ∀ k : Keyword, k.word ≠ String.ofList text) :
      Yields line ⟨.word, text⟩ ⟨.identifier, String.ofList text, line, .none⟩
  | symbol (s : Symbol) :
      Yields line ⟨.symbol s, s.chars⟩ ⟨.symbol s, String.ofList s.chars, line, .none⟩

/-- The **finding** that a piece stands for, in the line where the piece ends. -/
inductive Piece.Reports (line : Nat) : Piece → Diagnostic → Prop
  | other (c : Char) : Reports line ⟨.other, [c]⟩ ⟨.line line, .unexpectedCharacter c⟩
  | unterminated (text : List Char) :
      Reports line ⟨.unterminated, text⟩ ⟨.line line, .unterminatedString⟩

/-- The pieces that tokens are made from: strings, numbers, words and symbols. -/
def PieceClass.isToken : PieceClass → Bool
  | string | number | word | symbol _ => true
  | _ => false

/-- The pieces that are reported: characters of no class, and an unterminated string. -/
def PieceClass.isReported : PieceClass → Bool
  | other | unterminated => true
  | _ => false

/-- The pieces with the lines that they end on: one more than there are line ends in the text up to
the end of the piece. -/
def markedPieces (ps : List Piece) : List (Piece × Nat) :=
  ps.zipIdx.map fun (p, i) => (p, 1 + lineCount ((ps.take (i + 1)).map Piece.text).flatten)

/-- **What is read off the pieces of a text**: the tokens and the findings, each in the order of the
pieces that they are made from, and the line that the text ends on. -/
structure ReadOff (ps : List Piece) (r : Scan) : Prop where
  tokens : List.Forall₂ (fun m t => m.1.Yields m.2 t)
    ((markedPieces ps).filter fun m => m.1.cls.isToken) r.tokens
  findings : List.Forall₂ (fun m d => m.1.Reports m.2 d)
    ((markedPieces ps).filter fun m => m.1.cls.isReported) r.findings
  lastLine : r.lastLine = 1 + lineCount (ps.map Piece.text).flatten

/-- The pieces with the lines that they end on, where the first one begins in line `line`. -/
def markedFrom : Nat → List Piece → List (Piece × Nat)
  | _, [] => []
  | line, p :: ps => (p, line + lineCount p.text) :: markedFrom (line + lineCount p.text) ps

theorem markedFrom_eq (ps : List Piece) (line : Nat) :
    markedFrom line ps =
      ps.zipIdx.map fun (p, i) =>
        (p, line + lineCount ((ps.take (i + 1)).map Piece.text).flatten) := by
  induction ps generalizing line with
  | nil => rfl
  | cons p ps ih =>
    rw [markedFrom, ih, List.zipIdx_cons', List.map_cons, List.map_map]
    simp [lineCount, Function.comp_def, Nat.add_assoc]

/-- A string gives its text without the quotes. -/
theorem string_yields (body : List Char) (line : Nat) :
    let text := '"' :: body ++ ['"']
    Piece.Yields line ⟨.string, text⟩
      ⟨.string, String.ofList text, line, .string (String.ofList (text.drop 1).dropLast)⟩ := by
  intro text
  have hbody : (text.drop 1).dropLast = body := List.dropLast_concat
  rw [hbody]
  exact .string body

/-- A word gives a keyword or a name, by its spelling. -/
theorem word_yields (text : List Char) (line : Nat) :
    Piece.Yields line ⟨.word, text⟩
      ⟨.ofWord (String.ofList text), String.ofList text, line, .none⟩ := by
  unfold Token.Kind.ofWord
  cases hw : Keyword.ofWord? (String.ofList text) with
  | some k => exact .keyword (Keyword.word_of_ofWord? hw)
  | none =>
    refine .name fun k hk => ?_
    rw [← hk, Keyword.ofWord?_word] at hw
    cases hw

section

variable {p : Piece} {rest : List Char} (line : Nat)

/-- A piece gives the token that it stands for, if it stands for one. -/
theorem Belongs.token (h : Belongs p.cls p.text rest) :
    List.Forall₂ (fun m t => m.1.Yields m.2 t)
      ([(p, line)].filter fun m => m.1.cls.isToken) (p.token? line).toList := by
  obtain ⟨cls, text⟩ := p
  cases h with
  | string => exact .cons (string_yields _ line) .nil
  | whole | decimal => exact .cons (.number _) .nil
  | word => exact .cons (word_yields _ line) .nil
  | symbol s => exact .cons (.symbol s) .nil
  | comment | unterminated | newline | blank | other => exact .nil

/-- A piece gives the finding that it stands for, if it stands for one. -/
theorem Belongs.finding (h : Belongs p.cls p.text rest) :
    List.Forall₂ (fun m d => m.1.Reports m.2 d) ([(p, line)].filter fun m => m.1.cls.isReported)
      (p.problem?.map fun problem => Diagnostic.mk (.line line) problem).toList := by
  obtain ⟨cls, text⟩ := p
  cases h with
  | unterminated => exact .cons (.unterminated _) .nil
  | other => exact .cons (.other _) .nil
  | comment | string | whole | decimal | word | symbol | newline | blank => exact .nil

end

/-- The tokens and findings of pieces that belong to their classes. -/
theorem scanPieces_reads {ps : List Piece} (h : ∀ p ∈ ps, ∃ rest, Belongs p.cls p.text rest)
    (line : Nat) :
    List.Forall₂ (fun m t => m.1.Yields m.2 t)
        ((markedFrom line ps).filter fun m => m.1.cls.isToken) (scanPieces line ps).tokens ∧
      List.Forall₂ (fun m d => m.1.Reports m.2 d)
        ((markedFrom line ps).filter fun m => m.1.cls.isReported)
        (scanPieces line ps).findings := by
  induction ps generalizing line with
  | nil => exact ⟨.nil, .nil⟩
  | cons p ps ih =>
    obtain ⟨rest, hp⟩ := h p (by simp)
    obtain ⟨htokens, hfindings⟩ := ih (fun q hq => h q (List.mem_cons_of_mem p hq))
      (line + lineCount p.text)
    have hcons : markedFrom line (p :: ps) =
        [(p, line + lineCount p.text)] ++ markedFrom (line + lineCount p.text) ps := rfl
    rw [hcons, List.filter_append, List.filter_append]
    exact ⟨List.rel_append (hp.token _) htokens, List.rel_append (hp.finding _) hfindings⟩

/-- An unterminated string is reported last, if it is the last piece. -/
theorem scanPieces_unterminated_last {ps : List Piece}
    (h : ∀ p ∈ ps.dropLast, p.cls ≠ .unterminated) (line : Nat) :
    ∀ d ∈ (scanPieces line ps).findings.dropLast, d.problem ≠ .unterminatedString := by
  induction ps generalizing line with
  | nil => simp [scanPieces]
  | cons p ps ih =>
    cases ps with
    | nil => cases hp : p.problem? <;> simp [scanPieces, hp]
    | cons q ps =>
      have hp : p.cls ≠ .unterminated := h p (by simp)
      have ih := ih (fun r hr => h r (List.mem_cons_of_mem p hr)) (line + lineCount p.text)
      have hfirst : ∀ problem, p.problem? = some problem → problem ≠ .unterminatedString := by
        rintro _ hproblem rfl
        unfold Piece.problem? at hproblem
        split at hproblem
        · rename_i hcls
          exact hp hcls
        · simp at hproblem
        · cases hproblem
      intro d hd
      rw [scanPieces] at hd
      dsimp only at hd
      generalize (scanPieces (line + lineCount p.text) (q :: ps)).findings = later at hd ih
      cases hproblem : p.problem? with
      | none =>
        rw [hproblem] at hd
        exact ih d hd
      | some problem =>
        rw [hproblem] at hd
        cases later with
        | nil => cases hd
        | cons e later =>
          rcases List.mem_cons.1 hd with rfl | hd
          · exact hfirst problem hproblem
          · exact ih d hd

/-- No piece stands for the end mark. -/
theorem Piece.Yields.ne_eof {ms : List (Piece × Nat)} {ts : List Token}
    (h : List.Forall₂ (fun m t => m.1.Yields m.2 t) ms ts) : ∀ t ∈ ts, t.kind ≠ .eof := by
  induction h with
  | nil => simp
  | @cons m t _ _ hm _ ih =>
    obtain ⟨p, line⟩ := m
    rintro u (_ | ⟨_, hu⟩)
    · cases hm <;> nofun
    · exact ih u hu

/-- **The tokens and findings of a text are read off its longest pieces.**  Taking the longest
stretch of any class each time, and trying the classes in their order, cut the whole text into the
same pieces, none of which is empty, and in no other way.  The tokens are made from the strings,
numbers, words and symbols among the pieces, and behind them stands one end mark; the findings are
made from the characters of no class and the unterminated string, which is found once at most and
last.  A token or a finding is on the line that its piece ends on, and the end mark is on the last
line of the text. -/
theorem scan_maximal (source : String) :
    (∀ ps, Cut LongestFirst source.toList ps ↔ ps = pieces source.toList) ∧
      (∀ ps, Cut EarliestFirst source.toList ps ↔ ps = pieces source.toList) ∧
      ((pieces source.toList).map Piece.text).flatten = source.toList ∧
      (∀ p ∈ pieces source.toList, p.text ≠ []) ∧
      ReadOff (pieces source.toList) (scan source.toList) ∧
      (∀ d ∈ (scan source.toList).findings.dropLast, d.problem ≠ .unterminatedString) ∧
      (∀ t ∈ (scan source.toList).tokens, t.kind ≠ .eof) ∧
      (scan source.toList).allTokens = (scan source.toList).tokens ++
        [⟨.eof, "", ((1 + lineCount source.toList : Nat) : Int), .none⟩] := by
  have hcut : Cut LongestFirst source.toList (pieces source.toList) := cut_longest_iff.2 rfl
  obtain ⟨hbelongs, hlast⟩ := hcut.belongs
  obtain ⟨htokens, hfindings⟩ := scanPieces_reads hbelongs 1
  rw [markedFrom_eq] at htokens hfindings
  refine ⟨fun _ => cut_longest_iff, fun _ => cut_earliest_iff, pieces_flatten _, ?_,
    ⟨htokens, hfindings, scanPieces_lastLine _ 1⟩, scanPieces_unterminated_last hlast 1,
    Piece.Yields.ne_eof htokens, ?_⟩
  · intro p hp
    obtain ⟨rest, h⟩ := hbelongs p hp
    exact h.ne_nil
  · rw [Scan.allTokens, Scan.endMark, scan_lastLine]
    rfl

end Lox
