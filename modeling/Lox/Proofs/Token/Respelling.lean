/-
**Names spelled differently.**

In a text, names may be spelled as other names.  Where a piece ends depends on how the text goes on,
but no piece tells apart two characters that words begin with; so the pieces between the names stay
as they were, and the text gives the same tokens, on the same lines, with the new names among them.

Main definitions:

* `Lox.IsName` — **names**: words that are no keywords;
* `Lox.Token.respell`, `Lox.Token.Respells`, `Lox.Respelled` — a token with another spelling, and
  **tokens whose names are spelled differently**;
* `Lox.Resumes` — texts that no piece before them tells apart.

Main results:

* `Lox.nextPiece_resumes` — the first piece of a text that goes on differently;
* `Lox.pieces_respelled` — **the pieces** of a text with other names;
* `Lox.scan_respelled` — **there is a text** for tokens whose names are spelled differently.
-/

import Lox.Proofs.Token.Munch

set_option relaxedAutoImplicit false
set_option autoImplicit false

namespace Lox

/-! ### Names -/

/-- A **name**: a word that is no keyword. -/
def IsName (z : String) : Prop :=
  z.toList.head?.any isWordStart = true ∧ z.toList.all isWordChar = true ∧
    Keyword.ofWord? z = none

instance (z : String) : Decidable (IsName z) := inferInstanceAs (Decidable (_ ∧ _))

/-- The token with another spelling. -/
def Token.respell (z : String) (t : Token) : Token := { t with lexeme := z }

@[simp] theorem Token.lexeme_respell (z : String) (t : Token) : (t.respell z).lexeme = z := rfl

/-- The token, or the token **spelled as another name**. -/
inductive Token.Respells : Token → Token → Prop
  | same (t : Token) : Respells t t
  | anew (t : Token) {z : String} (hz : IsName z) : Respells t (t.respell z)

/-- Tokens **whose names may be spelled differently**. -/
abbrev Respelled : List Token → List Token → Prop :=
  List.Forall₂ fun t t' => t.Respells t' ∧ (t.kind = .identifier ∨ t' = t)

theorem Token.Respells.eq_respell {t t' : Token} (h : t.Respells t') :
    t' = t.respell t'.lexeme := by
  cases h <;> rfl

theorem respells_refl (ts : List Token) : List.Forall₂ Token.Respells ts ts :=
  List.forall₂_same.2 fun t _ => .same t

theorem Respelled.refl (ts : List Token) : Respelled ts ts :=
  List.forall₂_same.2 fun t _ => ⟨.same t, .inr rfl⟩

theorem IsName.belongs {z : String} (h : IsName z) (rest : List Char) :
    Belongs .word z.toList rest := by
  obtain ⟨hstart, hchars, -⟩ := h
  cases hz : z.toList with
  | nil =>
    rw [hz] at hstart
    cases hstart
  | cons c cs =>
    rw [hz] at hstart hchars
    have hall := List.all_eq_true.1 hchars
    exact .word hstart (fun d hd => hall d (List.mem_cons_of_mem c hd)) rest

/-! ### Texts that go on differently -/

/-- Characters that no piece tells apart behind its end: the same one, or **two that words begin
with**. -/
def SameStart (c c' : Char) : Prop := c' = c ∨ isWordStart c = true ∧ isWordStart c' = true

/-- Texts that **begin** with such characters, or are both empty. -/
def BeginAlike (cs cs' : List Char) : Prop := Option.Rel SameStart cs.head? cs'.head?

/-- Texts that no piece before them tells apart.  Behind a point it matters whether a digit
follows. -/
structure Resumes (rest rest' : List Char) : Prop where
  begins : BeginAlike rest rest'
  point : ∀ r, rest = '.' :: r → ∃ r', rest' = '.' :: r' ∧ BeginAlike r r'

/-- A run of characters stops before a text. -/
def Stops (p : Char → Bool) (rest : List Char) : Prop := ∀ d ∈ rest.head?, p d = false

section

variable {p : Char → Bool}

theorem stops_dropWhile (cs : List Char) : Stops p (cs.dropWhile p) := by
  intro d hd
  have hstop := List.head?_dropWhile_not p cs
  rw [Option.mem_def.1 hd] at hstop
  simpa using hstop

/-- A run goes no further if the characters are of one kind to it. -/
theorem Stops.resumes {rest rest' : List Char} (h : Stops p rest) (hrest : BeginAlike rest rest')
    (hp : ∀ c c', SameStart c c' → p c' = p c) : Stops p rest' := by
  intro d' hd'
  rw [BeginAlike, Option.mem_def.1 hd'] at hrest
  generalize hd : rest.head? = d? at hrest
  cases hrest with
  | some hsame => rw [hp _ _ hsame, h _ hd]

theorem takeWhile_stops {cs rest : List Char} (h : ∀ c ∈ cs, p c = true) (hrest : Stops p rest) :
    (cs ++ rest).takeWhile p = cs ∧ (cs ++ rest).dropWhile p = rest := by
  cases rest with
  | nil =>
    rw [List.append_nil]
    exact takeWhile_all h
  | cons d rest => exact takeWhile_exact h (hrest d rfl) rest

/-- A run that goes on differently. -/
theorem runOf_resumes (cls : PieceClass) (lead : List Char) {cs rest' : List Char}
    (hrest : BeginAlike (cs.dropWhile p) rest') (hp : ∀ c c', SameStart c c' → p c' = p c) :
    runOf cls lead p (cs.takeWhile p ++ rest') = (⟨cls, lead ++ cs.takeWhile p⟩, rest') := by
  obtain ⟨htake, hdrop⟩ := takeWhile_stops (fun _ => List.mem_takeWhile_imp)
    ((stops_dropWhile cs).resumes hrest hp)
  rw [runOf, htake, hdrop]

end

section

variable {c c' : Char}

theorem SameStart.isBlank_eq (h : SameStart c c') : isBlank c' = isBlank c := by
  rcases h with rfl | ⟨h, h'⟩
  · rfl
  · rw [isBlank_of_wordStart h, isBlank_of_wordStart h']

theorem SameStart.isDigit_eq (h : SameStart c c') : c'.isDigit = c.isDigit := by
  rcases h with rfl | ⟨h, h'⟩
  · rfl
  · rw [isDigit_of_wordStart h, isDigit_of_wordStart h']

theorem SameStart.isWordChar_eq (h : SameStart c c') : isWordChar c' = isWordChar c := by
  rcases h with rfl | ⟨h, h'⟩
  · rfl
  · rw [isWordChar, isWordChar, h, h', Bool.true_or, Bool.true_or]

/-- A character that no word begins with is told apart from all others. -/
theorem SameStart.eq_iff {d : Char} (h : SameStart c c') (hd : isWordStart d = false) :
    c' = d ↔ c = d := by
  rcases h with rfl | ⟨h, h'⟩
  · rfl
  · constructor
    · rintro rfl
      rw [hd] at h'
      cases h'
    · rintro rfl
      rw [hd] at h
      cases h

theorem SameStart.bne_eq {d : Char} (h : SameStart c c') (hd : isWordStart d = false) :
    (c' != d) = (c != d) := by
  rw [Bool.eq_iff_iff, bne_iff_ne, bne_iff_ne, Ne, Ne, h.eq_iff hd]

/-- Symbols of two characters end in an equals sign, and none of them begins with a point. -/
theorem Symbol.double_cases {d : Char} {s : Symbol} (h : Symbol.ofChars? [c, d] = some s) :
    c ≠ '.' ∧ d = '=' := by
  have hchars := Symbol.chars_of_ofChars? h
  cases s <;> simp only [Symbol.chars, List.cons.injEq, reduceCtorEq, and_false] at hchars
  all_goals
    obtain ⟨rfl, rfl, -⟩ := hchars
    exact ⟨by decide, rfl⟩

theorem ofChars?_wordStart (c : Char) {d : Char} (hd : isWordStart d = true) :
    Symbol.ofChars? [c, d] = none := by
  refine Option.eq_none_iff_forall_ne_some.2 fun s hs => ?_
  obtain rfl := (Symbol.double_cases hs).2
  exact absurd hd (by decide)

end

/-! ### The first piece -/

section

variable {cs rest' : List Char}

theorem stringPiece_resumes (h : (stringPiece cs).1.cls ≠ .unterminated) (rest' : List Char) :
    ∃ cs', (stringPiece cs).1.text ++ rest' = '"' :: cs' ∧
      stringPiece cs' = ((stringPiece cs).1, rest') := by
  have hstop : Stops (· != '"') (cs.dropWhile (· != '"')) := stops_dropWhile cs
  have hbody : ∀ c ∈ cs.takeWhile (· != '"'), (c != '"') = true :=
    fun _ => List.mem_takeWhile_imp
  unfold stringPiece at h ⊢
  generalize cs.takeWhile (· != '"') = body at h hbody ⊢
  cases hdrop : cs.dropWhile (· != '"') with
  | nil =>
    rw [hdrop] at h
    exact absurd rfl h
  | cons quote rest =>
    rw [hdrop] at hstop
    obtain ⟨htake', hdrop'⟩ := takeWhile_exact hbody (hstop quote rfl) rest'
    refine ⟨body ++ quote :: rest', by simp, ?_⟩
    simp only [htake', hdrop']

/-- No digit follows a point that the text begins with. -/
def NoPlaces (rest : List Char) : Prop := ∀ d r, rest = '.' :: d :: r → d.isDigit = false

theorem Resumes.noPlaces {rest : List Char} (h : Resumes rest rest') (hrest : NoPlaces rest) :
    NoPlaces rest' := by
  rintro d' r' rfl
  have hbegins := h.begins
  cases rest with
  | nil => cases hbegins
  | cons c r =>
    cases hbegins with
    | some hsame =>
      obtain rfl := (hsame.eq_iff (by decide : isWordStart '.' = false)).1 rfl
      obtain ⟨_, hpoint, hr⟩ := h.point r rfl
      obtain rfl := List.tail_eq_of_cons_eq hpoint
      cases r with
      | nil => cases hr
      | cons d r =>
        cases hr with
        | some hsame' => rw [hsame'.isDigit_eq, hrest d r rfl]

/-- A number without a point. -/
theorem numberPiece_whole {whole rest : List Char} (hwhole : ∀ c ∈ whole, c.isDigit = true)
    (hstop : Stops Char.isDigit rest) (hrest : NoPlaces rest) :
    numberPiece (whole ++ rest) = (⟨.number, whole⟩, rest) := by
  obtain ⟨htake, hdrop⟩ := takeWhile_stops hwhole hstop
  simp only [numberPiece, htake, hdrop]
  split
  · rename_i d r
    rw [hrest d r rfl]
    rfl
  · rfl

/-- A number with a point. -/
theorem numberPiece_decimal {whole after : List Char} (hwhole : ∀ c ∈ whole, c.isDigit = true)
    {d : Char} (hd : d.isDigit = true) :
    numberPiece (whole ++ '.' :: d :: after) =
      runOf .number (whole ++ ['.', d]) Char.isDigit after := by
  obtain ⟨htake, hdrop⟩ := takeWhile_exact hwhole (by decide : Char.isDigit '.' = false)
    (d :: after)
  simp only [numberPiece, htake, hdrop, hd, if_true]

theorem numberPiece_resumes (h : Resumes (numberPiece cs).2 rest') :
    numberPiece ((numberPiece cs).1.text ++ rest') = ((numberPiece cs).1, rest') := by
  have hwhole : ∀ c ∈ cs.takeWhile Char.isDigit, c.isDigit = true :=
    fun _ => List.mem_takeWhile_imp
  have hstop : Stops Char.isDigit (cs.dropWhile Char.isDigit) := stops_dropWhile cs
  have hsplit : cs = cs.takeWhile Char.isDigit ++ cs.dropWhile Char.isDigit :=
    List.takeWhile_append_dropWhile.symm
  generalize cs.takeWhile Char.isDigit = whole at hwhole hsplit
  generalize cs.dropWhile Char.isDigit = behind at hstop hsplit
  subst hsplit
  by_cases hplaces : NoPlaces behind
  · rw [numberPiece_whole hwhole hstop hplaces] at h ⊢
    exact numberPiece_whole hwhole (hstop.resumes h.begins fun _ _ hsame => hsame.isDigit_eq)
      (h.noPlaces hplaces)
  · obtain ⟨d, after, rfl, hd⟩ : ∃ d after, behind = '.' :: d :: after ∧ d.isDigit = true := by
      simpa [NoPlaces] using hplaces
    rw [numberPiece_decimal hwhole hd] at h ⊢
    have hruns := runOf_resumes .number (whole ++ ['.', d]) h.begins
      fun _ _ hsame => hsame.isDigit_eq
    have htext : (runOf .number (whole ++ ['.', d]) Char.isDigit after).1.text ++ rest' =
        whole ++ '.' :: d :: (after.takeWhile Char.isDigit ++ rest') := by simp [runOf]
    rw [htext, numberPiece_decimal hwhole hd, hruns]
    rfl

theorem symbolPiece_resumes {c : Char} (h : Resumes (symbolPiece c cs).2 rest') :
    ∃ cs', (symbolPiece c cs).1.text ++ rest' = c :: cs' ∧
      symbolPiece c cs' = ((symbolPiece c cs).1, rest') ∧
      (cs'.head? = some '/' ↔ cs.head? = some '/') := by
  cases cs with
  | nil =>
    have hnil : rest' = [] := by
      have hbegins : BeginAlike [] rest' := h.begins
      cases rest' with
      | nil => rfl
      | cons d rest' => cases hbegins
    subst hnil
    exact ⟨[], rfl, rfl, Iff.rfl⟩
  | cons d rest =>
    unfold symbolPiece at h ⊢
    dsimp only at h ⊢
    cases hs : Symbol.ofChars? [c, d] with
    | some s => exact ⟨d :: rest', rfl, by simp only [hs], Iff.rfl⟩
    | none =>
      rw [hs] at h
      have hbegins : BeginAlike (d :: rest) rest' := h.begins
      cases rest' with
      | nil => cases hbegins
      | cons d' rest' =>
        cases hbegins with
        | some hsame =>
          have hs' : Symbol.ofChars? [c, d'] = none := by
            rcases hsame with rfl | ⟨-, hd'⟩
            · exact hs
            · exact ofChars?_wordStart c hd'
          refine ⟨d' :: rest', rfl, by simp only [hs', singlePiece], ?_⟩
          simpa using hsame.eq_iff (by decide : isWordStart '/' = false)

/-- **The first piece of a text that goes on differently** behind it. -/
theorem nextPiece_resumes {c : Char} (hclosed : (nextPiece c cs).1.cls ≠ .unterminated)
    (h : Resumes (nextPiece c cs).2 rest') :
    ∃ cs', (nextPiece c cs).1.text ++ rest' = c :: cs' ∧
      nextPiece c cs' = ((nextPiece c cs).1, rest') := by
  by_cases hquote : c = '"'
  · subst hquote
    exact stringPiece_resumes hclosed rest'
  by_cases hline : c = '\n'
  · subst hline
    exact ⟨rest', rfl, rfl⟩
  by_cases hblank : isBlank c = true
  · rw [nextPiece_blank cs hblank] at h ⊢
    refine ⟨cs.takeWhile isBlank ++ rest', rfl, ?_⟩
    rw [nextPiece_blank _ hblank]
    exact runOf_resumes .blank [c] h.begins fun _ _ hsame => hsame.isBlank_eq
  by_cases hdigit : c.isDigit = true
  · have hne := nextPiece_ne_nil c cs
    have happend := nextPiece_append c cs
    rw [nextPiece_digit cs hdigit] at h hne happend ⊢
    obtain ⟨d, text, htext⟩ := List.exists_cons_of_ne_nil hne
    rw [htext] at happend
    obtain rfl := (List.cons.inj happend).1
    refine ⟨text ++ rest', by rw [htext, List.cons_append], ?_⟩
    rw [nextPiece_digit _ hdigit, ← List.cons_append, ← htext]
    exact numberPiece_resumes h
  by_cases hword : isWordStart c = true
  · rw [nextPiece_word cs hword] at h ⊢
    refine ⟨cs.takeWhile isWordChar ++ rest', rfl, ?_⟩
    rw [nextPiece_word _ hword]
    exact runOf_resumes .word [c] h.begins fun _ _ hsame => hsame.isWordChar_eq
  have hnext : ∀ cs, nextPiece c cs =
      if c == '/' && cs.head? == some '/' then runOf .comment [c] (· != '\n') cs
      else symbolPiece c cs := by
    intro cs
    simp [nextPiece, hquote, hline, hblank, hdigit, hword]
  rw [hnext] at h ⊢
  split
  · rename_i hcomment
    rw [if_pos hcomment] at h
    refine ⟨cs.takeWhile (· != '\n') ++ rest', rfl, ?_⟩
    have hcomment' : (c == '/' && (cs.takeWhile (· != '\n') ++ rest').head? == some '/') =
        true := by
      rw [Bool.and_eq_true_iff, beq_iff_eq, beq_iff_eq] at hcomment ⊢
      refine ⟨hcomment.1, ?_⟩
      obtain ⟨cs, rfl⟩ := List.head?_eq_some_iff.1 hcomment.2
      rfl
    rw [hnext, if_pos hcomment']
    exact runOf_resumes .comment [c] h.begins fun _ _ hsame => hsame.bne_eq (by decide)
  · rename_i hcomment
    rw [if_neg hcomment] at h
    obtain ⟨cs', htext, hpiece, hhead⟩ := symbolPiece_resumes h
    refine ⟨cs', htext, ?_⟩
    have hcomment' : ¬ ((c == '/' && cs'.head? == some '/') = true) := by
      simpa [hhead] using hcomment
    rw [hnext, if_neg hcomment', hpiece]

end

/-! ### All pieces -/

/-- The piece, or another **word** in the place of one. -/
inductive Piece.Respells : Piece → Piece → Prop
  | same (p : Piece) : Respells p p
  | word {text text' rest : List Char} (h : Belongs .word text rest)
      (h' : Belongs .word text' rest) : Respells ⟨.word, text⟩ ⟨.word, text'⟩

/-- The text that pieces make up. -/
def textOf (ps : List Piece) : List Char := (ps.map Piece.text).flatten

/-- A word in front of a text. -/
theorem nextPiece_wordFirst {text rest rest' : List Char} (h : Belongs .word text rest')
    (hrest : Stops isWordChar rest) :
    ∃ c cs, text ++ rest = c :: cs ∧ nextPiece c cs = (⟨.word, text⟩, rest) := by
  cases h with
  | @word c cs hc hcs =>
    obtain ⟨htake, hdrop⟩ := takeWhile_stops hcs hrest
    refine ⟨c, cs ++ rest, rfl, ?_⟩
    rw [nextPiece_word _ hc, runOf, htake, hdrop]
    rfl

/-- A point is a piece by itself. -/
theorem nextPiece_point (r : List Char) : nextPiece '.' r = (⟨.symbol .dot, ['.']⟩, r) := by
  cases r with
  | nil => rfl
  | cons d r =>
    have hnone : Symbol.ofChars? ['.', d] = none :=
      Option.eq_none_iff_forall_ne_some.2 fun s hs => (Symbol.double_cases hs).1 rfl
    change symbolPiece '.' (d :: r) = _
    simp only [symbolPiece, hnone]
    rfl

/-- Texts of pieces that are the same, but for words, begin alike. -/
theorem beginAlike_respelled {cs : List Char} {ps' : List Piece}
    (h : List.Forall₂ Piece.Respells (pieces cs) ps') : BeginAlike cs (textOf ps') := by
  cases cs with
  | nil =>
    cases h
    exact .none
  | cons c cs =>
    obtain ⟨d, text, htext⟩ := List.exists_cons_of_ne_nil (nextPiece_ne_nil c cs)
    have happend := nextPiece_append c cs
    rw [htext] at happend
    obtain rfl := (List.cons.inj happend).1
    rw [pieces_cons] at h
    generalize (nextPiece d cs).1 = p at h htext
    cases h with
    | cons hp _ =>
      cases hp with
      | same =>
        rw [textOf, List.map_cons, List.flatten_cons, htext]
        exact .some (.inl rfl)
      | word hword hword' =>
        cases hword' with
        | word hc' =>
          obtain rfl : _ = _ := htext
          cases hword with
          | word hc => exact .some (.inr ⟨hc, hc'⟩)

/-- No piece tells apart texts of pieces that are the same, but for words. -/
theorem resumes_respelled {cs : List Char} {ps' : List Piece}
    (h : List.Forall₂ Piece.Respells (pieces cs) ps') : Resumes cs (textOf ps') := by
  refine ⟨beginAlike_respelled h, ?_⟩
  rintro r rfl
  rw [pieces_cons, nextPiece_point] at h
  cases h with
  | cons hp hps =>
    cases hp with
    | same => exact ⟨_, rfl, beginAlike_respelled hps⟩

/-- The first piece, or another word in its place, in front of such a text. -/
theorem nextPiece_respelled {c : Char} {cs rest' : List Char} {p' : Piece}
    (hclosed : (nextPiece c cs).1.cls ≠ .unterminated) (hp : (nextPiece c cs).1.Respells p')
    (h : Resumes (nextPiece c cs).2 rest') :
    ∃ c' cs', p'.text ++ rest' = c' :: cs' ∧ nextPiece c' cs' = (p', rest') := by
  have happend := nextPiece_append c cs
  generalize hpiece : (nextPiece c cs).1 = p at hp happend
  cases hp with
  | same =>
    subst hpiece
    exact ⟨c, nextPiece_resumes hclosed h⟩
  | word hword hword' =>
    have hc : isWordStart c = true := by
      cases hword with
      | word hd => exact (List.cons.inj happend).1 ▸ hd
    rw [nextPiece_word cs hc] at h
    have hstop : Stops isWordChar rest' :=
      (stops_dropWhile cs).resumes h.begins fun _ _ hsame => hsame.isWordChar_eq
    exact nextPiece_wordFirst hword' hstop

/-- **The pieces of a text with other names** are the old ones, with the new names among them. -/
theorem pieces_respelled {cs : List Char} (hclosed : Closed cs) {ps' : List Piece}
    (h : List.Forall₂ Piece.Respells (pieces cs) ps') : pieces (textOf ps') = ps' := by
  induction hn : cs.length using Nat.strong_induction_on generalizing cs ps' with
  | _ n ih =>
    cases cs with
    | nil =>
      cases h
      rfl
    | cons c cs =>
      have hlt := nextPiece_length_lt c cs
      unfold Closed at hclosed
      rw [pieces_cons] at h hclosed
      obtain ⟨hfirst, hlater⟩ := List.forall_mem_cons.1 hclosed
      cases h with
      | @cons _ p' _ qs' hp hps =>
        have hrest := ih _ (hn ▸ hlt) hlater hps rfl
        have hresumes := resumes_respelled hps
        have hsplit : textOf (p' :: qs') = p'.text ++ textOf qs' := rfl
        obtain ⟨c', cs', htext, hpiece⟩ := nextPiece_respelled hfirst hp hresumes
        rw [hsplit, htext, pieces_cons, hpiece, hrest]

/-! ### Tokens -/

theorem Belongs.lineCount_word {text rest : List Char} (h : Belongs .word text rest) :
    lineCount text = 0 := by
  refine List.count_eq_zero.2 fun hmem => ?_
  cases h with
  | word hc hcs =>
    rcases List.mem_cons.1 hmem with rfl | hmem
    · exact absurd hc (by decide)
    · exact absurd (hcs _ hmem) (by decide)

/-- A piece that gives a name is a word. -/
theorem Piece.word_of_token? {p : Piece} {line : Nat} {t : Token} (h : p.token? line = some t)
    (ht : t.kind = .identifier) :
    p.cls = .word ∧ t = ⟨.identifier, String.ofList p.text, line, .none⟩ := by
  obtain ⟨cls, text⟩ := p
  cases cls <;> simp only [Piece.token?, reduceCtorEq, Option.some.injEq] at h
  case word =>
    subst h
    exact ⟨rfl, by rw [← ht]⟩
  all_goals
    subst h
    cases ht

/-- The tokens of two stretches, one behind the other. -/
theorem Respelled.split {us vs ts' : List Token} (h : Respelled (us ++ vs) ts') :
    ∃ us' vs', ts' = us' ++ vs' ∧ Respelled us us' ∧ Respelled vs vs' := by
  refine ⟨ts'.take us.length, ts'.drop us.length, (List.take_append_drop ..).symm, ?_, ?_⟩
  · simpa using List.forall₂_take us.length h
  · simpa using List.forall₂_drop us.length h

/-- A piece for a token that is spelled differently, if it is a name. -/
theorem Piece.exists_respells {p : Piece} {rest : List Char} (hp : Belongs p.cls p.text rest)
    {line : Nat} {us' : List Token} (h : Respelled (p.token? line).toList us') :
    ∃ p', p.Respells p' ∧ lineCount p'.text = lineCount p.text ∧ p'.problem? = p.problem? ∧
      (p'.token? line).toList = us' := by
  cases ht : p.token? line with
  | none =>
    rw [ht] at h
    cases h
    exact ⟨p, .same p, rfl, rfl, by rw [ht]; rfl⟩
  | some t =>
    rw [ht] at h
    obtain ⟨t', _, ⟨hrespells, hkind⟩, hnil, rfl⟩ := List.forall₂_cons_left_iff.1 h
    cases hnil
    rcases hkind with hname | rfl
    · cases hrespells with
      | same => exact ⟨p, .same p, rfl, rfl, by rw [ht]; rfl⟩
      | @anew z hz =>
        obtain ⟨cls, text⟩ := p
        obtain ⟨rfl, rfl⟩ := Piece.word_of_token? ht hname
        refine ⟨⟨.word, z.toList⟩, .word hp (hz.belongs rest), ?_, rfl, ?_⟩
        · rw [hp.lineCount_word, (hz.belongs rest).lineCount_word]
        · simp [Piece.token?, Token.Kind.ofWord, hz.2.2, Token.respell]
    · exact ⟨p, .same p, rfl, rfl, by rw [ht]; rfl⟩

/-- Pieces for tokens **whose names are spelled differently**. -/
theorem scanPieces_respelled {ps : List Piece}
    (hbelongs : ∀ p ∈ ps, ∃ rest, Belongs p.cls p.text rest) (line : Nat) {ts' : List Token}
    (h : Respelled (scanPieces line ps).tokens ts') :
    ∃ ps', List.Forall₂ Piece.Respells ps ps' ∧ (scanPieces line ps').tokens = ts' ∧
      (scanPieces line ps').findings = (scanPieces line ps).findings := by
  induction ps generalizing line ts' with
  | nil =>
    cases h
    exact ⟨[], .nil, rfl, rfl⟩
  | cons p ps ih =>
    obtain ⟨⟨rest, hp⟩, hps⟩ := List.forall_mem_cons.1 hbelongs
    obtain ⟨us', vs', rfl, hfirst, hlater⟩ := Respelled.split h
    obtain ⟨p', hrespells, hlines, hproblem, htoken⟩ := Piece.exists_respells hp hfirst
    obtain ⟨ps', hps', htokens, hfindings⟩ := ih hps _ hlater
    refine ⟨p' :: ps', .cons hrespells hps', ?_⟩
    simp only [scanPieces, hlines, hproblem, htoken, htokens, hfindings, and_self]

/-- **There is a text** for tokens whose names are spelled differently. -/
theorem scan_respelled {source : String} (h : (scan source.toList).findings = [])
    {ts' : List Token} (hts : Respelled (scan source.toList).tokens ts') :
    ∃ source' : String, (scan source'.toList).findings = [] ∧
      (scan source'.toList).tokens = ts' := by
  have hcut : Cut LongestFirst source.toList (pieces source.toList) := cut_longest_iff.2 rfl
  obtain ⟨ps', hps, htokens, hfindings⟩ := scanPieces_respelled hcut.belongs.1 1 hts
  refine ⟨String.ofList (textOf ps'), ?_⟩
  rw [String.toList_ofList, scan, pieces_respelled (closed_of_findings h) hps]
  exact ⟨hfindings.trans h, htokens⟩

end Lox
