/-
**Scanning the spellings of tokens.**

A token keeps the stretch of text that it was read from, and what it is depends on that stretch
alone.  So a row of tokens can be written out again, each token spelled as it was and a blank
between two of them: no piece goes on over a blank but a string, which has its own end, and no token
begins with one.  Scanning what is written out gives the tokens back.

Main definitions:

* `Lox.Token.Kind.Spells` — **the spellings** of the kinds of tokens;
* `Lox.Token.Kind.valueOf`, `Lox.Token.Genuine` — the value that goes with a spelling, and tokens
  that are spelled and valued right;
* `Lox.writtenOut` — **tokens written out**, with blanks between them.

Main results:

* `Lox.scan_genuine` — the tokens of a text are genuine;
* `Lox.nextPiece_beforeBlank`, `Lox.pieces_spaced` — pieces with blanks between them;
* `Lox.scan_writtenOut` — **what scanning gives** for tokens that are written out;
* `Lox.rescan` — the tokens of a text, and any tokens that are spelled right, come back.
-/

import Lox.Proofs.Token.Respelling
import Mathlib.Tactic.Choose

set_option relaxedAutoImplicit false
set_option autoImplicit false

namespace Lox

/-! ### Spellings -/

namespace Token

namespace Kind

/-- The **spellings** of the kinds of tokens.  A name is no keyword, a point in a number has digits
on both sides, and a string holds anything but quotes.  The end mark has no spelling. -/
inductive Spells : Kind → String → Prop
  | symbol (s : Symbol) : Spells (.symbol s) (String.ofList s.chars)
  | keyword (k : Keyword) : Spells (.keyword k) k.word
  | identifier {z : String} (hz : IsName z) : Spells .identifier z
  | whole {digits : List Char} (hne : digits ≠ []) (hdigits : ∀ c ∈ digits, c.isDigit = true) :
      Spells .number (String.ofList digits)
  | decimal {digits places : List Char} (hne : digits ≠ [])
      (hdigits : ∀ c ∈ digits, c.isDigit = true) (hne' : places ≠ [])
      (hplaces : ∀ c ∈ places, c.isDigit = true) :
      Spells .number (String.ofList (digits ++ '.' :: places))
  | string {body : List Char} (hbody : '"' ∉ body) :
      Spells .string (String.ofList ('"' :: body ++ ['"']))

/-- The value of a token of a kind with a spelling. -/
def valueOf : Kind → String → Value
  | .string, z => .string (String.ofList (z.toList.drop 1).dropLast)
  | .number, z => .number (numberValue z.toList)
  | _, _ => .none

end Kind

theorem Kind.Spells.ne_eof {k : Kind} {z : String} (h : k.Spells z) : k ≠ .eof := by
  cases h <;> nofun

/-- A token that is **spelled as its kind allows**, with the value that goes with its spelling. -/
structure Genuine (t : Token) : Prop where
  spells : t.kind.Spells t.lexeme
  value : t.value = t.kind.valueOf t.lexeme

/-- What a token is, whatever line it is on. -/
def content (t : Token) : Kind × String × Value := (t.kind, t.lexeme, t.value)

end Token

/-- The spelling of a word is one of a keyword, or of a name. -/
theorem spells_ofWord {c : Char} {cs : List Char} (hc : isWordStart c = true)
    (hcs : ∀ d ∈ cs, isWordChar d = true) :
    (Token.Kind.ofWord (String.ofList (c :: cs))).Spells (String.ofList (c :: cs)) := by
  unfold Token.Kind.ofWord
  cases hw : Keyword.ofWord? (String.ofList (c :: cs)) with
  | some k =>
    rw [← Keyword.word_of_ofWord? hw]
    exact .keyword k
  | none =>
    refine .identifier ⟨?_, ?_, hw⟩
    · simpa using hc
    · rw [String.toList_ofList, List.all_cons, Bool.and_eq_true, isWordChar, hc]
      exact ⟨rfl, List.all_eq_true.2 hcs⟩

/-- A piece that gives a token spells it, and gives it its value. -/
theorem Belongs.genuine {p : Piece} {rest : List Char} (h : Belongs p.cls p.text rest) {line : Nat}
    {t : Token} (ht : p.token? line = some t) : t.Genuine := by
  obtain ⟨cls, text⟩ := p
  dsimp only at h
  cases h with
  | string hbody =>
    obtain rfl := Option.some.inj ht
    exact ⟨.string hbody, by simp [Token.Kind.valueOf]⟩
  | whole hne hdigits =>
    obtain rfl := Option.some.inj ht
    exact ⟨.whole hne hdigits, by simp [Token.Kind.valueOf]⟩
  | decimal hne hdigits hne' hplaces =>
    obtain rfl := Option.some.inj ht
    exact ⟨.decimal hne hdigits hne' hplaces, by simp [Token.Kind.valueOf]⟩
  | word hc hcs =>
    obtain rfl := Option.some.inj ht
    refine ⟨spells_ofWord hc hcs, ?_⟩
    dsimp only
    unfold Token.Kind.ofWord
    cases Keyword.ofWord? _ <;> rfl
  | symbol s =>
    obtain rfl := Option.some.inj ht
    exact ⟨.symbol s, rfl⟩
  | comment | unterminated | newline | blank | other => cases ht

/-- The tokens of a text are **genuine**. -/
theorem scan_genuine (cs : List Char) : ∀ t ∈ (scan cs).tokens, t.Genuine := by
  have hcut : Cut LongestFirst cs (pieces cs) := cut_longest_iff.2 rfl
  have hpieces : ∀ (ps : List Piece) (line : Nat),
      (∀ p ∈ ps, ∃ rest, Belongs p.cls p.text rest) →
      ∀ t ∈ (scanPieces line ps).tokens, t.Genuine := by
    intro ps
    induction ps with
    | nil => simp [scanPieces]
    | cons p ps ih =>
      intro line h t ht
      obtain ⟨⟨rest, hp⟩, hps⟩ := List.forall_mem_cons.1 h
      rcases List.mem_append.1 ht with ht | ht
      · exact hp.genuine (Option.mem_toList.1 ht)
      · exact ih _ hps t ht
  exact hpieces _ _ hcut.belongs.1

/-- The characters of a keyword make up a word. -/
theorem Keyword.belongs_word (k : Keyword) (rest : List Char) :
    Belongs .word k.word.toList rest := by
  cases k <;> exact .word (by decide) (List.all_eq_true.1 (by decide)) rest

/-- A spelling is a piece that gives a token of its kind. -/
theorem Token.Kind.Spells.exists_piece {k : Token.Kind} {z : String} (h : k.Spells z) :
    ∃ cls : PieceClass, cls.isToken = true ∧ Belongs cls z.toList [] ∧
      ∀ line, Piece.token? ⟨cls, z.toList⟩ line = some ⟨k, z, line, k.valueOf z⟩ := by
  cases h with
  | symbol s =>
    refine ⟨.symbol s, rfl, ?_, fun line => ?_⟩
    · rw [String.toList_ofList]
      exact .symbol s []
    · simp [Piece.token?, Token.Kind.valueOf]
  | keyword k =>
    refine ⟨.word, rfl, k.belongs_word [], fun line => ?_⟩
    simp [Piece.token?, Token.Kind.ofWord, Token.Kind.valueOf]
  | identifier hz =>
    refine ⟨.word, rfl, hz.belongs [], fun line => ?_⟩
    simp [Piece.token?, Token.Kind.ofWord, hz.2.2, Token.Kind.valueOf]
  | whole hne hdigits =>
    refine ⟨.number, rfl, ?_, fun line => ?_⟩
    · rw [String.toList_ofList]
      exact .whole hne hdigits []
    · simp [Piece.token?, Token.Kind.valueOf]
  | decimal hne hdigits hne' hplaces =>
    refine ⟨.number, rfl, ?_, fun line => ?_⟩
    · rw [String.toList_ofList]
      exact .decimal hne hdigits hne' hplaces []
    · simp [Piece.token?, Token.Kind.valueOf]
  | string hbody =>
    refine ⟨.string, rfl, ?_, fun line => ?_⟩
    · rw [String.toList_ofList]
      exact .string hbody []
    · simp [Piece.token?, Token.Kind.valueOf]

/-- A piece that gives a token is not reported. -/
theorem Piece.problem?_of_isToken {p : Piece} (h : p.cls.isToken = true) : p.problem? = none := by
  obtain ⟨cls, text⟩ := p
  cases cls <;> first | rfl | cases h

/-! ### Pieces with blanks between them -/

/-- Nothing follows, or a blank does. -/
def BlankNext (rest : List Char) : Prop := ∀ d ∈ rest.head?, d = ' '

theorem BlankNext.stops {p : Char → Bool} {rest : List Char} (h : BlankNext rest)
    (hp : p ' ' = false) : Stops p rest := by
  intro d hd
  rw [h d hd, hp]

/-- A symbol before a blank: it is not made longer, and a slash begins no comment. -/
theorem nextPiece_symbol_beforeBlank (s : Symbol) {rest : List Char} (h : BlankNext rest) :
    ∃ c cs, s.chars ++ rest = c :: cs ∧ nextPiece c cs = (⟨.symbol s, s.chars⟩, rest) := by
  rcases s.chars_cases with ⟨c, hs⟩ | ⟨c, d, hs⟩
  · refine ⟨c, rest, by rw [hs]; rfl, ?_⟩
    have hsingle : ∀ r, singlePiece c r = (⟨.symbol s, [c]⟩, r) := fun r => by
      rw [singlePiece, ← hs, Symbol.ofChars?_chars, Option.elim_some]
    rw [nextPiece_single hs, hs]
    cases rest with
    | nil => exact (if_neg (by simp)).trans (hsingle [])
    | cons d rest =>
      obtain rfl := h d rfl
      have hnone : Symbol.ofChars? [c, ' '] = none :=
        Option.eq_none_iff_forall_ne_some.2 fun s' hs' =>
          absurd (Symbol.double_cases hs').2 (by decide)
      simpa [symbolPiece, hnone] using hsingle (' ' :: rest)
  · exact ⟨c, d :: rest, by rw [hs]; rfl, by rw [hs, nextPiece_double hs]⟩

/-- A piece that gives a token **ends before a blank**. -/
theorem nextPiece_beforeBlank {p : Piece} {rest' : List Char} (hp : Belongs p.cls p.text rest')
    (htoken : p.cls.isToken = true) {rest : List Char} (h : BlankNext rest) :
    ∃ c cs, p.text ++ rest = c :: cs ∧ nextPiece c cs = (p, rest) := by
  obtain ⟨cls, text⟩ := p
  dsimp only at hp htoken ⊢
  have hdigit : Stops Char.isDigit rest := h.stops (by decide)
  cases hp with
  | @string body hbody =>
    obtain ⟨htake, hdrop⟩ := takeWhile_exact (ne_of_not_mem hbody)
      (by decide : ('"' != '"') = false) rest
    refine ⟨'"', body ++ '"' :: rest, by simp, ?_⟩
    change stringPiece _ = _
    simp only [stringPiece, htake, hdrop]
  | @whole digits hne hdigits =>
    obtain ⟨d, digits, rfl⟩ := List.exists_cons_of_ne_nil hne
    have hplaces : NoPlaces rest := by
      rintro d' r rfl
      exact absurd (h _ rfl) (by decide)
    refine ⟨d, digits ++ rest, rfl, ?_⟩
    rw [nextPiece_digit _ (hdigits d (by simp)), ← List.cons_append,
      numberPiece_whole hdigits hdigit hplaces]
  | @decimal digits places hne hdigits hne' hplaces =>
    obtain ⟨d, digits, rfl⟩ := List.exists_cons_of_ne_nil hne
    obtain ⟨d', places, rfl⟩ := List.exists_cons_of_ne_nil hne'
    obtain ⟨hplace, hlater⟩ := List.forall_mem_cons.1 hplaces
    obtain ⟨htake, hdrop⟩ := takeWhile_stops hlater hdigit
    refine ⟨d, digits ++ '.' :: d' :: (places ++ rest), by simp, ?_⟩
    rw [nextPiece_digit _ (hdigits d (by simp)), ← List.cons_append,
      numberPiece_decimal hdigits hplace, runOf, htake, hdrop]
    simp
  | word hc hcs => exact nextPiece_wordFirst (.word hc hcs []) (h.stops (by decide))
  | symbol s => exact nextPiece_symbol_beforeBlank s h
  | comment | unterminated | newline | blank | other => cases htoken

/-- A piece that gives a token begins with no blank. -/
theorem Belongs.stops_blank {p : Piece} {rest : List Char} (h : Belongs p.cls p.text rest)
    (htoken : p.cls.isToken = true) : Stops isBlank p.text := by
  obtain ⟨cls, text⟩ := p
  dsimp only at h htoken ⊢
  intro d hd
  cases h with
  | string =>
    obtain rfl := Option.some.inj hd
    decide
  | whole hne hdigits =>
    obtain ⟨c, digits, rfl⟩ := List.exists_cons_of_ne_nil hne
    obtain rfl := Option.some.inj hd
    exact isBlank_of_digit (hdigits _ (by simp))
  | decimal hne hdigits =>
    obtain ⟨c, digits, rfl⟩ := List.exists_cons_of_ne_nil hne
    obtain rfl := Option.some.inj hd
    exact isBlank_of_digit (hdigits _ (by simp))
  | word hc =>
    obtain rfl := Option.some.inj hd
    exact isBlank_of_wordStart hc
  | symbol s =>
    cases s <;> obtain rfl := Option.some.inj hd <;> decide
  | comment | unterminated | newline | blank | other => cases htoken

/-- The blank between two tokens. -/
def spacePiece : Piece := ⟨.blank, [' ']⟩

/-- The text of pieces that give tokens begins with no blank. -/
theorem stops_blank_spaced {p : Piece} {ps : List Piece} (htoken : p.cls.isToken = true)
    (hp : Belongs p.cls p.text []) :
    Stops isBlank ([' '].intercalate ((p :: ps).map Piece.text)) := by
  obtain ⟨c, text, htext⟩ := List.exists_cons_of_ne_nil hp.ne_nil
  have hc := hp.stops_blank htoken c (by rw [htext]; rfl)
  intro d hd
  cases ps with
  | nil =>
    rw [List.map_singleton, List.intercalate_singleton, htext] at hd
    exact Option.some.inj hd ▸ hc
  | cons q ps =>
    rw [List.map_cons, List.map_cons, List.intercalate_cons_cons, htext] at hd
    exact Option.some.inj hd ▸ hc

/-- Pieces that give tokens, **with blanks between them**, are the pieces of their text. -/
theorem pieces_spaced {ps : List Piece}
    (h : ∀ p ∈ ps, p.cls.isToken = true ∧ Belongs p.cls p.text []) :
    pieces ([' '].intercalate (ps.map Piece.text)) = ps.intersperse spacePiece := by
  induction ps with
  | nil => rfl
  | cons p ps ih =>
    obtain ⟨⟨htoken, hp⟩, hps⟩ := List.forall_mem_cons.1 h
    have ih := ih hps
    cases ps with
    | nil =>
      have hend : BlankNext [] := nofun
      obtain ⟨c, cs, htext, hnext⟩ := nextPiece_beforeBlank hp htoken hend
      rw [List.append_nil] at htext
      rw [List.map_singleton, List.intercalate_singleton, htext, pieces_cons, hnext]
      rfl
    | cons q ps =>
      -- The blank is a piece by itself, since the next token begins with none.
      obtain ⟨hqtoken, hq⟩ := hps q (List.mem_cons_self ..)
      have hstops : Stops isBlank ([' '].intercalate ((q :: ps).map Piece.text)) :=
        stops_blank_spaced hqtoken hq
      rw [List.map_cons, List.map_cons, List.intercalate_cons_cons, ← List.map_cons]
      generalize [' '].intercalate ((q :: ps).map Piece.text) = later at ih hstops
      have hnone : ∀ c ∈ ([] : List Char), isBlank c = true := nofun
      obtain ⟨htake, hdrop⟩ := takeWhile_stops hnone hstops
      rw [List.nil_append] at htake hdrop
      have hblank : BlankNext (' ' :: later) := by
        rintro _ ⟨⟩
        rfl
      obtain ⟨c, cs, htext, hnext⟩ := nextPiece_beforeBlank hp htoken hblank
      rw [List.append_assoc, List.singleton_append, htext, pieces_cons, hnext, pieces_cons,
        nextPiece_blank _ (by decide), runOf, htake, hdrop, ih]
      rfl

/-! ### Tokens that are written out -/

/-- **Tokens written out**: their spellings, with blanks between them. -/
def writtenOut (ts : List Token) : String := " ".intercalate (ts.map Token.lexeme)

/-- Pieces that give these tokens, with blanks between them, give nothing else. -/
theorem scanPieces_spaced {ts : List Token} {piece : Token → Piece}
    (h : ∀ t ∈ ts, (piece t).problem? = none ∧
      ∀ line, (piece t).token? line = some ⟨t.kind, t.lexeme, line, t.kind.valueOf t.lexeme⟩)
    (line : Nat) :
    (scanPieces line ((ts.map piece).intersperse spacePiece)).findings = [] ∧
      (scanPieces line ((ts.map piece).intersperse spacePiece)).tokens.map Token.content =
        ts.map fun t => (t.kind, t.lexeme, t.kind.valueOf t.lexeme) := by
  induction ts generalizing line with
  | nil => exact ⟨rfl, rfl⟩
  | cons t ts ih =>
    obtain ⟨⟨hproblem, htoken⟩, hts⟩ := List.forall_mem_cons.1 h
    have ih := ih hts
    cases ts with
    | nil => simp [scanPieces, hproblem, htoken, Token.content]
    | cons u ts =>
      obtain ⟨hfindings, htokens⟩ := ih (line + lineCount (piece t).text + lineCount [' '])
      have hspace : spacePiece.problem? = none ∧ ∀ line, spacePiece.token? line = none :=
        ⟨rfl, fun _ => rfl⟩
      rw [List.map_cons, List.map_cons, List.intersperse_cons_cons, ← List.map_cons]
      simp only [scanPieces, hproblem, htoken, hspace, Option.map_none, Option.toList_none,
        Option.toList_some, List.nil_append, List.singleton_append, List.map_cons]
      exact ⟨hfindings, congrArg _ htokens⟩

/-- Tokens that are spelled as their kinds allow are scanned **without a finding**, and come back
with the values that go with their spellings. -/
theorem scan_writtenOut {ts : List Token} (h : ∀ t ∈ ts, t.kind.Spells t.lexeme) :
    (scan (writtenOut ts).toList).findings = [] ∧
      (scan (writtenOut ts).toList).tokens.map Token.content =
        ts.map fun t => (t.kind, t.lexeme, t.kind.valueOf t.lexeme) := by
  have hcls := fun t ht => (h t ht).exists_piece
  have : Nonempty PieceClass := ⟨.blank⟩
  choose! cls htoken hbelongs hgives using hcls
  let piece : Token → Piece := fun t => ⟨cls t, t.lexeme.toList⟩
  have htext : (writtenOut ts).toList = [' '].intercalate ((ts.map piece).map Piece.text) := by
    simp [writtenOut, piece, Function.comp_def]
  have hpieces : pieces (writtenOut ts).toList = (ts.map piece).intersperse spacePiece := by
    rw [htext]
    refine pieces_spaced fun p hp => ?_
    obtain ⟨t, ht, rfl⟩ := List.mem_map.1 hp
    exact ⟨htoken t ht, hbelongs t ht⟩
  rw [scan, hpieces]
  refine scanPieces_spaced (fun t ht => ⟨?_, hgives t ht⟩) 1
  exact Piece.problem?_of_isToken (htoken t ht)

/-- The content of a token that is spelled right is told by its kind and its spelling. -/
theorem scan_content (cs : List Char) :
    ((scan cs).tokens.map fun t => (t.kind, t.lexeme, t.kind.valueOf t.lexeme)) =
      (scan cs).tokens.map Token.content :=
  List.map_congr_left fun t ht => by rw [Token.content, (scan_genuine cs t ht).value]

/-- All that is left of the end mark without its line is the same for every text. -/
theorem Scan.content_allTokens (s : Scan) :
    s.allTokens.map Token.content = s.tokens.map Token.content ++ [(.eof, "", .none)] := by
  rw [allTokens, List.map_append]
  rfl

/-- The tokens of a text are all but the end mark. -/
theorem scan_tokens_eq_filter (cs : List Char) :
    (scan cs).allTokens.filter (fun t => t.kind != .eof) = (scan cs).tokens := by
  have hkind : ∀ t ∈ (scan cs).tokens, (t.kind != .eof) = true := fun t ht =>
    bne_iff_ne.2 (scan_genuine cs t ht).spells.ne_eof
  rw [Scan.allTokens, List.filter_append, List.filter_eq_self.2 hkind]
  exact List.append_nil _

/-- **Rescanning gives the tokens back.**  The tokens of a text, whatever was found in it, are
written out without the end mark; scanning that finds nothing, and gives the same kinds, lexemes and
values.  Tokens that are put together by other means, each spelled as its kind allows, come back
with their kinds and lexemes, whichever of them stand side by side. -/
theorem rescan :
    (∀ source : String,
      let first := scan source.toList
      let again := scan (writtenOut (first.allTokens.filter fun t => t.kind != .eof)).toList
      again.findings = [] ∧
        again.allTokens.map Token.content = first.allTokens.map Token.content) ∧
    (∀ ts : List Token, (∀ t ∈ ts, t.kind.Spells t.lexeme) →
      let again := scan (writtenOut ts).toList
      again.findings = [] ∧
        (again.allTokens.map fun t => (t.kind, t.lexeme)) =
          (ts.map fun t => (t.kind, t.lexeme)) ++ [(.eof, "")]) := by
  constructor
  · intro source first again
    obtain ⟨hfindings, htokens⟩ :=
      scan_writtenOut fun t ht => (scan_genuine source.toList t ht).spells
    rw [scan_content] at htokens
    simp only [again, first, scan_tokens_eq_filter]
    exact ⟨hfindings, by rw [Scan.content_allTokens, Scan.content_allTokens, htokens]⟩
  · intro ts hts again
    obtain ⟨hfindings, htokens⟩ := scan_writtenOut hts
    refine ⟨hfindings, ?_⟩
    have hkinds := congrArg (List.map fun c => (c.1, c.2.1)) htokens
    simp only [List.map_map, Function.comp_def, Token.content] at hkinds
    rw [Scan.allTokens, List.map_append, hkinds]
    rfl

/-- Neighbours that would fuse without the blanks, a name that begins like a keyword, and a string
over two lines. -/
theorem rescan_neighbours :
    let ts : List Token :=
      [⟨.symbol .slash, "/", 1, .none⟩, ⟨.symbol .slash, "/", 1, .none⟩,
        ⟨.symbol .equal, "=", 1, .none⟩, ⟨.symbol .equalEqual, "==", 1, .none⟩,
        ⟨.number, "1", 1, .none⟩, ⟨.symbol .dot, ".", 1, .none⟩, ⟨.number, "2.50", 1, .none⟩,
        ⟨.identifier, "classy", 1, .none⟩, ⟨.keyword .class_, "class", 1, .none⟩,
        ⟨.string, "\"// \n 1\"", 1, .none⟩]
    (∀ t ∈ ts, t.kind.Spells t.lexeme) ∧
      (scan "/ / = == 1 . 2.50 classy class \"// \n 1\"".toList).findings = [] ∧
      ((scan "/ / = == 1 . 2.50 classy class \"// \n 1\"".toList).allTokens.map fun t =>
        (t.kind, t.lexeme)) = (ts.map fun t => (t.kind, t.lexeme)) ++ [(.eof, "")] := by
  intro ts
  have hspells : ∀ t ∈ ts, t.kind.Spells t.lexeme := by
    simp only [ts, List.forall_mem_cons]
    have hwhole : Token.Kind.Spells .number (String.ofList ['1']) :=
      .whole (by decide) (List.all_eq_true.1 (by decide))
    have hdecimal : Token.Kind.Spells .number (String.ofList (['2'] ++ '.' :: ['5', '0'])) :=
      .decimal (by decide) (List.all_eq_true.1 (by decide)) (by decide)
        (List.all_eq_true.1 (by decide))
    have hstring : Token.Kind.Spells .string (String.ofList ('"' :: "// \n 1".toList ++ ['"'])) :=
      .string (by decide)
    exact ⟨.symbol .slash, .symbol .slash, .symbol .equal, .symbol .equalEqual, hwhole,
      .symbol .dot, hdecimal, .identifier (by decide), .keyword .class_, hstring, nofun⟩
  exact ⟨hspells, rescan.2 ts hspells⟩

end Lox
