/-
**Scanning, one text after the other.**

Scans follow each other: the tokens and findings of the second stand behind those of the first, as
many lines further down as the first one has.  Scanning is a homomorphism from texts put together at
line ends to scans that follow each other, as long as the strings of every text but the last are
closed; and it is none where they are not, since an unterminated string goes on over the seam.

Main definitions:

* `Lox.Scan.then` — **one scan behind the other**;
* `Lox.joinLines` — texts put together at line ends.

Main results:

* `Lox.scan_joinLines` — any number of texts put together;
* `Lox.closed_iff_seams` — **where a text can be cut**;
* `Lox.scan_composes` — the tokens and findings of two texts with a line end between them.
-/

import Lox.Proofs.Token.Munch
import Lox.Proofs.Token.Seam

set_option relaxedAutoImplicit false
set_option autoImplicit false

namespace Lox

/-! ### Scans that follow each other -/

/-- **One scan behind the other**: the second one begins on the line after the last of the first. -/
def Scan.then (s t : Scan) : Scan where
  tokens := s.tokens ++ (t.below s.lastLine).tokens
  findings := s.findings ++ (t.below s.lastLine).findings
  lastLine := (t.below s.lastLine).lastLine

/-- The end mark of the second scan is the end mark of both. -/
theorem Scan.then_allTokens (s t : Scan) :
    (s.then t).allTokens = s.tokens ++ t.allTokens.map (Token.below s.lastLine) := by
  have hmark : (s.then t).endMark = t.endMark.below s.lastLine := by
    simp only [Scan.endMark, Scan.then, Scan.below, Token.endMark, Token.below, Int.natCast_add]
  simp only [Scan.allTokens, hmark, List.map_append, List.map_cons, List.map_nil]
  simp only [Scan.then, Scan.below, List.append_assoc]

/-! ### Texts put together at line ends -/

/-- The scan of a closed text, a line end and another text. -/
theorem scan_then {cs : List Char} (h : Closed cs) (rest : List Char) :
    scan (cs ++ '\n' :: rest) = (scan cs).then (scan rest) := by
  rw [scan_seam cs h, Scan.then, scan_lastLine]

/-- Texts **put together at line ends**, before a last one. -/
def joinLines (texts : List (List Char)) (last : List Char) : List Char :=
  texts.foldr (fun cs rest => cs ++ '\n' :: rest) last

/-- Closed texts put together at line ends are scanned one after the other. -/
theorem scan_joinLines {texts : List (List Char)} (h : ∀ cs ∈ texts, Closed cs)
    (last : List Char) :
    scan (joinLines texts last) = texts.foldr (fun cs => (scan cs).then) (scan last) := by
  induction texts with
  | nil => rfl
  | cons cs texts ih =>
    have hrest := ih fun ds hds => h ds (List.mem_cons_of_mem cs hds)
    rw [List.foldr_cons, ← hrest]
    exact scan_then (h cs (List.mem_cons_self ..)) _

/-! ### Where a text can be cut -/

/-- An unterminated string that is the last piece is reported on the last line. -/
theorem scanPieces_unterminated_place {ps : List Piece}
    (h : ∀ p ∈ ps.dropLast, p.cls ≠ .unterminated) (line : Nat) :
    ∀ d ∈ (scanPieces line ps).findings, d.problem = .unterminatedString →
      d.place = .line (scanPieces line ps).lastLine := by
  induction ps generalizing line with
  | nil => simp [scanPieces]
  | cons p ps ih =>
    intro d hd hproblem
    simp only [scanPieces, List.mem_append, Option.mem_toList,
      Option.map_eq_some_iff] at hd
    rcases hd with ⟨problem, hp, rfl⟩ | hd
    · -- The piece itself is the unterminated string, so that no piece is behind it.
      obtain rfl : problem = .unterminatedString := hproblem
      have hcls : p.cls = .unterminated := by
        unfold Piece.problem? at hp
        split at hp
        · assumption
        · simp at hp
        · cases hp
      cases ps with
      | nil => rfl
      | cons q ps => exact absurd hcls (h p (by simp))
    · refine ih (fun q hq => h q ?_) _ d hd hproblem
      cases ps with
      | nil => cases hq
      | cons r ps => exact List.mem_cons_of_mem p hq

/-- An unterminated string is reported on the last line of its text. -/
theorem scan_unterminated_place {cs : List Char} {d : Diagnostic} (hd : d ∈ (scan cs).findings)
    (hproblem : d.problem = .unterminatedString) : d.place = .line (1 + lineCount cs : Nat) := by
  have hcut : Cut LongestFirst cs (pieces cs) := cut_longest_iff.2 rfl
  rw [← scan_lastLine]
  exact scanPieces_unterminated_place hcut.belongs.2 1 d hd hproblem

/-- A text that keeps its findings before a line end has no unterminated string: it would go on
over the line end, and be reported one line further down. -/
theorem unreported_of_seam {cs : List Char}
    (h : (scan (cs ++ ['\n'])).findings = (scan cs).findings) :
    ∀ d ∈ (scan cs).findings, d.problem ≠ .unterminatedString := by
  intro d hd hproblem
  have hplace := scan_unterminated_place hd hproblem
  have hlater := scan_unterminated_place (h ▸ hd) hproblem
  simp only [hplace, lineCount, List.count_append, List.count_singleton_self, Place.line.injEq]
    at hlater
  omega

/-- **Where a text can be cut.**  A text is scanned by itself, whatever follows it behind a line
end, if and only if its strings are closed. -/
theorem closed_iff_seams (cs : List Char) :
    Closed cs ↔ ∀ rest, scan (cs ++ '\n' :: rest) = (scan cs).then (scan rest) := by
  constructor
  · exact scan_then
  · intro h
    refine closed_of_unreported (unreported_of_seam ?_)
    rw [h []]
    exact List.append_nil _

/-- **Scanning composes at line ends.**  If the scan of the first text reports no unterminated
string, whatever else it reports, then the two texts with a line end between them have the tokens of
the first without its end mark, and behind them those of the second with its end mark; and they have
the findings of the first, and behind them those of the second.  What comes from the second text is
on later lines, by one and the number of line ends of the first, and is otherwise unchanged. -/
theorem scan_composes {source₁ : String}
    (h : ∀ d ∈ (scan source₁.toList).findings, d.problem ≠ .unterminatedString)
    (source₂ : String) :
    let whole := scan (source₁ ++ "\n" ++ source₂).toList
    let down := 1 + lineCount source₁.toList
    whole.allTokens = (scan source₁.toList).tokens ++
        (scan source₂.toList).allTokens.map (fun t => { t with line := t.line + down }) ∧
      whole.findings = (scan source₁.toList).findings ++
        (scan source₂.toList).findings.map (fun d => { d with place := d.place.below down }) := by
  intro whole down
  have hwhole : whole = (scan source₁.toList).then (scan source₂.toList) := by
    rw [← scan_then (closed_of_unreported h)]
    simp [whole]
  have hdown : down = (scan source₁.toList).lastLine := (scan_lastLine _).symm
  rw [hwhole, hdown]
  exact ⟨Scan.then_allTokens .., rfl⟩

/-- A comment, a string over two lines and a stray character stand before the line end, a number, a
character of no class and an open string behind it. -/
theorem scan_composes_over_string :
    (∀ d ∈ (scan "a @ \"b\nc\" 1 // d".toList).findings, d.problem ≠ .unterminatedString) ∧
      (scan ("a @ \"b\nc\" 1 // d" ++ "\n" ++ ".5 # \"e\nf").toList).findings =
        [⟨.line 1, .unexpectedCharacter '@'⟩, ⟨.line 3, .unexpectedCharacter '#'⟩,
          ⟨.line 4, .unterminatedString⟩] := by
  have hfindings : (scan "a @ \"b\nc\" 1 // d".toList).findings =
      [⟨.line 1, .unexpectedCharacter '@'⟩] := by decide +kernel
  have hclosed : ∀ d ∈ (scan "a @ \"b\nc\" 1 // d".toList).findings,
      d.problem ≠ .unterminatedString := by
    rw [hfindings]
    simp
  refine ⟨hclosed, ?_⟩
  rw [(scan_composes hclosed ".5 # \"e\nf").2, hfindings]
  decide +kernel

end Lox
