/-
**Printed numbers read back.**

The text of a finite number denotes, exactly, a fraction that rounds to the number.  The lexer reads
such a text as one number token, unless it has a sign or an exponent, and the value of the token is
the number itself.  In a printed tree a number has the same text, but for the place behind the point
that integral numbers below `10 ^ 17` are given elsewhere.

Main results:

* `Lox.PointNumeral.scan` — **a numeral is scanned** as one token, whose value is the number that
  the fraction rounds to;
* `Lox.Number.isPlain_iff` — which numbers are written out in full;
* `Lox.Number.text_exact` — **what is printed for a number**.
-/

import Lox.Proofs.Number.Numeral
import Lox.Proofs.Token.Rescanning
import Lox.Tree.Printer

set_option relaxedAutoImplicit false
set_option autoImplicit false

namespace Lox

/-! ### Scanning -/

/-- A decimal that rounds to a finite double without a sign is read as it. -/
theorem Decimal.toNumber_of_roundsTo {d : Decimal} {x : Number} (h : RoundsTo d.value x.magnitude)
    (hx : x.isFinite = true) (hsign : x.isNegative = false) : d.toNumber = x := by
  rw [toNumber, magnitude_of_roundsTo h (of_decide_eq_true hx), ← hsign, x.ofMagnitude_magnitude]

namespace PointNumeral

variable {cs : List Char} {q : ℚ}

theorem spells (h : PointNumeral cs q) : Token.Kind.Spells .number (String.ofList cs) := by
  cases h with
  | whole h => exact .whole h.ne_nil h.digits
  | point h hplaces => exact .decimal h.ne_nil h.digits hplaces.ne_nil hplaces.digits

/-- The value of a number's text is the number that the fraction **rounds to**. -/
theorem numberValue_eq (h : PointNumeral cs q) {x : Number} (hround : RoundsTo q x.magnitude)
    (hx : x.isFinite = true) (hsign : x.isNegative = false) : numberValue cs = x := by
  cases h with
  | whole h =>
    obtain ⟨htake, hdrop⟩ := takeWhile_all h.digits
    rw [numberValue, htake, hdrop]
    refine Decimal.toNumber_of_roundsTo ?_ hx hsign
    simpa [Decimal.value] using hround
  | point h hplaces =>
    obtain ⟨htake, hdrop⟩ := takeWhile_exact h.digits (by decide : Char.isDigit '.' = false) _
    rw [numberValue, htake, hdrop]
    refine Decimal.toNumber_of_roundsTo ?_ hx hsign
    rw [Number.div_ten_pow _ rfl] at hround
    exact hround

/-- A numeral is **scanned as one token**, the number that the fraction rounds to. -/
theorem scan (h : PointNumeral cs q) {x : Number} (hround : RoundsTo q x.magnitude)
    (hx : x.isFinite = true) (hsign : x.isNegative = false) :
    (Lox.scan cs).findings = [] ∧
      (Lox.scan cs).tokens.map Token.content = [(.number, String.ofList cs, .number x)] := by
  have hspells : ∀ t ∈ [Token.mk .number (String.ofList cs) 1 .none], t.kind.Spells t.lexeme := by
    simpa using h.spells
  have hscan := scan_writtenOut hspells
  simpa [writtenOut, Token.Kind.valueOf, h.numberValue_eq hround hx hsign] using hscan

end PointNumeral

/-- A numeral without the mark of an exponent has none. -/
theorem Numeral.pointNumeral {cs : List Char} {q : ℚ} (h : Numeral cs q) (hmark : 'e' ∉ cs) :
    PointNumeral cs q := by
  cases h with
  | plain h => exact h
  | scaled => exact absurd (by simp) hmark

namespace Number

/-! ### Numbers written out in full -/

variable {x : Number}

theorem abs_value (x : Number) : |x.value| = binaryValue x.magnitude := by
  have hnonneg := binaryValue_nonneg x.magnitude
  unfold value
  split
  · rw [abs_neg, abs_of_nonneg hnonneg]
  · exact abs_of_nonneg hnonneg

/-- **Integral numbers below `10 ^ 17`** are written out in full. -/
theorem isPlain_iff (hx : x.isFinite = true) :
    x.isPlain = true ↔ (∃ n : ℤ, x.value = n) ∧ |x.value| < 10 ^ 17 := by
  have hone : (0 : ℚ) < unitsPerOne := Nat.cast_pos.2 unitsPerOne_pos
  have hlimit : (10 : ℚ) ^ 17 = (plainLimit : Nat) := by norm_num [plainLimit]
  rw [abs_value, hlimit]
  constructor
  · intro h
    obtain ⟨-, hunits, hlt⟩ := units_of_isPlain h
    have hvalue := binaryValue_of_isPlain h
    generalize x.units / unitsPerOne = n at hunits hvalue
    rw [hunits] at hlt
    refine ⟨?_, ?_⟩
    · rw [value, hvalue]
      split
      · exact ⟨-n, by push_cast; rfl⟩
      · exact ⟨n, by push_cast; rfl⟩
    · rw [hvalue]
      exact Nat.cast_lt.2 (Nat.lt_of_mul_lt_mul_right hlt)
  · rintro ⟨⟨n, hn⟩, hlt⟩
    have habs : binaryValue x.magnitude = (n.natAbs : ℚ) := by
      rw [← abs_value, hn, Nat.cast_natAbs, Int.cast_abs]
    rw [habs, Nat.cast_lt] at hlt
    have hunits : x.units = n.natAbs * unitsPerOne := by
      rw [binaryValue_eq, div_eq_iff hone.ne'] at habs
      exact_mod_cast habs
    have hsmall : n.natAbs * unitsPerOne < plainLimit * unitsPerOne :=
      Nat.mul_lt_mul_of_pos_right hlt unitsPerOne_pos
    simp only [isPlain, isIntegral, hx, hunits, Nat.mul_mod_left, decide_eq_true hsmall,
      decide_true, Bool.and_self]

/-! ### Texts -/

/-- The text that programs print has one more place than the one in a printed tree, if it is
written out in full. -/
theorem text_eq (hx : x.isFinite = true) :
    x.text = x.brief ++ if x.isPlain then ".0" else "" := by
  rw [text, render_eq_append, String.ofList_append, brief, (isFinite_iff.1 hx).1]
  cases x.isPlain <;> rfl

/-- The text of a finite number **denotes** a fraction that rounds to it, with its sign. -/
theorem text_denotes (hx : x.isFinite = true) :
    ∃ q, Denotes x.text x.isNegative q ∧ RoundsTo q x.magnitude := by
  have hending : IsEnding ['.', '0'] := .inr rfl
  obtain ⟨q, hq, hround⟩ := unsignedText_numeral hending hx
  refine ⟨q, ?_, hround⟩
  rw [text, render_eq (isFinite_iff.1 hx).1]
  cases x.isNegative with
  | false => exact .positive hq
  | true => exact .negative hq

/-- The text of a number without a sign is **scanned** as the number, if it has no exponent. -/
theorem text_scan (hx : x.isFinite = true) (hsign : x.isNegative = false)
    (hmark : 'e' ∉ x.text.toList) :
    (scan x.text.toList).findings = [] ∧
      (scan x.text.toList).tokens.map Token.content = [(.number, x.text, .number x)] := by
  have hending : IsEnding ['.', '0'] := .inr rfl
  obtain ⟨q, hq, hround⟩ := unsignedText_numeral hending hx
  have htext : x.text.toList = unsignedText ['.', '0'] x := by
    rw [text, String.toList_ofList, render_eq (isFinite_iff.1 hx).1, hsign]
    rfl
  rw [htext] at hmark ⊢
  have hscan := (hq.pointNumeral hmark).scan hround hx hsign
  rwa [← htext, String.ofList_toList, htext] at hscan

/-- **What is printed for a number is exact.**

* The text of a finite number denotes a fraction, and one only; rounded to the nearest double, with
  a tie to the even one, the fraction is the number again, and the signs are the same.
* Numbers that are no NaNs have different texts if they are different.
* Without a sign and an exponent, the text is scanned as one number token with the number as its
  value.
* A printed tree shows the same text, without the final `.0` if the number is integral and below
  `10 ^ 17`, and as it is if not. -/
theorem text_exact :
    (∀ x : Number, x.isFinite = true →
      (∃ q, Denotes x.text x.isNegative q) ∧
        ∀ negative q, Denotes x.text negative q →
          negative = x.isNegative ∧ RoundsTo q x.magnitude) ∧
    (∀ x y : Number, x.isNaN = false → y.isNaN = false → x.text = y.text → x = y) ∧
    (∀ x : Number, x.isFinite = true → x.isNegative = false → 'e' ∉ x.text.toList →
      (scan x.text.toList).findings = [] ∧
        (scan x.text.toList).tokens.map Token.content = [(.number, x.text, .number x)]) ∧
    (∀ x : Number, x.isFinite = true →
      ∃ shown, (Expr.literal (.number x)).render = .ok shown ∧
        ((∃ n : ℤ, x.value = n) ∧ |x.value| < 10 ^ 17 → x.text = shown ++ ".0") ∧
        (¬((∃ n : ℤ, x.value = n) ∧ |x.value| < 10 ^ 17) → x.text = shown)) := by
  refine ⟨fun x hx => ?_, fun x y hx hy h => ?_, fun x => text_scan, fun x hx => ?_⟩
  · obtain ⟨q, hq, hround⟩ := text_denotes hx
    refine ⟨⟨q, hq⟩, fun negative q' hq' => ?_⟩
    obtain ⟨hsign, rfl⟩ := hq'.unique hq
    exact ⟨hsign, hround⟩
  · exact render_injective (.inr rfl) hx hy (String.ofList_injective h)
  · refine ⟨x.brief, rfl, fun h => ?_, fun h => ?_⟩
    · rw [text_eq hx, if_pos ((isPlain_iff hx).2 h)]
    · rw [text_eq hx, if_neg (mt (isPlain_iff hx).1 h), String.append_empty]

/-- A power of two, whose neighbours are not equally far away, and its neighbour above. -/
theorem text_exact_power :
    let x : Number := ⟨0x3F20000000000000⟩
    let y : Number := ⟨0x3F20000000000001⟩
    x.isFinite = true ∧ x.isNegative = false ∧ x.isNaN = false ∧ y.isNaN = false ∧
      x.text = "0.0001220703125" ∧ 'e' ∉ x.text.toList ∧ x.text ≠ y.text ∧
      RoundsTo (1220703125 / 10 ^ 13) x.magnitude ∧
      (scan "0.0001220703125".toList).tokens.map Token.content =
        [(.number, "0.0001220703125", .number x)] ∧
      ∃ shown, (Expr.literal (.number x)).render = .ok shown := by
  intro x y
  have hx : x.isFinite = true := by decide
  have hsign : x.isNegative = false := by decide
  have hnan : x.isNaN = false := by decide
  have hnan' : y.isNaN = false := by decide
  have htext : x.text = "0.0001220703125" := by decide +kernel
  have hmark : 'e' ∉ x.text.toList := by
    rw [htext]
    decide
  have hdenotes : Denotes x.text false (1220703125 / 10 ^ 13) := by
    rw [htext]
    have hzero : IsDigits ['0'] := ⟨by decide, List.all_eq_true.1 (by decide)⟩
    have hplaces : IsDigits "0001220703125".toList :=
      ⟨by decide, List.all_eq_true.1 (by decide)⟩
    exact .positive (.plain (.point hzero hplaces))
  obtain ⟨hexact, hinjective, hscan, htree⟩ := text_exact
  refine ⟨hx, hsign, hnan, hnan', htext, hmark, ?_, (hexact x hx).2 _ _ hdenotes |>.2, ?_, ?_⟩
  · intro h
    exact absurd (hinjective x y hnan hnan' h) (by decide)
  · have := (hscan x hx hsign hmark).2
    rwa [htext] at this
  · obtain ⟨shown, hshown, -⟩ := htree x hx
    exact ⟨shown, hshown⟩

end Number

end Lox
