/-
**The shortest decimal reads back, and none is shorter.**

Two neighbours on each grid of decimals are tried, from the coarsest grid on.  If any decimal of the
grid lies around a double, one of the two does; and a decimal of few digits that lies around it is
on one of the coarse grids, or has a power of ten between itself and the double that is.  A step of
the seventeenth grid is smaller than the distance between the double and its neighbours, so that the
search ends there at the latest.

Main definitions:

* `Lox.Decimal.value` — **the exact value** of a decimal;
* `Lox.leadOf` — the exponent of the leading digit of a double;
* `Lox.floorOn` — the coefficient of the decimal below a double on a grid.

Main results:

* `Lox.RoundingSpan.holds_iff` — the span of a double is what lies around it;
* `Lox.Decimal.magnitude_of_roundsTo` — a decimal reads back as the double that it rounds to;
* `Lox.leadingExponent_bounds` — the exponent of the leading digit of a quotient;
* `Lox.gridPoint?_isSome`, `Lox.gridPoint?_seventeen` — **where the search finds a decimal**;
* `Lox.shortestDecimal_around` — the decimal that is found lies around the double;
* `Lox.shortestDecimal_shortest` — **no decimal with fewer digits** rounds to it.
-/

import Lox.Number.Shortest
import Lox.Proofs.Number.Rounding

set_option relaxedAutoImplicit false
set_option autoImplicit false

namespace Lox

/-! ### Decimals -/

namespace Decimal

/-- **The exact value** of a decimal. -/
def value (d : Decimal) : ℚ := d.coefficient * 10 ^ d.exponent

theorem value_eq (d : Decimal) : d.value = d.numerator / d.denominator := by
  have hten : (10 : ℚ) ≠ 0 := by norm_num
  obtain ⟨coefficient, exponent⟩ := d
  simp only [value, numerator, denominator, Nat.pow_eq]
  rcases Int.le_total 0 exponent with h | h
  · obtain ⟨n, rfl⟩ := Int.eq_ofNat_of_zero_le h
    simp
  · obtain ⟨n, hn⟩ := Int.eq_ofNat_of_zero_le (Int.neg_nonneg_of_nonpos h)
    obtain rfl : exponent = -(n : ℤ) := by omega
    simp [div_eq_mul_inv]

/-- The value of a decimal in units. -/
theorem value_eq_units (d : Decimal) :
    d.value = ((d.numerator * unitsPerOne : Nat) : ℚ) / d.denominator / unitsPerOne := by
  have hone : (unitsPerOne : ℚ) ≠ 0 := Nat.cast_ne_zero.2 unitsPerOne_pos.ne'
  rw [value_eq, Nat.cast_mul, mul_div_right_comm, mul_div_assoc, div_self hone, mul_one]

section

variable {d : Decimal} {b : Nat}

/-- A decimal, taken in units, lies between the half-way points if its value is around the
double. -/
theorem spans_iff_around :
    Spans (d.numerator * unitsPerOne) d.denominator b ↔ Around b d.value := by
  rw [value_eq_units]
  exact spans_iff d.denominator_pos

/-- A decimal **reads back** as the finite double that it rounds to. -/
theorem magnitude_of_roundsTo (h : RoundsTo d.value b) (hb : b < Number.infinityBits) :
    d.magnitude = b :=
  nearestBits_of_roundsTo d.denominator_pos (d.value_eq_units ▸ h) hb

end

/-- A decimal around a double that is not zero is not zero either. -/
theorem coefficient_pos (d : Decimal) {b : Nat} (hb : 0 < b) (h : Around b d.value) :
    0 < d.coefficient := by
  refine Nat.pos_of_ne_zero fun hzero => ?_
  have hlower := h.lower
  rw [value, hzero, Nat.cast_zero, zero_mul, mul_zero] at hlower
  linarith [binaryValue_nonneg (b - 1), binaryValue_pred_lt hb]

end Decimal

/-- The span of a double is **what lies around it**. -/
theorem RoundingSpan.holds_iff {b : Nat} {d : Decimal} :
    (RoundingSpan.ofBits b).holds d = true ↔ Around b d.value := by
  have hp : 2 * unitsPerOne * d.numerator = 2 * (d.numerator * unitsPerOne) := by ring
  rw [← Decimal.spans_iff_around]
  simp only [holds, ofBits, hp]
  constructor
  · intro h
    split at h
    · rename_i heven
      simp only [Bool.and_eq_true, decide_eq_true_eq] at h
      exact ⟨h.1, h.2, fun hodd => absurd (eq_of_beq heven) (by omega)⟩
    · simp only [Bool.and_eq_true, decide_eq_true_eq] at h
      exact ⟨h.1.le, h.2.le, fun _ => h⟩
  · intro h
    split
    · simpa using ⟨h.lower, h.upper⟩
    · rename_i hodd
      simpa using h.odd (by simpa using hodd)

/-! ### The leading digit -/

/-- Digits are as many as the number needs. -/
theorem toDigits_bounds {n : Nat} (hn : 0 < n) :
    ∃ k, (Nat.toDigits 10 n).length = k + 1 ∧ 10 ^ k ≤ n ∧ n < 10 ^ (k + 1) := by
  obtain ⟨k, hk⟩ := Nat.exists_eq_succ_of_ne_zero
    (List.length_pos_iff.2 (Nat.toDigits_ne_nil (b := 10) (n := n))).ne'
  refine ⟨k, hk, ?_, (Nat.length_toDigits_le_iff (by decide) (Nat.succ_pos k)).1 hk.le⟩
  rcases Nat.eq_zero_or_pos k with rfl | hpos
  · exact hn
  · by_contra hlt
    have := (Nat.length_toDigits_le_iff (b := 10) (by decide) hpos).2 (Nat.lt_of_not_le hlt)
    omega

/-- **The exponent of the leading digit** of a quotient. -/
theorem leadingExponent_bounds {p r : Nat} (hp : 0 < p) (hr : 0 < r) :
    (10 : ℚ) ^ leadingExponent p r ≤ (p : ℚ) / r ∧
      (p : ℚ) / r < 10 ^ (leadingExponent p r + 1) := by
  have hp' : (0 : ℚ) < p := Nat.cast_pos.2 hp
  have hr' : (0 : ℚ) < r := Nat.cast_pos.2 hr
  rw [le_div_iff₀ hr', div_lt_iff₀ hr']
  unfold leadingExponent
  split
  · rename_i hle
    obtain ⟨k, hk, hlower, hupper⟩ := toDigits_bounds (Nat.div_pos hle hr)
    have hexponent : (((Nat.toDigits 10 (p / r)).length : ℤ) - 1) = k := by omega
    rw [hexponent, zpow_natCast, ← Nat.cast_succ, zpow_natCast]
    rw [Nat.le_div_iff_mul_le hr] at hlower
    rw [Nat.div_lt_iff_lt_mul hr] at hupper
    exact ⟨by exact_mod_cast hlower, by exact_mod_cast hupper⟩
  · rename_i hlt
    obtain ⟨k, hk, hlower, hupper⟩ := toDigits_bounds (Nat.div_pos (by omega : p ≤ r - 1) hp)
    have hexponent : -((Nat.toDigits 10 ((r - 1) / p)).length : ℤ) + 1 = -(k : ℤ) := by omega
    rw [hexponent, hk, zpow_neg, zpow_neg, zpow_natCast, zpow_natCast]
    rw [Nat.le_div_iff_mul_le hp] at hlower
    rw [Nat.div_lt_iff_lt_mul hp] at hupper
    rw [inv_mul_le_iff₀ (by positivity), lt_inv_mul_iff₀ (by positivity)]
    have hle : r ≤ 10 ^ (k + 1) * p := by omega
    have hlt : 10 ^ k * p < r := by omega
    exact ⟨by exact_mod_cast hle, by exact_mod_cast hlt⟩

/-- The exponent of the leading digit of a double. -/
def leadOf (b : Nat) : Int := leadingExponent (unitsOf b) unitsPerOne

theorem leadOf_bounds {b : Nat} (hb : 0 < b) :
    (10 : ℚ) ^ leadOf b ≤ binaryValue b ∧ binaryValue b < 10 ^ (leadOf b + 1) := by
  rw [binaryValue_eq]
  exact leadingExponent_bounds (unitsOf_strictMono hb) unitsPerOne_pos

/-! ### Grids -/

/-- The coefficient of the decimal **below a double on a grid**. -/
def floorOn (b : Nat) (exponent : Int) : Nat :=
  2 * unitsOf b * Nat.pow 10 (-exponent).toNat / (2 * unitsPerOne * Nat.pow 10 exponent.toNat)

section

variable {b : Nat} {exponent : Int}

theorem floorOn_bounds (b : Nat) (exponent : Int) :
    floorOn b exponent * (10 : ℚ) ^ exponent ≤ binaryValue b ∧
      binaryValue b < (floorOn b exponent + 1) * (10 : ℚ) ^ exponent := by
  have hone : (0 : ℚ) < unitsPerOne := Nat.cast_pos.2 unitsPerOne_pos
  have hpower : (10 : ℚ) ^ exponent = 10 ^ exponent.toNat / 10 ^ (-exponent).toNat := by
    rw [← zpow_natCast, ← zpow_natCast, ← zpow_sub₀ (by norm_num)]
    congr 1
    omega
  have hstep : 0 < 2 * unitsPerOne * 10 ^ exponent.toNat :=
    Nat.mul_pos (Nat.mul_pos (by decide) unitsPerOne_pos) (Nat.pow_pos (by decide))
  have hfloor : floorOn b exponent = 2 * unitsOf b * 10 ^ (-exponent).toNat /
      (2 * unitsPerOne * 10 ^ exponent.toNat) := rfl
  have hlower := (Nat.le_div_iff_mul_le hstep).1 hfloor.le
  have hupper := (Nat.div_lt_iff_lt_mul hstep).1 (Nat.lt_succ_of_le hfloor.ge)
  generalize floorOn b exponent = f at hlower hupper ⊢
  rw [binaryValue_eq, hpower, ← mul_div_assoc, ← mul_div_assoc,
    div_le_div_iff₀ (by positivity) hone, div_lt_div_iff₀ hone (by positivity)]
  constructor
  · have hcast : (f * (2 * unitsPerOne * 10 ^ exponent.toNat) : ℚ) ≤
        2 * unitsOf b * 10 ^ (-exponent).toNat := by exact_mod_cast hlower
    linarith
  · have hcast : (2 * unitsOf b * 10 ^ (-exponent).toNat : ℚ) <
        (f + 1) * (2 * unitsPerOne * 10 ^ exponent.toNat) := by exact_mod_cast hupper
    linarith

/-- What is found on a grid lies around the double, and is one of its two neighbours there. -/
theorem gridPoint?_eq_some {d : Decimal} (h : gridPoint? b exponent = some d) :
    Around b d.value ∧
      (d = ⟨floorOn b exponent, exponent⟩ ∨ d = ⟨floorOn b exponent + 1, exponent⟩) := by
  unfold gridPoint? at h
  dsimp only at h
  split at h
  · -- Both neighbours lie in the span, and the nearer one is one of the two.
    rename_i hbelow habove
    obtain rfl := Option.some.inj h
    rcases roundDiv_cases (2 * unitsOf b * Nat.pow 10 (-exponent).toNat)
      (2 * unitsPerOne * Nat.pow 10 exponent.toNat) with hround | hround
    · rw [hround]
      exact ⟨RoundingSpan.holds_iff.1 hbelow, .inl rfl⟩
    · rw [hround]
      exact ⟨RoundingSpan.holds_iff.1 habove, .inr rfl⟩
  · rename_i hbelow _
    obtain rfl := Option.some.inj h
    exact ⟨RoundingSpan.holds_iff.1 hbelow, .inl rfl⟩
  · rename_i _ habove
    obtain rfl := Option.some.inj h
    exact ⟨RoundingSpan.holds_iff.1 habove, .inr rfl⟩
  · cases h

/-- If **any decimal of a grid** lies around a double, one is found there. -/
theorem gridPoint?_isSome {c : Nat} (h : Around b (c * (10 : ℚ) ^ exponent)) :
    (gridPoint? b exponent).isSome = true := by
  obtain ⟨hlower, hupper⟩ := floorOn_bounds b exponent
  have hpower : (0 : ℚ) < 10 ^ exponent := by positivity
  -- One of the two neighbours stands between the double and the decimal.
  have hneighbour : Around b (Decimal.value ⟨floorOn b exponent, exponent⟩) ∨
      Around b (Decimal.value ⟨floorOn b exponent + 1, exponent⟩) := by
    rcases Nat.lt_or_ge (floorOn b exponent) c with hlt | hge
    · right
      have hle : ((floorOn b exponent : ℚ) + 1) * 10 ^ exponent ≤ c * 10 ^ exponent :=
        mul_le_mul_of_nonneg_right (by exact_mod_cast hlt) hpower.le
      rw [Decimal.value, Nat.cast_succ]
      exact (Around.self b).between h hupper.le hle
    · left
      have hle : (c : ℚ) * 10 ^ exponent ≤ floorOn b exponent * 10 ^ exponent :=
        mul_le_mul_of_nonneg_right (by exact_mod_cast hge) hpower.le
      exact h.between (Around.self b) hle hlower
  rw [← RoundingSpan.holds_iff, ← RoundingSpan.holds_iff] at hneighbour
  unfold gridPoint?
  dsimp only
  split
  · rfl
  · rfl
  · rfl
  · rename_i hbelow habove
    rcases hneighbour with hholds | hholds
    · exact absurd (hholds.symm.trans hbelow) (by decide)
    · exact absurd (hholds.symm.trans habove) (by decide)

/-! ### Where the search ends -/

/-- The distance to the double before is not larger than the one to the double behind, and is at
least the value's `2 ^ 53`th part. -/
theorem binaryValue_gap (hb : 0 < b) :
    binaryValue b - binaryValue (b - 1) ≤ binaryValue (b + 1) - binaryValue b ∧
      binaryValue b ≤ 2 ^ 53 * (binaryValue b - binaryValue (b - 1)) := by
  obtain ⟨c, rfl⟩ := Nat.exists_eq_succ_of_ne_zero hb.ne'
  have hone : (0 : ℚ) < unitsPerOne := Nat.cast_pos.2 unitsPerOne_pos
  obtain ⟨m, s, rfl, hm, hscale⟩ := exists_scaled c
  have hbits : m + s * binade + 1 = (m + 1) + s * binade := by omega
  have hself : unitsOf (m + s * binade + 1) = (m + 1) * 2 ^ s := unitsOf_succ hm hscale
  have hpred : unitsOf (m + s * binade) = m * 2 ^ s := unitsOf_scaled hm.le hscale
  have hsucc : (m + 2) * 2 ^ s ≤ unitsOf (m + s * binade + 1 + 1) := by
    rw [hbits]
    exact le_unitsOf_succ (by omega) (by omega)
  rw [Nat.succ_eq_add_one, Nat.add_sub_cancel, binaryValue_eq, binaryValue_eq, binaryValue_eq,
    ← sub_div, ← sub_div, ← mul_div_assoc, div_le_div_iff_of_pos_right hone,
    div_le_div_iff_of_pos_right hone, hself, hpred]
  have hsmall : (m : ℚ) + 1 ≤ 2 ^ 53 := by
    have hle : m + 1 ≤ 2 ^ 53 := hm
    exact_mod_cast hle
  have hcast : ((m : ℚ) + 2) * 2 ^ s ≤ unitsOf (m + s * binade + 1 + 1) := by
    exact_mod_cast hsucc
  push_cast
  constructor
  · linarith
  · have hmul := mul_le_mul_of_nonneg_right hsmall (by positivity : (0 : ℚ) ≤ 2 ^ s)
    linarith

/-- Of two fractions that are not further from each other than a double from its neighbours, with
the double between them, **the nearer one** lies around it. -/
theorem around_nearer (hb : 0 < b) {q step : ℚ} (hstep : step < binaryValue b - binaryValue (b - 1))
    (hlower : q ≤ binaryValue b) (hupper : binaryValue b < q + step) :
    Around b q ∨ Around b (q + step) := by
  obtain ⟨hgap, -⟩ := binaryValue_gap hb
  have hsucc := binaryValue_lt_succ b
  rcases le_total (2 * (binaryValue b - q)) step with hnear | hfar
  · exact .inl ⟨by linarith, by linarith, fun _ => ⟨by linarith, by linarith⟩⟩
  · exact .inr ⟨by linarith, by linarith, fun _ => ⟨by linarith, by linarith⟩⟩

/-- **Seventeen digits suffice**: a step of the grid is smaller than the distance between the double
and its neighbours. -/
theorem gridPoint?_seventeen (hb : 0 < b) : (gridPoint? b (leadOf b - 16)).isSome = true := by
  obtain ⟨hlead, -⟩ := leadOf_bounds hb
  obtain ⟨-, hvalue⟩ := binaryValue_gap hb
  obtain ⟨hlower, hupper⟩ := floorOn_bounds b (leadOf b - 16)
  have hpower : (10 : ℚ) ^ leadOf b = 10 ^ (leadOf b - 16) * 10 ^ 16 := by
    rw [zpow_sub₀ (by norm_num)]
    norm_num
  have hpos : (0 : ℚ) < 10 ^ (leadOf b - 16) := by positivity
  have hstep : (10 : ℚ) ^ (leadOf b - 16) < binaryValue b - binaryValue (b - 1) := by
    rw [hpower] at hlead
    linarith
  rw [add_one_mul] at hupper
  rcases around_nearer hb hstep hlower hupper with hbelow | habove
  · exact gridPoint?_isSome hbelow
  · rw [← add_one_mul, ← Nat.cast_succ] at habove
    exact gridPoint?_isSome habove

/-- A decimal with few digits that lies around a double is **on a coarse grid**, or a power of ten
lies between the two. -/
theorem exists_gridPoint (hb : 0 < b) {d : Decimal} (h : Around b d.value) {k : Nat}
    (hd : d.coefficient < 10 ^ (k + 1)) :
    ∃ j ≤ k, (gridPoint? b (leadOf b - (j : Nat))).isSome = true := by
  obtain ⟨hlead, hlead'⟩ := leadOf_bounds hb
  have hten : (1 : ℚ) < 10 := by norm_num
  obtain ⟨j, -, hlower, hupper⟩ := toDigits_bounds (d.coefficient_pos hb h)
  have hj : j ≤ k :=
    Nat.lt_succ_iff.1 ((Nat.pow_lt_pow_iff_right (by decide)).1 (hlower.trans_lt hd))
  have hscaled : ∀ n : Nat, ((10 ^ n : Nat) : ℚ) * 10 ^ d.exponent = 10 ^ (d.exponent + n) := by
    intro n
    rw [zpow_add₀ (by norm_num), zpow_natCast, mul_comm]
    push_cast
    rfl
  have hexponent : (0 : ℚ) ≤ 10 ^ d.exponent := by positivity
  rcases lt_trichotomy (d.exponent + j) (leadOf b) with hlt | heq | hgt
  · have hle : d.value ≤ 10 ^ leadOf b :=
      calc d.value ≤ ((10 ^ (j + 1) : Nat) : ℚ) * 10 ^ d.exponent :=
            mul_le_mul_of_nonneg_right (Nat.cast_le.2 hupper.le) hexponent
        _ = 10 ^ (d.exponent + (j + 1 : Nat)) := hscaled _
        _ ≤ 10 ^ leadOf b := zpow_le_zpow_right₀ hten.le (by omega)
    have hpoint : Around b ((1 : Nat) * 10 ^ (leadOf b - (0 : Nat))) := by
      simpa using h.between (Around.self b) hle hlead
    exact ⟨0, Nat.zero_le k, gridPoint?_isSome hpoint⟩
  · refine ⟨j, hj, ?_⟩
    rw [← heq, add_sub_cancel_right]
    exact gridPoint?_isSome h
  · have hge : (10 : ℚ) ^ (leadOf b + 1) ≤ d.value :=
      calc (10 : ℚ) ^ (leadOf b + 1) ≤ 10 ^ (d.exponent + j) :=
            zpow_le_zpow_right₀ hten.le (by omega)
        _ = ((10 ^ j : Nat) : ℚ) * 10 ^ d.exponent := (hscaled j).symm
        _ ≤ d.value := mul_le_mul_of_nonneg_right (Nat.cast_le.2 hlower) hexponent
    have hpoint : Around b ((10 : Nat) * 10 ^ (leadOf b - (0 : Nat))) := by
      rw [Nat.cast_zero, sub_zero, Nat.cast_ofNat, mul_comm, ← zpow_add_one₀ (by norm_num)]
      exact (Around.self b).between h hlead'.le hge
    exact ⟨0, Nat.zero_le k, gridPoint?_isSome hpoint⟩

end

/-! ### The search -/

/-- **The search ends** on the first grid that has a decimal around the double. -/
theorem shortestDecimal_found {b k : Nat} (hk : k < maxDigits)
    (h : (gridPoint? b (leadOf b - (k : Nat))).isSome = true) :
    ∃ j ≤ k, gridPoint? b (leadOf b - (j : Nat)) = some (shortestDecimal b) := by
  let grid : Nat → Option Decimal := fun j => gridPoint? b (leadOf b - (j : Nat))
  have hsome : ((List.range (k + 1)).findSome? grid).isSome = true :=
    List.findSome?_isSome_iff.2 ⟨k, List.mem_range.2 (Nat.lt_succ_self k), h⟩
  obtain ⟨d, hd⟩ := Option.isSome_iff_exists.1 hsome
  obtain ⟨j, hj, hgrid⟩ := List.exists_of_findSome?_eq_some hd
  have hinitial : List.range (k + 1) <+: List.range maxDigits := by
    have htake := List.take_prefix (k + 1) (List.range maxDigits)
    rwa [List.take_range, Nat.min_eq_left hk] at htake
  have hfound : shortestDecimal b = d := by
    change ((List.range maxDigits).findSome? grid).getD _ = d
    rw [hinitial.findSome?_eq_some hd, Option.getD_some]
  exact ⟨j, Nat.lt_succ_iff.1 (List.mem_range.1 hj), by rw [hfound]; exact hgrid⟩

section

variable {b : Nat} (hb : 0 < b)

include hb

/-- The decimal that is found **lies around the double**. -/
theorem shortestDecimal_around : Around b (shortestDecimal b).value := by
  obtain ⟨j, -, hj⟩ := shortestDecimal_found (k := 16) (by decide) (gridPoint?_seventeen hb)
  exact (gridPoint?_eq_some hj).1

/-- The shortest decimal is not zero. -/
theorem shortestDecimal_pos : 0 < (shortestDecimal b).coefficient :=
  (shortestDecimal b).coefficient_pos hb (shortestDecimal_around hb)

/-- On the grid of the `k + 1`st digit, the decimal below a double has no more digits. -/
theorem floorOn_lt (k : Nat) : floorOn b (leadOf b - (k : Nat)) < 10 ^ (k + 1) := by
  have hten : (10 : ℚ) ≠ 0 := by norm_num
  have hpos : (0 : ℚ) < 10 ^ (leadOf b - (k : Nat)) := by positivity
  have hlead := (leadOf_bounds hb).2
  have hlower := (floorOn_bounds b (leadOf b - (k : Nat))).1
  have hpower : (10 : ℚ) ^ (leadOf b + 1) = 10 ^ (k + 1) * 10 ^ (leadOf b - (k : Nat)) := by
    rw [← zpow_natCast, ← zpow_add₀ hten]
    congr 1
    push_cast
    ring
  rw [hpower] at hlead
  have hlt := lt_of_mul_lt_mul_right (hlower.trans_lt hlead) hpos.le
  exact_mod_cast hlt

/-- **No decimal with fewer digits** rounds to the double: if one with at most `k + 1` digits does,
the decimal that is found has at most as many, or is one, followed by zeros. -/
theorem shortestDecimal_shortest {d : Decimal} (h : RoundsTo d.value b) {k : Nat}
    (hd : d.coefficient < 10 ^ (k + 1)) : (shortestDecimal b).coefficient ≤ 10 ^ (k + 1) := by
  have hfound : ∃ j ≤ k, gridPoint? b (leadOf b - (j : Nat)) = some (shortestDecimal b) := by
    rcases Nat.lt_or_ge k maxDigits with hlt | hge
    · obtain ⟨i, hi, hsome⟩ := exists_gridPoint hb (h.around hb) hd
      obtain ⟨j, hj, hgrid⟩ := shortestDecimal_found (lt_of_le_of_lt hi hlt) hsome
      exact ⟨j, hj.trans hi, hgrid⟩
    · obtain ⟨j, hj, hgrid⟩ := shortestDecimal_found (k := 16) (by decide) (gridPoint?_seventeen hb)
      exact ⟨j, hj.trans (le_trans (by decide) hge), hgrid⟩
  obtain ⟨j, hj, hgrid⟩ := hfound
  have hcoefficient : (shortestDecimal b).coefficient ≤ 10 ^ (j + 1) := by
    have hlt := floorOn_lt hb j
    rcases (gridPoint?_eq_some hgrid).2 with hbelow | habove
    · rw [hbelow]
      exact hlt.le
    · rw [habove]
      exact hlt
  exact hcoefficient.trans (Nat.pow_le_pow_right (by decide) (by omega))

end

end Lox
