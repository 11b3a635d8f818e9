/-
**Rounding to the nearest double.**

The standard gives the value of a double by a sign, an exponent and a fraction, and rounds to the
nearest one, of two equally near ones to the one with even bits, as if the exponents went on without
end; what is rounded beyond the largest double is infinite.  The exact values that round to a double
are those between the half-way points on its two sides, and the bits that are found by rounding a
quotient to fifty-three binary places are those of the only double around whose value it lies.

Main definitions:

* `Lox.binaryValue`, `Lox.Number.value` — **the values of doubles**, as the standard gives them;
* `Lox.RoundsTo` — **rounding to the nearest**, a tie to the even bits;
* `Lox.Around` — **the fractions around a double**, between its half-way points;
* `Lox.Spans` — the same for a quotient of units.

Main results:

* `Lox.binaryValue_eq` — the value is the number of units, each of them `2 ^ (-1074)`;
* `Lox.RoundsTo.unique` — **one double only** is rounded to;
* `Lox.Around.roundsTo`, `Lox.RoundsTo.around` — a fraction rounds to the double that it is around;
* `Lox.nearestBits_of_roundsTo` — **the bits that are found** are those that are rounded to.
-/

import Mathlib.Algebra.Order.Field.Power
import Mathlib.Algebra.Order.Field.Rat
import Mathlib.Order.Monotone.Basic
import Mathlib.Tactic.FieldSimp
import Mathlib.Tactic.Linarith
import Mathlib.Tactic.Positivity
import Mathlib.Tactic.Ring
import Lox.Number.Decimal

set_option relaxedAutoImplicit false
set_option autoImplicit false

namespace Lox

/-! ### Units -/

/-- Bits taken apart into a coefficient below `2 ^ 53`, and by how many places it is shifted. -/
theorem exists_scaled (b : Nat) :
    ∃ m s, b = m + s * binade ∧ m < 2 * binade ∧ (s = 0 ∨ binade ≤ m) := by
  by_cases hb : b < binade
  · exact ⟨b, 0, by simp, by omega, .inl rfl⟩
  · refine ⟨binade + b % binade, b / binade - 1, ?_, ?_, .inr (by omega)⟩
    · simp only [binade] at *
      omega
    · have := Nat.mod_lt b (by decide : 0 < binade)
      omega

/-- The units of bits that are taken apart; the coefficient may be `2 ^ 53` as well. -/
theorem unitsOf_scaled {m s : Nat} (hm : m ≤ 2 * binade) (h : s = 0 ∨ binade ≤ m) :
    unitsOf (m + s * binade) = m * 2 ^ s := by
  have hpos : 0 < binade := by decide
  rcases Nat.lt_or_ge m binade with hlt | hge
  · obtain rfl : s = 0 := by omega
    rw [Nat.zero_mul, Nat.add_zero, Nat.pow_zero, Nat.mul_one]
    exact unitsOf_of_lt (by omega)
  · have hnot : ¬m + s * binade < binade := by omega
    rw [unitsOf, if_neg hnot, Nat.shiftLeft_eq]
    rcases Nat.lt_or_ge m (2 * binade) with hlt | hge'
    · have hmod : (m + s * binade) % binade = m - binade := by
        rw [Nat.add_mul_mod_self_right, Nat.mod_eq_sub_mod hge, Nat.mod_eq_of_lt (by omega)]
      have hdiv : (m + s * binade) / binade = s + 1 := by
        rw [Nat.add_mul_div_right _ _ hpos, Nat.div_eq_of_lt_le (k := 1) (by omega) (by omega)]
        omega
      rw [hmod, hdiv, Nat.add_sub_cancel, Nat.add_sub_cancel' hge]
    · -- The coefficient `2 ^ 53` is that of the next exponent, shifted by one place less.
      obtain rfl : m = 2 * binade := by omega
      have hsum : 2 * binade + s * binade = (s + 2) * binade := by ring
      rw [hsum, Nat.mul_mod_left, Nat.mul_div_cancel _ hpos]
      simp only [Nat.add_zero, Nat.add_succ_sub_one]
      ring

/-- The next double has one unit in the last place more. -/
theorem unitsOf_succ {m s : Nat} (hm : m < 2 * binade) (h : s = 0 ∨ binade ≤ m) :
    unitsOf (m + s * binade + 1) = (m + 1) * 2 ^ s := by
  rw [Nat.add_right_comm]
  exact unitsOf_scaled (by omega) (by omega)

/-- Behind the coefficient `2 ^ 53` the step is twice as large. -/
theorem le_unitsOf_succ {m s : Nat} (hm : m ≤ 2 * binade) (h : s = 0 ∨ binade ≤ m) :
    (m + 1) * 2 ^ s ≤ unitsOf (m + s * binade + 1) := by
  rcases Nat.lt_or_eq_of_le hm with hlt | rfl
  · rw [unitsOf_succ hlt h]
  · have hbits : 2 * binade + s * binade = binade + (s + 1) * binade := by ring
    have hdouble : (binade + 1) * 2 ^ (s + 1) = (2 * binade + 2) * 2 ^ s := by ring
    rw [hbits, unitsOf_succ (by decide) (.inr (Nat.le_refl _)), hdouble]
    exact Nat.mul_le_mul_right _ (by omega)

theorem unitsOf_strictMono : StrictMono unitsOf := by
  refine strictMono_nat_of_lt_succ fun b => ?_
  obtain ⟨m, s, rfl, hm, h⟩ := exists_scaled b
  rw [unitsOf_scaled (Nat.le_of_lt hm) h, unitsOf_succ hm h]
  exact Nat.mul_lt_mul_of_pos_right (by omega) (by positivity)

theorem unitsPerOne_pos : 0 < unitsPerOne := by decide

/-! ### Values -/

/-- **The value of bits** without the sign: the fifty-two last ones are the fraction, and those
before them the exponent.  A fraction stands behind a one, unless the exponent is the least. -/
def binaryValue (b : Nat) : ℚ :=
  let exponent : Nat := b / 2 ^ 52
  let fraction : ℚ := ((b % 2 ^ 52 : Nat) : ℚ) / 2 ^ 52
  if exponent = 0 then fraction * 2 ^ (-1022 : ℤ) else (1 + fraction) * 2 ^ ((exponent : ℤ) - 1023)

/-- **The value of a finite double**. -/
def Number.value (x : Number) : ℚ :=
  if x.isNegative then -binaryValue x.magnitude else binaryValue x.magnitude

theorem cast_unitsPerOne : ((unitsPerOne : Nat) : ℚ) = 2 ^ (1074 : ℤ) := by
  have h : ∀ n : Nat, ((1 <<< n : Nat) : ℚ) = 2 ^ (n : ℤ) := fun n => by
    rw [Nat.one_shiftLeft, zpow_natCast, Nat.cast_pow, Nat.cast_ofNat]
  exact h 1074

/-- The value of bits is the number of their units. -/
theorem binaryValue_eq (b : Nat) : binaryValue b = unitsOf b / unitsPerOne := by
  have htwo : (2 : ℚ) ≠ 0 := two_ne_zero
  have hbinade : (2 : Nat) ^ 52 = binade := by decide
  have hcast : ((binade : Nat) : ℚ) = 2 ^ 52 := by
    rw [← hbinade, Nat.cast_pow, Nat.cast_ofNat]
  have hleast : (2 : ℚ) ^ (-1022 : ℤ) = binade / unitsPerOne := by
    rw [hcast, cast_unitsPerOne, ← zpow_natCast, ← zpow_sub₀ htwo]
    rfl
  have hne : (binade : ℚ) ≠ 0 := by
    rw [hcast]
    positivity
  simp only [binaryValue, hbinade, ← hcast, unitsOf]
  by_cases hb : b < binade
  · rw [if_pos (Nat.div_eq_of_lt hb), if_pos hb, Nat.mod_eq_of_lt hb, hleast,
      div_mul_div_cancel₀ hne]
  · obtain ⟨k, hk⟩ : ∃ k, b / binade = k + 1 :=
      Nat.exists_eq_succ_of_ne_zero (Nat.div_pos (by omega) (by decide)).ne'
    have hexponent : (((k + 1 : Nat) : ℤ) - 1023) = k + (-1022) := by
      push_cast
      ring
    rw [hk, if_neg (Nat.succ_ne_zero k), if_neg hb, hexponent, zpow_add₀ htwo, hleast,
      Nat.add_sub_cancel, Nat.shiftLeft_eq, zpow_natCast]
    push_cast
    field_simp

theorem binaryValue_nonneg (b : Nat) : 0 ≤ binaryValue b := by
  rw [binaryValue_eq]
  exact div_nonneg (Nat.cast_nonneg _) (Nat.cast_nonneg _)

theorem binaryValue_strictMono : StrictMono binaryValue := by
  intro b b' h
  have hpos : (0 : ℚ) < unitsPerOne := Nat.cast_pos.2 unitsPerOne_pos
  rw [binaryValue_eq, binaryValue_eq]
  exact div_lt_div_of_pos_right (Nat.cast_lt.2 (unitsOf_strictMono h)) hpos

/-! ### Rounding to the nearest -/

/-- **Rounding to the nearest**: the value of no other bits is nearer, and where two are equally
near, the bits are even.  Exponents go on without end: what is rounded to the bits of infinity, or
beyond, is infinite. -/
structure RoundsTo (q : ℚ) (b : Nat) : Prop where
  nearest : ∀ b', |q - binaryValue b| ≤ |q - binaryValue b'|
  even : ∀ b', b' ≠ b → |q - binaryValue b| = |q - binaryValue b'| → b % 2 = 0

section

variable {q u v : ℚ}

/-- The greater of two values is as near as the other one from the half-way point on. -/
theorem abs_sub_le_iff_add_le (h : u < v) : |q - v| ≤ |q - u| ↔ u + v ≤ 2 * q := by
  have hsquares : (q - u) ^ 2 - (q - v) ^ 2 = (v - u) * (2 * q - (u + v)) := by ring
  rw [← sq_le_sq, ← sub_nonneg, hsquares, mul_nonneg_iff_of_pos_left (sub_pos.2 h), sub_nonneg]

/-- The smaller of two values is as near as the other one up to the half-way point. -/
theorem abs_sub_le_iff_le_add (h : u < v) : |q - u| ≤ |q - v| ↔ 2 * q ≤ u + v := by
  have hsquares : (q - v) ^ 2 - (q - u) ^ 2 = (v - u) * (u + v - 2 * q) := by ring
  rw [← sq_le_sq, ← sub_nonneg, hsquares, mul_nonneg_iff_of_pos_left (sub_pos.2 h), sub_nonneg]

end

theorem RoundsTo.le {q : ℚ} {b b' : Nat} (h : RoundsTo q b) (h' : RoundsTo q b') : b' ≤ b := by
  by_contra hlt
  have hvalues := binaryValue_strictMono (Nat.lt_of_not_le hlt)
  have heq := le_antisymm (h.nearest b') (h'.nearest b)
  have hhalf := (abs_sub_le_iff_add_le hvalues).1 heq.symm.le
  have heven := h.even b' (by omega) heq
  have heven' := h'.even b (by omega) heq.symm
  -- Both are even, so that there are other bits between them, and these are nearer.
  have hnext := (abs_sub_le_iff_le_add (binaryValue_strictMono (Nat.lt_succ_self b))).1
    (h.nearest (b + 1))
  have hbetween := binaryValue_strictMono (show b + 1 < b' by omega)
  linarith

/-- **One double only** is rounded to. -/
theorem RoundsTo.unique {q : ℚ} {b b' : Nat} (h : RoundsTo q b) (h' : RoundsTo q b') : b = b' :=
  Nat.le_antisymm (h'.le h) (h.le h')

/-! ### Half-way points -/

/-- The fractions **around a double**: those between the half-way points on its two sides.  The
half-way points belong to it if the bits are even. -/
structure Around (b : Nat) (q : ℚ) : Prop where
  lower : binaryValue (b - 1) + binaryValue b ≤ 2 * q
  upper : 2 * q ≤ binaryValue b + binaryValue (b + 1)
  odd : b % 2 = 1 → binaryValue (b - 1) + binaryValue b < 2 * q ∧
    2 * q < binaryValue b + binaryValue (b + 1)

section

variable {b : Nat} {q : ℚ}

theorem binaryValue_lt_succ (b : Nat) : binaryValue b < binaryValue (b + 1) :=
  binaryValue_strictMono (Nat.lt_succ_self b)

theorem binaryValue_pred_lt (hb : 0 < b) : binaryValue (b - 1) < binaryValue b :=
  binaryValue_strictMono (Nat.sub_one_lt_of_lt hb)

/-- The value of a double is around it. -/
theorem Around.self (b : Nat) : Around b (binaryValue b) where
  lower := by linarith [binaryValue_strictMono.monotone (Nat.sub_le b 1)]
  upper := by linarith [binaryValue_lt_succ b]
  odd hodd := by
    have hpred : binaryValue (b - 1) < binaryValue b := binaryValue_pred_lt (by omega)
    constructor <;> linarith [binaryValue_lt_succ b]

/-- What lies between fractions around a double is around it. -/
theorem Around.between {q₁ q₂ : ℚ} (h₁ : Around b q₁) (h₂ : Around b q₂) (hle₁ : q₁ ≤ q)
    (hle₂ : q ≤ q₂) : Around b q where
  lower := by linarith [h₁.lower]
  upper := by linarith [h₂.upper]
  odd hodd := by constructor <;> linarith [(h₁.odd hodd).1, (h₂.odd hodd).2]

/-- What is around a double **rounds to it**. -/
theorem Around.roundsTo (h : Around b q) : RoundsTo q b := by
  have hbelow : ∀ b', b' < b → binaryValue b' ≤ binaryValue (b - 1) := fun b' hb' =>
    binaryValue_strictMono.monotone (by omega)
  have habove : ∀ b', b < b' → binaryValue (b + 1) ≤ binaryValue b' := fun b' hb' =>
    binaryValue_strictMono.monotone (by omega)
  constructor
  · intro b'
    rcases Nat.lt_trichotomy b' b with hlt | rfl | hgt
    · rw [abs_sub_le_iff_add_le (binaryValue_strictMono hlt)]
      linarith [h.lower, hbelow b' hlt]
    · exact le_rfl
    · rw [abs_sub_le_iff_le_add (binaryValue_strictMono hgt)]
      linarith [h.upper, habove b' hgt]
  · intro b' hne heq
    -- A double as near as this one would lie on a half-way point.
    by_contra hodd
    obtain ⟨hlower, hupper⟩ := h.odd (by omega)
    rcases Nat.lt_or_gt_of_ne hne with hlt | hgt
    · have hhalf := (abs_sub_le_iff_le_add (binaryValue_strictMono hlt)).1 heq.symm.le
      linarith [hbelow b' hlt]
    · have hhalf := (abs_sub_le_iff_add_le (binaryValue_strictMono hgt)).1 heq.symm.le
      linarith [habove b' hgt]

/-- The value of a double rounds to it. -/
theorem RoundsTo.exact (b : Nat) : RoundsTo (binaryValue b) b := (Around.self b).roundsTo

/-- What rounds to a double that is not zero **is around it**. -/
theorem RoundsTo.around (h : RoundsTo q b) (hb : 0 < b) : Around b q := by
  have hpred := binaryValue_pred_lt hb
  have hsucc := binaryValue_lt_succ b
  refine ⟨(abs_sub_le_iff_add_le hpred).1 (h.nearest _),
    (abs_sub_le_iff_le_add hsucc).1 (h.nearest _), fun hodd => ⟨?_, ?_⟩⟩
  · by_contra hle
    have hnear := (abs_sub_le_iff_le_add hpred).2 (not_lt.1 hle)
    have heven := h.even (b - 1) (by omega) (le_antisymm (h.nearest _) hnear)
    omega
  · by_contra hle
    have hnear := (abs_sub_le_iff_add_le hsucc).2 (not_lt.1 hle)
    have heven := h.even (b + 1) (by omega) (le_antisymm (h.nearest _) hnear)
    omega

end

/-- The quotient `p / r`, in units, lies **between the half-way points** around the double with
these bits. -/
structure Spans (p r b : Nat) : Prop where
  lower : (unitsOf (b - 1) + unitsOf b) * r ≤ 2 * p
  upper : 2 * p ≤ (unitsOf b + unitsOf (b + 1)) * r
  odd : b % 2 = 1 → (unitsOf (b - 1) + unitsOf b) * r < 2 * p ∧
    2 * p < (unitsOf b + unitsOf (b + 1)) * r

section

variable {p r : Nat}

/-- A quotient of units is compared with a half-way point, exactly. -/
theorem half_le_iff (hr : 0 < r) (c b : Nat) :
    (binaryValue c + binaryValue b ≤ 2 * ((p : ℚ) / r / unitsPerOne) ↔
      (unitsOf c + unitsOf b) * r ≤ 2 * p) ∧
    (2 * ((p : ℚ) / r / unitsPerOne) ≤ binaryValue c + binaryValue b ↔
      2 * p ≤ (unitsOf c + unitsOf b) * r) := by
  have hr' : (0 : ℚ) < r := Nat.cast_pos.2 hr
  have hone : (0 : ℚ) < unitsPerOne := Nat.cast_pos.2 unitsPerOne_pos
  have hleft : binaryValue c + binaryValue b =
      (((unitsOf c + unitsOf b) * r : Nat) : ℚ) / (r * unitsPerOne) := by
    rw [binaryValue_eq, binaryValue_eq]
    push_cast
    field_simp
  have hright : 2 * ((p : ℚ) / r / unitsPerOne) = ((2 * p : Nat) : ℚ) / (r * unitsPerOne) := by
    push_cast
    field_simp
  rw [hleft, hright, div_le_div_iff_of_pos_right (mul_pos hr' hone),
    div_le_div_iff_of_pos_right (mul_pos hr' hone), Nat.cast_le, Nat.cast_le]
  exact ⟨Iff.rfl, Iff.rfl⟩

/-- A quotient of units lies between the half-way points if its value is around the double. -/
theorem spans_iff (hr : 0 < r) {b : Nat} :
    Spans p r b ↔ Around b ((p : ℚ) / r / unitsPerOne) := by
  have hlower := half_le_iff (p := p) hr (b - 1) b
  have hupper := half_le_iff (p := p) hr b (b + 1)
  constructor
  · intro h
    refine ⟨hlower.1.2 h.lower, hupper.2.2 h.upper, fun hodd => ?_⟩
    rw [← not_le, hlower.2, ← not_le, hupper.1, not_le, not_le]
    exact h.odd hodd
  · intro h
    refine ⟨hlower.1.1 h.lower, hupper.2.1 h.upper, fun hodd => ?_⟩
    rw [← not_le, ← hlower.2, ← not_le, ← hupper.1, not_le, not_le]
    exact h.odd hodd

/-! ### The bits that are found -/

/-- Rounding gives one of the two neighbours. -/
theorem roundDiv_cases (p r : Nat) : roundDiv p r = p / r ∨ roundDiv p r = p / r + 1 := by
  simp only [roundDiv]
  split
  · exact .inl rfl
  · split
    · exact .inr rfl
    · rcases Nat.mod_two_eq_zero_or_one (p / r) with h | h <;> simp [h]

/-- A half goes to the even neighbour. -/
theorem roundDiv_even {k : Nat} (hr : 0 < r) (h : 2 * p = (2 * k + 1) * r) :
    roundDiv p r % 2 = 0 := by
  have hhalf : 2 * (p % r) = r := by
    have hdouble : (2 * k + 1) * r = 2 * (k * r) + r := by ring
    have hp : p = (p - k * r) + k * r := by omega
    rw [hp, Nat.add_mul_mod_self_right, Nat.mod_eq_of_lt (by omega)]
    omega
  simp only [roundDiv, hhalf, lt_irrefl, if_false]
  omega

/-- A quotient that is shifted down to fifty-three binary places. -/
theorem shifted_quotient (p r : Nat) {s : Nat} (hs : s = Nat.log2 (p / r) - 52) :
    p / (r * 2 ^ s) < 2 * binade ∧ (s = 0 ∨ binade ≤ p / (r * 2 ^ s)) := by
  have hbinade : binade = 2 ^ 52 := by decide
  have hlt : p / r < 2 ^ (Nat.log2 (p / r) + 1) := Nat.lt_log2_self
  rw [← Nat.div_div_eq_div_mul, hbinade]
  rcases Nat.le_total (Nat.log2 (p / r)) 52 with hle | hge
  · obtain rfl : s = 0 := by omega
    have hpow : 2 ^ (Nat.log2 (p / r) + 1) ≤ 2 ^ 53 := Nat.pow_le_pow_right (by decide) (by omega)
    rw [Nat.pow_zero, Nat.div_one]
    exact ⟨by omega, .inl rfl⟩
  · have hlog : Nat.log2 (p / r) = 52 + s := by omega
    have hself : 2 ^ Nat.log2 (p / r) ≤ p / r := by
      refine Nat.log2_self_le fun hzero => ?_
      rw [hzero, Nat.log2_zero] at hge
      omega
    rw [hlog, Nat.pow_add] at hself
    rw [hlog, Nat.add_right_comm, Nat.pow_add] at hlt
    constructor
    · rw [Nat.div_lt_iff_lt_mul (Nat.two_pow_pos s)]
      omega
    · exact .inr ((Nat.le_div_iff_mul_le (Nat.two_pow_pos s)).2 hself)

/-- A quotient that is rounded down is not below the double. -/
theorem lower_of_roundedDown {m s : Nat} (hr : 0 < r)
    (hm : unitsOf (m + s * binade) = m * 2 ^ s) (hdown : m * (r * 2 ^ s) ≤ p) :
    (unitsOf (m + s * binade - 1) + unitsOf (m + s * binade)) * r ≤ 2 * p ∧
      (m % 2 = 1 → (unitsOf (m + s * binade - 1) + unitsOf (m + s * binade)) * r < 2 * p) := by
  have hself : (unitsOf (m + s * binade) + unitsOf (m + s * binade)) * r ≤ 2 * p := by
    calc _ = 2 * (m * (r * 2 ^ s)) := by rw [hm]; ring
      _ ≤ 2 * p := by omega
  have hmono : unitsOf (m + s * binade - 1) ≤ unitsOf (m + s * binade) :=
    unitsOf_strictMono.monotone (Nat.sub_le ..)
  refine ⟨le_trans (Nat.mul_le_mul_right r (by omega)) hself, fun hodd => ?_⟩
  have hstrict : unitsOf (m + s * binade - 1) < unitsOf (m + s * binade) :=
    unitsOf_strictMono (by omega)
  exact lt_of_lt_of_le (Nat.mul_lt_mul_of_pos_right (by omega) hr) hself

/-- A quotient that is rounded up is not below the half-way point: the double before is the
quotient rounded down. -/
theorem lower_of_roundedUp {f s : Nat} (hf : f < 2 * binade) (hscale : s = 0 ∨ binade ≤ f)
    (hup : (2 * f + 1) * (r * 2 ^ s) ≤ 2 * p)
    (heven : (2 * f + 1) * (r * 2 ^ s) = 2 * p → (f + 1) % 2 = 0) :
    (unitsOf (f + 1 + s * binade - 1) + unitsOf (f + 1 + s * binade)) * r ≤ 2 * p ∧
      ((f + 1) % 2 = 1 →
        (unitsOf (f + 1 + s * binade - 1) + unitsOf (f + 1 + s * binade)) * r < 2 * p) := by
  have hpred : unitsOf (f + 1 + s * binade - 1) = f * 2 ^ s := by
    rw [Nat.add_right_comm, Nat.add_sub_cancel]
    exact unitsOf_scaled (by omega) hscale
  have hhalf : (f * 2 ^ s + (f + 1) * 2 ^ s) * r = (2 * f + 1) * (r * 2 ^ s) := by ring
  rw [hpred, unitsOf_scaled (by omega) (by omega), hhalf]
  refine ⟨hup, fun hodd => lt_of_le_of_ne hup fun heq => ?_⟩
  have := heven heq
  omega

/-- The half-way point above a double is at least half a step above. -/
theorem upper_of_rounded {m s : Nat} (hm : m ≤ 2 * binade) (hscale : s = 0 ∨ binade ≤ m) :
    (2 * m + 1) * (r * 2 ^ s) ≤
      (unitsOf (m + s * binade) + unitsOf (m + s * binade + 1)) * r := by
  have hnext := le_unitsOf_succ hm hscale
  calc (2 * m + 1) * (r * 2 ^ s) = (m * 2 ^ s + (m + 1) * 2 ^ s) * r := by ring
    _ ≤ _ := by
      rw [unitsOf_scaled hm hscale]
      exact Nat.mul_le_mul_right r (by omega)

/-- The quotient lies between the half-way points around the bits **that it is rounded to**. -/
theorem spans_roundDiv (p : Nat) (hr : 0 < r) {s : Nat} (hs : s = Nat.log2 (p / r) - 52) :
    Spans p r (roundDiv p (r * 2 ^ s) + s * binade) := by
  obtain ⟨hfloor, hscale⟩ := shifted_quotient p r hs
  have hstep : 0 < r * 2 ^ s := Nat.mul_pos hr (Nat.two_pow_pos s)
  obtain ⟨habove, hbelow⟩ := roundDiv_within p hstep
  have heven : ∀ k, 2 * p = (2 * k + 1) * (r * 2 ^ s) → roundDiv p (r * 2 ^ s) % 2 = 0 :=
    fun k => roundDiv_even hstep
  have hcases := roundDiv_cases p (r * 2 ^ s)
  have hdown : p / (r * 2 ^ s) * (r * 2 ^ s) ≤ p := Nat.div_mul_le_self ..
  generalize roundDiv p (r * 2 ^ s) = m at *
  generalize p / (r * 2 ^ s) = f at *
  have hparity : (m + s * binade) % 2 = m % 2 := by
    simp only [binade]
    omega
  have hupper := upper_of_rounded (r := r) (m := m) (s := s) (by omega) (by omega)
  have hlower : (unitsOf (m + s * binade - 1) + unitsOf (m + s * binade)) * r ≤ 2 * p ∧
      (m % 2 = 1 →
        (unitsOf (m + s * binade - 1) + unitsOf (m + s * binade)) * r < 2 * p) := by
    rcases hcases with rfl | rfl
    · exact lower_of_roundedDown hr (unitsOf_scaled (by omega) hscale) hdown
    · refine lower_of_roundedUp hfloor hscale ?_ fun heq => heven f heq.symm
      have hsplit : 2 * (f + 1) * (r * 2 ^ s) = (2 * f + 1) * (r * 2 ^ s) + r * 2 ^ s := by ring
      omega
  refine ⟨hlower.1, habove.trans hupper, fun hodd => ⟨hlower.2 (by omega), ?_⟩⟩
  refine lt_of_lt_of_le (lt_of_le_of_ne habove fun heq => ?_) hupper
  have := heven m heq
  omega

theorem nearestBits_eq (p r : Nat) :
    nearestBits p r = min (roundDiv p (r * 2 ^ (Nat.log2 (p / r) - 52)) +
      (Nat.log2 (p / r) - 52) * binade) Number.infinityBits := by
  rw [nearestBits, Nat.shiftLeft_eq]

/-- **The bits that are found** are those of the finite double that the quotient rounds to. -/
theorem nearestBits_of_roundsTo {b : Nat} (hr : 0 < r) (h : RoundsTo ((p : ℚ) / r / unitsPerOne) b)
    (hb : b < Number.infinityBits) : nearestBits p r = b := by
  rw [nearestBits_eq, ((spans_iff hr).1 (spans_roundDiv p hr rfl)).roundsTo.unique h]
  exact Nat.min_eq_left (Nat.le_of_lt hb)

end

end Lox
