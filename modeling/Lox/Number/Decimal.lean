/-
**Decimals and the doubles nearest to them.**

A decimal is a natural coefficient times a power of ten.  The double it denotes is the one
nearest to it, and of two equally near ones the one with even bits.  Both sides are compared
exactly: the decimal as a quotient of natural numbers, the double as its units.

Main definitions:

* `Lox.Decimal` — a coefficient and an exponent of ten;
* `Lox.roundDiv` — a quotient rounded to the nearest natural number, a half to the even one;
* `Lox.nearestBits` — the bits of the double nearest to a quotient of units;
* `Lox.Decimal.toNumber` — **reading**: the double nearest to a decimal.

Main results:

* `Lox.roundDiv_within` — rounding moves a quotient by at most a half.
-/

import Lox.Number.Basic

set_option relaxedAutoImplicit false
set_option autoImplicit false

namespace Lox

/-! ### Rounding a quotient -/

/-- The natural number nearest to `p / r`; a half goes to the even neighbour. -/
def roundDiv (p r : Nat) : Nat :=
  let twice := 2 * (p % r)
  if twice < r then p / r else if r < twice then p / r + 1 else p / r + p / r % 2

/-- Rounding moves a quotient by at most a half. -/
theorem roundDiv_within (p : Nat) {r : Nat} (h : 0 < r) :
    2 * p ≤ (2 * roundDiv p r + 1) * r ∧ 2 * roundDiv p r * r ≤ 2 * p + r := by
  have hp : r * (p / r) + p % r = p := Nat.div_add_mod p r
  have hm : p % r < r := Nat.mod_lt p h
  have e₁ : (2 * (p / r) + 1) * r = 2 * (r * (p / r)) + r := by grind
  have e₂ : 2 * (p / r) * r = 2 * (r * (p / r)) := by grind
  have e₃ : (2 * (p / r + 1) + 1) * r = 2 * (r * (p / r)) + 3 * r := by grind
  have e₄ : 2 * (p / r + 1) * r = 2 * (r * (p / r)) + 2 * r := by grind
  simp only [roundDiv]
  split
  · omega
  · split
    · omega
    · rcases Nat.mod_two_eq_zero_or_one (p / r) with h₂ | h₂
      · simp only [h₂, Nat.add_zero]
        omega
      · simp only [h₂]
        omega

/-! ### Decimals -/

/-- A **decimal**: the coefficient times ten to the exponent. -/
structure Decimal where
  coefficient : Nat
  exponent : Int
deriving DecidableEq

namespace Decimal

/-- A decimal is `numerator / denominator`, one of them a power of ten at most. -/
def numerator (d : Decimal) : Nat := d.coefficient * Nat.pow 10 d.exponent.toNat

def denominator (d : Decimal) : Nat := Nat.pow 10 (-d.exponent).toNat

theorem denominator_pos (d : Decimal) : 0 < d.denominator := Nat.pow_pos (by decide)

end Decimal

/-- The bits, without the sign, of the double nearest to `p / r` units.  The quotient is rounded
to fifty-three binary places where it has that many; what is rounded out of range is infinite. -/
def nearestBits (p r : Nat) : Nat :=
  -- Below `2 ^ 53` units nothing is shifted out, and the bits are the rounded quotient itself.
  let shift := Nat.log2 (p / r) - 52
  min (roundDiv p (r <<< shift) + shift * binade) Number.infinityBits

/-- The bits, without the sign, of the double that a decimal denotes. -/
def Decimal.magnitude (d : Decimal) : Nat :=
  nearestBits (d.numerator * unitsPerOne) d.denominator

/-- The double that a decimal denotes. -/
def Decimal.toNumber (d : Decimal) : Number := Number.ofMagnitude false d.magnitude

end Lox
