/-
**The shortest decimal that reads back.**

The reals that round to a given double form an interval around it, which ends half-way to its
neighbours; the ends belong to it exactly when the double's bits are even.  On the grid of the
decimals with a fixed exponent only the two neighbours of the double need to be tried.  The grids
are tried from the coarsest on, and the first hit is the answer: no shorter decimal reads back,
and of two hits the nearer one is taken.

Main definitions:

* `Lox.RoundingSpan` — the interval of the reals that round to a double;
* `Lox.gridPoint?` — the decimal of a given exponent nearest to a double, if it reads back;
* `Lox.shortestDecimal` — **the shortest decimal** that reads back as a double.
-/

import Lox.Number.Decimal

set_option relaxedAutoImplicit false
set_option autoImplicit false

namespace Lox

/-- An interval whose ends are given in half units, and whether it holds its ends. -/
structure RoundingSpan where
  lower : Nat
  upper : Nat
  closed : Bool
deriving DecidableEq

namespace RoundingSpan

/-- The reals that round to the positive double with bits `b`. -/
def ofBits (b : Nat) : RoundingSpan where
  lower := unitsOf (b - 1) + unitsOf b
  upper := unitsOf b + unitsOf (b + 1)
  closed := b % 2 == 0

/-- Whether a decimal lies in the interval. -/
def holds (i : RoundingSpan) (d : Decimal) : Bool :=
  let p := 2 * unitsPerOne * d.numerator
  let low := i.lower * d.denominator
  let high := i.upper * d.denominator
  if i.closed then decide (low ≤ p) && decide (p ≤ high) else decide (low < p) && decide (p < high)

end RoundingSpan

/-- The exponent of the leading decimal digit of the positive quotient `p / r`. -/
def leadingExponent (p r : Nat) : Int :=
  if r ≤ p then (Nat.toDigits 10 (p / r)).length - 1
  else -((Nat.toDigits 10 ((r - 1) / p)).length : Int)

/-- The decimal with the given exponent that reads back as the double with bits `b`; the nearer
of two, and at equal distance the one with the even coefficient. -/
def gridPoint? (b : Nat) (exponent : Int) : Option Decimal :=
  let step := 2 * unitsPerOne * Nat.pow 10 exponent.toNat
  let value := 2 * unitsOf b * Nat.pow 10 (-exponent).toNat
  let below : Decimal := ⟨value / step, exponent⟩
  let above : Decimal := ⟨value / step + 1, exponent⟩
  let span := RoundingSpan.ofBits b
  match span.holds below, span.holds above with
  | true, true => some ⟨roundDiv value step, exponent⟩
  | true, false => some below
  | false, true => some above
  | false, false => none

/-- A double needs at most this many decimal digits. -/
def maxDigits : Nat := 17

/-- The **shortest decimal** that reads back as the positive finite double with bits `b`.  Were
every grid to fail, the double's exact decimal expansion would be the answer. -/
def shortestDecimal (b : Nat) : Decimal :=
  let lead := leadingExponent (unitsOf b) unitsPerOne
  let found := (List.range maxDigits).findSome? fun k : Nat => gridPoint? b (lead - k)
  found.getD ⟨unitsOf b * Nat.pow 5 1074, -1074⟩

end Lox
