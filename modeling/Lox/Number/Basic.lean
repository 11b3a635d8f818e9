/-
**Numbers.**

A number is an IEEE double, held as its sixty-four bits.  Every finite double is a whole multiple
of `2 ^ (-1074)`, the smallest positive one, so its magnitude is given exactly by a natural number
of such *units*; reading and writing decimals is then arithmetic on natural numbers.  Comparison
needs no more than the bits either: without the sign bit they are ordered as the magnitudes are.

Main definitions:

* `Lox.Number` — a double, by its bits;
* `Lox.Number.units` — the magnitude in units of `2 ^ (-1074)`;
* `Lox.Number.rank` — the place of a number in the order of the extended reals;
* `Lox.Number.add`, `Lox.Number.sub`, `Lox.Number.mul`, `Lox.Number.div`, `Lox.Number.neg` —
  the arithmetic of the standard;
* `Lox.Number.equal`, `Lox.Number.less`, `Lox.Number.atMost` — its comparisons.

Main results:

* `Lox.unitsOf_of_lt` — below `2 ^ 53` the units are the bits themselves;
* `Lox.Number.ofMagnitude_magnitude` — a number is told by its sign and its magnitude.
-/

set_option relaxedAutoImplicit false
set_option autoImplicit false

namespace Lox

/-- A **number**: an IEEE double, given by its bits. -/
structure Number where
  bits : UInt64
deriving DecidableEq, Inhabited

/-! ### Units -/

/-- How many doubles share a sign and an exponent: `2 ^ 52`. -/
def binade : Nat := 0x10000000000000

/-- The weight of the sign bit: `2 ^ 63`. -/
def signWeight : Nat := 0x8000000000000000

/-- The magnitude, in units of `2 ^ (-1074)`, of the double whose bits without the sign are `b`.
The pattern of infinity gets the magnitude that follows the largest finite one. -/
def unitsOf (b : Nat) : Nat :=
  if b < binade then b else (binade + b % binade) <<< (b / binade - 1)

@[simp] theorem unitsOf_zero : unitsOf 0 = 0 := rfl

/-- Below `2 ^ 53` neighbouring doubles are one unit apart. -/
theorem unitsOf_of_lt {b : Nat} (h : b < 2 * binade) : unitsOf b = b := by
  unfold unitsOf
  split
  · rfl
  · rename_i hb
    have hq : b / binade = 1 := by simp only [binade] at *; omega
    rw [hq, Nat.sub_self, Nat.shiftLeft_zero]
    simp only [binade] at *
    omega

/-- How many units make one: `2 ^ 1074`. -/
def unitsPerOne : Nat := 1 <<< 1074

namespace Number

/-- The bits of infinity, without the sign. -/
def infinityBits : Nat := 2047 * binade

/-- The number with the given sign and the given bits below it. -/
def ofMagnitude (negative : Bool) (b : Nat) : Number :=
  ⟨UInt64.ofNat ((if negative then signWeight else 0) + b)⟩

/-- The bits without the sign. -/
def magnitude (x : Number) : Nat := x.bits.toNat % signWeight

/-- The sign bit, which zero and the NaNs have too. -/
def isNegative (x : Number) : Bool := decide (signWeight ≤ x.bits.toNat)

def isNaN (x : Number) : Bool := decide (infinityBits < x.magnitude)

def isInfinite (x : Number) : Bool := decide (x.magnitude = infinityBits)

def isFinite (x : Number) : Bool := decide (x.magnitude < infinityBits)

/-- The magnitude of a finite number, in units of `2 ^ (-1074)`. -/
def units (x : Number) : Nat := unitsOf x.magnitude

/-- A finite number without a fractional part. -/
def isIntegral (x : Number) : Bool := x.isFinite && decide (x.units % unitsPerOne = 0)

/-- A number is told by its sign and its magnitude. -/
theorem ofMagnitude_magnitude (x : Number) : ofMagnitude x.isNegative x.magnitude = x := by
  have hb : x.bits.toNat < 18446744073709551616 := x.bits.toNat_lt
  have h : (if x.isNegative then signWeight else 0) + x.magnitude = x.bits.toNat := by
    by_cases hs : signWeight ≤ x.bits.toNat
    · have hn : x.isNegative = true := decide_eq_true hs
      rw [hn, if_pos rfl, magnitude]
      simp only [signWeight] at *
      omega
    · have hn : x.isNegative = false := decide_eq_false hs
      rw [hn, if_neg Bool.false_ne_true, magnitude]
      simp only [signWeight] at *
      omega
  rw [ofMagnitude, h, UInt64.ofNat_toNat]

/-! ### Arithmetic -/

/-- The double of the machine with these bits. -/
def toFloat (x : Number) : Float := Float.ofBits x.bits

/-- The bits of a double of the machine. -/
def ofFloat (f : Float) : Number := ⟨f.toBits⟩

def add (x y : Number) : Number := ofFloat (x.toFloat + y.toFloat)

def sub (x y : Number) : Number := ofFloat (x.toFloat - y.toFloat)

def mul (x y : Number) : Number := ofFloat (x.toFloat * y.toFloat)

def div (x y : Number) : Number := ofFloat (x.toFloat / y.toFloat)

/-- Negation turns the sign bit over and leaves the rest. -/
def neg (x : Number) : Number := ofMagnitude (!x.isNegative) x.magnitude

/-! ### Comparison -/

/-- The **rank** of a number: its magnitude bits, with its sign.  The two zeros share a rank, and
among numbers that are not NaN a smaller rank is a smaller number. -/
def rank (x : Number) : Int := if x.isNegative then -(x.magnitude : Int) else x.magnitude

def equal (x y : Number) : Bool := !x.isNaN && !y.isNaN && decide (x.rank = y.rank)

def less (x y : Number) : Bool := !x.isNaN && !y.isNaN && decide (x.rank < y.rank)

def atMost (x y : Number) : Bool := !x.isNaN && !y.isNaN && decide (x.rank ≤ y.rank)

/-- Either of the two zeros. -/
def isZero (x : Number) : Bool := decide (x.magnitude = 0)

theorem magnitude_ofMagnitude (s : Bool) {b : Nat} (h : b < signWeight) :
    (ofMagnitude s b).magnitude = b := by
  simp only [signWeight] at h
  cases s <;> simp [ofMagnitude, magnitude, signWeight, UInt64.toNat_ofNat'] <;> omega

theorem isNegative_ofMagnitude (s : Bool) {b : Nat} (h : b < signWeight) :
    (ofMagnitude s b).isNegative = s := by
  simp only [signWeight] at h
  cases s <;> simp [ofMagnitude, isNegative, signWeight, UInt64.toNat_ofNat'] <;> omega

end Number

end Lox
