/-
**How numbers are written and read.**

An integral number below `10 ^ 17` is written with all its digits.  Every other finite number is
written with the fewest digits that read back: positionally while the exponent of its leading
digit is at least `-4` and below `16`, and with a signed exponent of at least two digits beyond.
Programs print an integral number with a final `.0`; the printed form of a syntax tree leaves
that ending out.

Main definitions:

* `Lox.Number.text` — the text that programs print;
* `Lox.Number.brief` — the text inside a printed syntax tree;
* `Lox.decimalValue` — the number that a row of decimal digits denotes;
* `Lox.Number.ofDigits` — the number that digits around a point denote;
* `Lox.Number.ofText?` — the number that a text denotes.
-/

import Lox.Number.Shortest

set_option relaxedAutoImplicit false
set_option autoImplicit false

namespace Lox

/-- The natural number that a row of decimal digits denotes. -/
def decimalValue (digits : List Char) : Nat :=
  digits.foldl (fun n c => 10 * n + (c.toNat - '0'.toNat)) 0

namespace Number

/-- Integral numbers below `10 ^ 17` are written out in full. -/
def plainLimit : Nat := 100000000000000000

/-- Whether a number is written out in full: it is integral and below `plainLimit`. -/
def isPlain (x : Number) : Bool := x.isIntegral && decide (x.units < plainLimit * unitsPerOne)

/-! ### Placing the point -/

/-- Digits with the point placed by the exponent of the first one. -/
def positional (digits : List Char) (lead : Int) : List Char :=
  if lead < 0 then
    '0' :: '.' :: (List.replicate (-lead - 1).toNat '0' ++ digits)
  else
    let whole := lead.toNat + 1
    if digits.length ≤ whole then
      digits ++ List.replicate (whole - digits.length) '0' ++ ['.', '0']
    else
      digits.take whole ++ '.' :: digits.drop whole

/-- The exponent with its sign and at least two digits. -/
def exponentText (lead : Int) : List Char :=
  let digits := Nat.toDigits 10 lead.natAbs
  let padded := if digits.length < 2 then '0' :: digits else digits
  (if lead < 0 then '-' else '+') :: padded

/-- Digits with the point after the first one, if others follow, and an exponent. -/
def scientific (digits : List Char) (lead : Int) : List Char :=
  let rest := digits.drop 1
  digits.take 1 ++ (if rest.isEmpty then [] else '.' :: rest) ++ 'e' :: exponentText lead

/-- Zeros at the end say nothing once the exponent is known. -/
def dropEndZeros (digits : List Char) : List Char :=
  (digits.reverse.dropWhile (· == '0')).reverse

/-- The text of a decimal: positional for `-4 ≤ lead < 16`. -/
def decimalText (d : Decimal) : List Char :=
  let digits := Nat.toDigits 10 d.coefficient
  -- The exponent of the first digit is read off before the zeros at the end are dropped.
  let lead := d.exponent + digits.length - 1
  let digits := dropEndZeros digits
  if -4 ≤ lead ∧ lead < 16 then positional digits lead else scientific digits lead

/-! ### Numbers -/

/-- The text of a number without its sign; `ending` closes the ones written in full. -/
def unsignedText (ending : List Char) (x : Number) : List Char :=
  if x.isPlain then Nat.toDigits 10 (x.units / unitsPerOne) ++ ending
  else if x.isInfinite then ['i', 'n', 'f']
  else decimalText (shortestDecimal x.magnitude)

/-- The text of a number; NaN has no sign. -/
def render (ending : List Char) (x : Number) : List Char :=
  if x.isNaN then ['n', 'a', 'n']
  else if x.isNegative then '-' :: unsignedText ending x
  else unsignedText ending x

/-- What a program prints for a number: `3.0`, `2.5`, `1e+17`. -/
def text (x : Number) : String := String.ofList (render ['.', '0'] x)

/-- What a printed syntax tree shows for a number: `3`, `2.5`, `1e+17`. -/
def brief (x : Number) : String := String.ofList (render [] x)

/-- The two texts differ in the ending of the numbers written in full and nowhere else. -/
theorem render_eq_append (ending : List Char) (x : Number) :
    render ending x = render [] x ++ (if x.isPlain && !x.isNaN then ending else []) := by
  unfold render unsignedText
  cases x.isNaN <;> cases x.isNegative <;> cases x.isPlain <;> simp

/-! ### Reading -/

/-- The number that `digits.digits` denotes; the part after the point may be empty. -/
def ofDigits (whole fraction : List Char) : Number :=
  Decimal.toNumber ⟨decimalValue (whole ++ fraction), -(fraction.length : Int)⟩

/-- Takes a sign off: whether it is a minus, and what follows. -/
def takeSign : List Char → Bool × List Char
  | '-' :: cs => (true, cs)
  | '+' :: cs => (false, cs)
  | cs => (false, cs)

/-- Reads the exponent at the end of a number; where there is none, it is zero. -/
def exponentOf? : List Char → Option Int
  | [] => some 0
  | mark :: cs =>
    let (negative, digits) := takeSign cs
    if (mark == 'e' || mark == 'E') && !digits.isEmpty && digits.all Char.isDigit then
      some (if negative then -(decimalValue digits : Int) else decimalValue digits)
    else none

/-- An exponent brought into the range that matters for a coefficient with `n` digits: beyond it
every number is infinite, or zero. -/
def boundExponent (n : Nat) (exponent : Int) : Int := max (-(n : Int) - 400) (min exponent 400)

/-- Reads a decimal: digits, perhaps a point among them, perhaps an exponent. -/
def decimalOf? (cs : List Char) : Option Decimal :=
  let whole := cs.takeWhile Char.isDigit
  let rest := cs.dropWhile Char.isDigit
  let afterPoint := if rest.head? == some '.' then rest.tail else []
  let fraction := afterPoint.takeWhile Char.isDigit
  let rest := if rest.head? == some '.' then afterPoint.dropWhile Char.isDigit else rest
  let digits := whole ++ fraction
  if digits.isEmpty then none
  else (exponentOf? rest).map fun exponent =>
    ⟨decimalValue digits, boundExponent digits.length (exponent - fraction.length)⟩

/-- The bits of the NaN that is read, without the sign. -/
def nanBits : Nat := infinityBits + binade / 2

/-- Reads the text of a number in each of the forms in which numbers are written. -/
def ofText? (s : String) : Option Number :=
  let (negative, cs) := takeSign s.toList
  match cs with
  | ['i', 'n', 'f'] => some (ofMagnitude negative infinityBits)
  | ['n', 'a', 'n'] => some (ofMagnitude negative nanBits)
  | cs => (decimalOf? cs).map fun d => ofMagnitude negative d.magnitude

end Number

end Lox
