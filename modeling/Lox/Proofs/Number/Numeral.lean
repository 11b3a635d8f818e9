/-
**Numerals and the values that they denote.**

A numeral is a row of digits, perhaps with a point among them and perhaps with an exponent behind
them; a minus may stand in front.  What it denotes is a fraction, and nothing is rounded.  Each text
that is written for a finite number is a numeral, and the fraction that it denotes rounds to the
number, be it written in full, with the point among its shortest digits, or with an exponent.

Main definitions:

* `Lox.IsDigits`, `Lox.PointNumeral`, `Lox.Numeral` — digits, **numerals** without an exponent, and
  with one;
* `Lox.Denotes` — **what a text denotes**: a sign and a fraction.

Main results:

* `Lox.Numeral.unique`, `Lox.Denotes.unique` — a text denotes one fraction only;
* `Lox.Number.decimalText_numeral` — the text of a decimal denotes its value;
* `Lox.Number.unsignedText_numeral` — **the text of a finite number** denotes a fraction that rounds
  to it;
* `Lox.Number.render_injective` — **different numbers** have different texts.
-/

import Lox.Number.Text
import Lox.Proofs.Number.Shortest
import Lox.Proofs.Token.Munch

set_option relaxedAutoImplicit false
set_option autoImplicit false

namespace Lox

/-! ### Digits -/

/-- A row of **digits**, at least one. -/
structure IsDigits (cs : List Char) : Prop where
  ne_nil : cs ≠ []
  digits : ∀ c ∈ cs, c.isDigit = true

theorem IsDigits.append {cs ds : List Char} (h : IsDigits cs) (hds : ∀ c ∈ ds, c.isDigit = true) :
    IsDigits (cs ++ ds) where
  ne_nil := List.append_ne_nil_of_left_ne_nil h.ne_nil ds
  digits c hc := (List.mem_append.1 hc).elim (h.digits c) (hds c)

theorem isDigits_toDigits (n : Nat) : IsDigits (Nat.toDigits 10 n) where
  ne_nil := Nat.toDigits_ne_nil
  digits _ hc := Nat.isDigit_of_mem_toDigits (by decide) (by decide) hc

theorem isDigit_of_mem_replicate {n : Nat} : ∀ c ∈ List.replicate n '0', c.isDigit = true := by
  intro c hc
  rw [List.eq_of_mem_replicate hc]
  rfl

theorem decimalValue_eq_ofDigitChars (cs : List Char) :
    decimalValue cs = Nat.ofDigitChars 10 cs 0 := Nat.ofDigitChars_eq_foldl.symm

@[simp] theorem decimalValue_toDigits (n : Nat) : decimalValue (Nat.toDigits 10 n) = n := by
  rw [decimalValue_eq_ofDigitChars, Nat.ofDigitChars_ten_toDigits]

/-- Digits behind others move these to higher places. -/
theorem decimalValue_append (cs ds : List Char) :
    decimalValue (cs ++ ds) = decimalValue cs * 10 ^ ds.length + decimalValue ds := by
  simp only [decimalValue_eq_ofDigitChars]
  rw [Nat.ofDigitChars_append, Nat.ofDigitChars_eq_ofDigitChars_zero, Nat.mul_comm]

@[simp] theorem decimalValue_replicate_zero (n : Nat) :
    decimalValue (List.replicate n '0') = 0 := by
  rw [decimalValue_eq_ofDigitChars, Nat.ofDigitChars_replicate_zero, Nat.mul_zero]

/-! ### Numerals -/

/-- A **numeral without an exponent**, and the fraction that it denotes: a place behind the point is
worth a tenth of the place before. -/
inductive PointNumeral : List Char → ℚ → Prop
  | whole {digits : List Char} (h : IsDigits digits) : PointNumeral digits (decimalValue digits)
  | point {digits places : List Char} (h : IsDigits digits) (hplaces : IsDigits places) :
      PointNumeral (digits ++ '.' :: places) (decimalValue (digits ++ places) / 10 ^ places.length)

/-- The sign of an exponent. -/
def exponentSign (negative : Bool) : Char := if negative then '-' else '+'

/-- A **numeral**: an exponent, with its sign, says by which power of ten the rest is multiplied. -/
inductive Numeral : List Char → ℚ → Prop
  | plain {cs : List Char} {q : ℚ} (h : PointNumeral cs q) : Numeral cs q
  | scaled {cs digits : List Char} {q : ℚ} (h : PointNumeral cs q) (negative : Bool)
      (hdigits : IsDigits digits) :
      Numeral (cs ++ 'e' :: exponentSign negative :: digits)
        (q * 10 ^ (if negative then -(decimalValue digits : ℤ) else decimalValue digits))

/-- **What a text denotes**: whether a minus stands in front, and the fraction behind it. -/
inductive Denotes : String → Bool → ℚ → Prop
  | positive {cs : List Char} {q : ℚ} (h : Numeral cs q) : Denotes (String.ofList cs) false q
  | negative {cs : List Char} {q : ℚ} (h : Numeral cs q) :
      Denotes (String.ofList ('-' :: cs)) true q

/-! ### One value only -/

theorem PointNumeral.mem {cs : List Char} {q : ℚ} (h : PointNumeral cs q) :
    ∀ c ∈ cs, c.isDigit = true ∨ c = '.' := by
  intro c hc
  cases h with
  | whole h => exact .inl (h.digits c hc)
  | point h hplaces =>
    rcases List.mem_append.1 hc with hc | hc
    · exact .inl (h.digits c hc)
    · rcases List.mem_cons.1 hc with rfl | hc
      · exact .inr rfl
      · exact .inl (hplaces.digits c hc)

/-- A numeral without an exponent ends before one. -/
theorem PointNumeral.ne_exponent {cs : List Char} {q : ℚ} (h : PointNumeral cs q) :
    ∀ c ∈ cs, (c != 'e') = true := by
  intro c hc
  rcases h.mem c hc with hdigit | rfl
  · rw [bne_iff_ne]
    rintro rfl
    exact absurd hdigit (by decide)
  · decide

theorem PointNumeral.unique {cs : List Char} {q q' : ℚ} (h : PointNumeral cs q)
    (h' : PointNumeral cs q') : q = q' := by
  have hpoint : Char.isDigit '.' = false := by decide
  have hdot : ∀ {ds ps : List Char}, ¬IsDigits (ds ++ '.' :: ps) := fun h =>
    absurd (h.digits '.' (by simp)) (by decide)
  generalize hcs : cs = ds at h'
  cases h with
  | whole h =>
    cases h' with
    | whole => rw [hcs]
    | point => exact absurd (hcs ▸ h) hdot
  | point h hplaces =>
    cases h' with
    | whole h' => exact absurd (hcs ▸ h') hdot
    | point h' hplaces' =>
      obtain ⟨htake, hdrop⟩ := takeWhile_exact h.digits hpoint _
      obtain ⟨htake', hdrop'⟩ := takeWhile_exact h'.digits hpoint _
      rw [hcs, htake'] at htake
      rw [hcs, hdrop'] at hdrop
      obtain rfl := htake
      obtain rfl := List.tail_eq_of_cons_eq hdrop
      rfl

theorem exponentSign_injective : Function.Injective exponentSign := by decide

/-- A numeral denotes **one fraction only**. -/
theorem Numeral.unique {cs : List Char} {q q' : ℚ} (h : Numeral cs q) (h' : Numeral cs q') :
    q = q' := by
  have hmark : ('e' != 'e') = false := by decide
  have hexponent : ∀ {ds es : List Char} {q : ℚ}, ¬PointNumeral (ds ++ 'e' :: es) q := fun h =>
    absurd (h.ne_exponent 'e' (by simp)) (by decide)
  generalize hcs : cs = ds at h'
  cases h with
  | plain h =>
    cases h' with
    | plain h' => exact (hcs ▸ h).unique h'
    | scaled => exact absurd (hcs ▸ h) hexponent
  | scaled h s hdigits =>
    cases h' with
    | plain h' => exact absurd (hcs ▸ h') hexponent
    | scaled h' s' hdigits' =>
      obtain ⟨htake, hdrop⟩ := takeWhile_exact h.ne_exponent hmark _
      obtain ⟨htake', hdrop'⟩ := takeWhile_exact h'.ne_exponent hmark _
      rw [hcs, htake'] at htake
      rw [hcs, hdrop'] at hdrop
      obtain rfl := htake
      obtain ⟨hsign, rfl⟩ := List.cons.inj (List.tail_eq_of_cons_eq hdrop)
      rw [exponentSign_injective hsign, h.unique h']

/-- The characters of a numeral. -/
theorem Numeral.mem {cs : List Char} {q : ℚ} (h : Numeral cs q) :
    ∀ c ∈ cs, c.isDigit = true ∨ c ∈ ['.', 'e', '+', '-'] := by
  have hpoint : ∀ {cs : List Char} {q : ℚ}, PointNumeral cs q →
      ∀ c ∈ cs, c.isDigit = true ∨ c ∈ ['.', 'e', '+', '-'] := fun h c hc =>
    (h.mem c hc).imp_right fun hdot => by simp [hdot]
  intro c hc
  cases h with
  | plain h => exact hpoint h c hc
  | scaled h s hdigits =>
    simp only [List.mem_append, List.mem_cons] at hc
    rcases hc with hc | rfl | rfl | hc
    · exact hpoint h c hc
    · exact .inr (by simp)
    · exact .inr (by cases s <;> simp [exponentSign])
    · exact .inl (hdigits.digits c hc)

/-- A numeral begins with a digit. -/
theorem Numeral.head {cs : List Char} {q : ℚ} (h : Numeral cs q) :
    ∃ c ds, cs = c :: ds ∧ c.isDigit = true := by
  have hpoint : ∀ {cs : List Char} {q : ℚ}, PointNumeral cs q →
      ∃ c ds, cs = c :: ds ∧ c.isDigit = true := by
    intro cs q h
    cases h with
    | whole h =>
      obtain ⟨c, ds, rfl⟩ := List.exists_cons_of_ne_nil h.ne_nil
      exact ⟨c, ds, rfl, h.digits c (by simp)⟩
    | point h =>
      obtain ⟨c, ds, rfl⟩ := List.exists_cons_of_ne_nil h.ne_nil
      exact ⟨c, _, rfl, h.digits c (by simp)⟩
  cases h with
  | plain h => exact hpoint h
  | scaled h =>
    obtain ⟨c, ds, rfl, hc⟩ := hpoint h
    exact ⟨c, _, rfl, hc⟩

/-- A text denotes **one fraction only**, with one sign. -/
theorem Denotes.unique {s : String} {b b' : Bool} {q q' : ℚ} (h : Denotes s b q)
    (h' : Denotes s b' q') : b = b' ∧ q = q' := by
  have hminus : ∀ {cs : List Char} {q : ℚ}, ¬Numeral ('-' :: cs) q := fun h => by
    obtain ⟨c, ds, hcs, hc⟩ := h.head
    obtain rfl := (List.cons.inj hcs).1
    exact absurd hc (by decide)
  generalize hs : s = t at h'
  cases h with
  | positive h =>
    cases h' with
    | positive h' => exact ⟨rfl, (String.ofList_injective hs ▸ h).unique h'⟩
    | negative => exact absurd (String.ofList_injective hs ▸ h) hminus
  | negative h =>
    cases h' with
    | positive h' => exact absurd (String.ofList_injective hs ▸ h') hminus
    | negative h' =>
      have hcs := List.tail_eq_of_cons_eq (String.ofList_injective hs)
      exact ⟨rfl, (hcs ▸ h).unique h'⟩

namespace Number

/-! ### Decimals -/

/-- Zeros at the end are dropped, and nothing else. -/
theorem dropEndZeros_append (digits : List Char) :
    ∃ n, digits = dropEndZeros digits ++ List.replicate n '0' := by
  refine ⟨(digits.reverse.takeWhile (· == '0')).length, ?_⟩
  have hzeros : digits.reverse.takeWhile (· == '0') =
      List.replicate (digits.reverse.takeWhile (· == '0')).length '0' :=
    List.eq_replicate_iff.2 ⟨rfl, fun c hc => by simpa using List.mem_takeWhile_imp hc⟩
  have hsplit : digits.reverse.takeWhile (· == '0') ++ digits.reverse.dropWhile (· == '0') =
      digits.reverse := List.takeWhile_append_dropWhile
  rw [hzeros] at hsplit
  simpa [dropEndZeros] using (congrArg List.reverse hsplit).symm

theorem div_ten_pow (q : ℚ) {n : Nat} {e : ℤ} (h : e = -(n : ℤ)) : q / 10 ^ n = q * 10 ^ e := by
  rw [h, zpow_neg, zpow_natCast, div_eq_mul_inv]

theorem mul_ten_pow (q : ℚ) {n : Nat} {e : ℤ} (h : e = n) : q * 10 ^ n = q * 10 ^ e := by
  rw [h, zpow_natCast]

/-- An exponent is written with its sign, and with a zero in front if it has one digit. -/
theorem exponentText_eq (lead : Int) :
    ∃ padded, IsDigits padded ∧ decimalValue padded = lead.natAbs ∧
      exponentText lead = exponentSign (decide (lead < 0)) :: padded := by
  have hsign : (if lead < 0 then '-' else '+') = exponentSign (decide (lead < 0)) := by
    simp [exponentSign]
  have hdigits := isDigits_toDigits lead.natAbs
  simp only [exponentText, hsign]
  split
  · refine ⟨_, (isDigits_toDigits 0).append hdigits.digits, ?_, by rw [Nat.toDigits_zero]; rfl⟩
    rw [decimalValue_append, decimalValue_toDigits, decimalValue_toDigits, Nat.zero_mul,
      Nat.zero_add]
  · exact ⟨_, hdigits, decimalValue_toDigits _, rfl⟩

section

variable {digits : List Char} (h : IsDigits digits)

include h

/-- Digits behind a point, with zeros between the two. -/
theorem leadingZeros_numeral (zeros : Nat) :
    PointNumeral ('0' :: '.' :: (List.replicate zeros '0' ++ digits))
      (decimalValue digits / 10 ^ (zeros + digits.length)) := by
  have hvalue : decimalValue (['0'] ++ (List.replicate zeros '0' ++ digits)) =
      decimalValue digits := by
    rw [← List.append_assoc, decimalValue_append, ← List.replicate_one,
      List.replicate_append_replicate, decimalValue_replicate_zero, Nat.zero_mul, Nat.zero_add]
  have hplaces : IsDigits (List.replicate zeros '0' ++ digits) :=
    ⟨List.append_ne_nil_of_right_ne_nil _ h.ne_nil, fun c hc =>
      (List.mem_append.1 hc).elim (isDigit_of_mem_replicate c) (h.digits c)⟩
  have hnumeral := PointNumeral.point (isDigits_toDigits 0) hplaces
  rw [Nat.toDigits_zero, hvalue, List.length_append, List.length_replicate] at hnumeral
  exact hnumeral

/-- Digits before a point, with zeros between the two. -/
theorem trailingZeros_numeral (zeros : Nat) :
    PointNumeral (digits ++ List.replicate zeros '0' ++ ['.', '0'])
      (decimalValue digits * 10 ^ zeros) := by
  have hwhole : IsDigits (digits ++ List.replicate zeros '0') := h.append isDigit_of_mem_replicate
  have hvalue : (decimalValue (digits ++ List.replicate zeros '0' ++ ['0']) : ℚ) =
      decimalValue digits * 10 ^ zeros * 10 := by
    rw [decimalValue_append, decimalValue_append, decimalValue_replicate_zero,
      List.length_replicate]
    push_cast
    simp [decimalValue]
  have hnumeral := PointNumeral.point hwhole (isDigits_toDigits 0)
  rw [Nat.toDigits_zero, hvalue, List.length_singleton, pow_one,
    mul_div_cancel_right₀ _ (by norm_num : (10 : ℚ) ≠ 0)] at hnumeral
  exact hnumeral

/-- Digits with a point among them. -/
theorem innerPoint_numeral {whole : Nat} (hpos : 0 < whole) (hlt : whole < digits.length) :
    PointNumeral (digits.take whole ++ '.' :: digits.drop whole)
      (decimalValue digits / 10 ^ (digits.length - whole)) := by
  have htake : IsDigits (digits.take whole) := by
    refine ⟨fun hnil => ?_, fun c hc => h.digits c (List.mem_of_mem_take hc)⟩
    exact (List.take_eq_nil_iff.1 hnil).elim hpos.ne' h.ne_nil
  have hdrop : IsDigits (digits.drop whole) := by
    refine ⟨fun hnil => ?_, fun c hc => h.digits c (List.mem_of_mem_drop hc)⟩
    have := List.drop_eq_nil_iff.1 hnil
    omega
  have hnumeral := PointNumeral.point htake hdrop
  rw [List.take_append_drop, List.length_drop] at hnumeral
  exact hnumeral

/-- Digits with the **point placed** by the exponent of the first one. -/
theorem positional_numeral (lead : Int) :
    PointNumeral (positional digits lead)
      (decimalValue digits * 10 ^ (lead + 1 - (digits.length : ℤ))) := by
  have hlength : 0 < digits.length := List.length_pos_iff.2 h.ne_nil
  unfold positional
  dsimp only
  split
  · have hnumeral := leadingZeros_numeral h (-lead - 1).toNat
    rwa [div_ten_pow _ (e := lead + 1 - (digits.length : ℤ)) (by omega)] at hnumeral
  · split
    · have hnumeral := trailingZeros_numeral h (lead.toNat + 1 - digits.length)
      rwa [mul_ten_pow _ (e := lead + 1 - (digits.length : ℤ)) (by omega)] at hnumeral
    · have hnumeral := innerPoint_numeral h (Nat.succ_pos lead.toNat) (by omega)
      rwa [div_ten_pow _ (e := lead + 1 - (digits.length : ℤ)) (by omega)] at hnumeral

/-- Digits with the point after the first one. -/
theorem mantissa_numeral :
    PointNumeral (digits.take 1 ++ if (digits.drop 1).isEmpty then [] else '.' :: digits.drop 1)
      (decimalValue digits * 10 ^ (1 - (digits.length : ℤ))) := by
  have hlength : 0 < digits.length := List.length_pos_iff.2 h.ne_nil
  rcases Nat.lt_or_ge 1 digits.length with hlt | hle
  · have hnumeral := innerPoint_numeral h Nat.one_pos hlt
    have hrest : (digits.drop 1).isEmpty = false :=
      List.isEmpty_eq_false_iff.2 fun hnil => by
        have := List.drop_eq_nil_iff.1 hnil
        omega
    rw [hrest, if_neg Bool.false_ne_true]
    rwa [div_ten_pow _ (e := 1 - (digits.length : ℤ)) (by omega)] at hnumeral
  · obtain ⟨c, hc⟩ := List.length_eq_one_iff.1 (Nat.le_antisymm hle hlength)
    have hnumeral := PointNumeral.whole h
    rw [hc] at hnumeral ⊢
    simpa using hnumeral

/-- Digits with the point after the first one and an exponent. -/
theorem scientific_numeral (lead : Int) :
    Numeral (scientific digits lead)
      (decimalValue digits * 10 ^ (lead + 1 - (digits.length : ℤ))) := by
  have hten : (10 : ℚ) ≠ 0 := by norm_num
  obtain ⟨padded, hpadded, hvalue, htext⟩ := exponentText_eq lead
  have hexponent : (if decide (lead < 0) = true then -(decimalValue padded : ℤ)
      else decimalValue padded) = lead := by
    rw [hvalue]
    by_cases hneg : lead < 0
    · simp only [hneg, decide_true, if_true]
      omega
    · simp only [hneg, decide_false, Bool.false_eq_true, if_false]
      omega
  have hnumeral := Numeral.scaled (mantissa_numeral h) (decide (lead < 0)) hpadded
  rw [hexponent, mul_assoc, ← zpow_add₀ hten, ← htext] at hnumeral
  have hsum : 1 - (digits.length : ℤ) + lead = lead + 1 - (digits.length : ℤ) := by omega
  rw [hsum] at hnumeral
  simpa [scientific] using hnumeral

end

/-- Without the zeros at their end, digits are worth as much as before at a higher place. -/
theorem dropEndZeros_digits {digits : List Char} (h : IsDigits digits)
    (hpos : 0 < decimalValue digits) :
    ∃ n, IsDigits (dropEndZeros digits) ∧
      decimalValue digits = decimalValue (dropEndZeros digits) * 10 ^ n ∧
      digits.length = (dropEndZeros digits).length + n := by
  obtain ⟨n, hzeros⟩ := dropEndZeros_append digits
  have hvalue := congrArg decimalValue hzeros
  have hlength := congrArg List.length hzeros
  rw [decimalValue_append, decimalValue_replicate_zero, List.length_replicate,
    Nat.add_zero] at hvalue
  rw [List.length_append, List.length_replicate] at hlength
  refine ⟨n, ⟨fun hnil => ?_, fun c hc => h.digits c ?_⟩, hvalue, hlength⟩
  · rw [hvalue, hnil, decimalValue, List.foldl_nil, Nat.zero_mul] at hpos
    exact absurd hpos (Nat.lt_irrefl 0)
  · rw [hzeros]
    exact List.mem_append_left _ hc

/-- The text of a decimal **denotes its value**. -/
theorem decimalText_numeral {d : Decimal} (h : 0 < d.coefficient) :
    Numeral (decimalText d) d.value := by
  obtain ⟨n, hkept, hvalue, hlength⟩ := dropEndZeros_digits (isDigits_toDigits d.coefficient)
    (by rwa [decimalValue_toDigits])
  rw [decimalValue_toDigits] at hvalue
  simp only [decimalText]
  generalize dropEndZeros (Nat.toDigits 10 d.coefficient) = kept at *
  have hexact : d.value =
      decimalValue kept * 10 ^ (d.exponent + (Nat.toDigits 10 d.coefficient).length - 1 + 1 -
        (kept.length : ℤ)) := by
    have hpower : d.exponent + (Nat.toDigits 10 d.coefficient).length - 1 + 1 - (kept.length : ℤ) =
        n + d.exponent := by omega
    rw [hpower, zpow_add₀ (by norm_num), zpow_natCast, Decimal.value, hvalue]
    push_cast
    ring
  rw [hexact]
  split
  · exact .plain (positional_numeral hkept _)
  · exact scientific_numeral hkept _

/-! ### Numbers -/

/-- What stands behind the numbers that are written out in full: nothing, or a place that is
zero. -/
def IsEnding (ending : List Char) : Prop := ending = [] ∨ ending = ['.', '0']

section

variable {x y : Number} {ending : List Char}

/-- A number that is written out in full is a natural number, but for its sign. -/
theorem units_of_isPlain (h : x.isPlain = true) :
    x.isFinite = true ∧ x.units = x.units / unitsPerOne * unitsPerOne ∧
      x.units < plainLimit * unitsPerOne := by
  simp only [isPlain, isIntegral, Bool.and_eq_true, decide_eq_true_eq] at h
  obtain ⟨⟨hfinite, hmod⟩, hlt⟩ := h
  exact ⟨hfinite, (Nat.div_mul_cancel (Nat.dvd_of_mod_eq_zero hmod)).symm, hlt⟩

theorem binaryValue_of_isPlain (h : x.isPlain = true) :
    binaryValue x.magnitude = (x.units / unitsPerOne : Nat) := by
  have hone : (unitsPerOne : ℚ) ≠ 0 := Nat.cast_ne_zero.2 unitsPerOne_pos.ne'
  have hunits : unitsOf x.magnitude = x.units / unitsPerOne * unitsPerOne :=
    (units_of_isPlain h).2.1
  rw [binaryValue_eq, hunits, Nat.cast_mul, mul_div_assoc, div_self hone, mul_one]

theorem isFinite_iff : x.isFinite = true ↔ x.isNaN = false ∧ x.isInfinite = false := by
  simp only [isFinite, isNaN, isInfinite, decide_eq_true_eq, decide_eq_false_iff_not]
  omega

/-- Zero is written out in full. -/
theorem magnitude_pos_of_not_isPlain (hx : x.isFinite = true) (h : x.isPlain = false) :
    0 < x.magnitude := by
  refine Nat.pos_of_ne_zero fun hzero => ?_
  have hunits : x.units = 0 := by rw [units, hzero, unitsOf_zero]
  have hlimit : 0 < plainLimit * unitsPerOne := Nat.mul_pos (by decide) unitsPerOne_pos
  have hplain : x.isPlain = true := by
    rw [isPlain, isIntegral, hx, hunits, Nat.zero_mod, decide_eq_true hlimit]
    rfl
  rw [hplain] at h
  cases h

/-- **The text of a finite number** denotes a fraction that rounds to it. -/
theorem unsignedText_numeral (hending : IsEnding ending) (hx : x.isFinite = true) :
    ∃ q, Numeral (unsignedText ending x) q ∧ RoundsTo q x.magnitude := by
  unfold unsignedText
  split
  · rename_i hplain
    have hexact := RoundsTo.exact x.magnitude
    rw [binaryValue_of_isPlain hplain] at hexact
    refine ⟨_, .plain ?_, hexact⟩
    have hdigits := isDigits_toDigits (x.units / unitsPerOne)
    rcases hending with rfl | rfl
    · simpa using PointNumeral.whole hdigits
    · have hnumeral := PointNumeral.point hdigits (isDigits_toDigits 0)
      rw [decimalValue_append, decimalValue_toDigits, decimalValue_toDigits] at hnumeral
      simpa using hnumeral
  · rename_i hplain
    have hpos := magnitude_pos_of_not_isPlain hx (Bool.eq_false_iff.2 hplain)
    rw [(isFinite_iff.1 hx).2, if_neg Bool.false_ne_true]
    exact ⟨_, decimalText_numeral (shortestDecimal_pos hpos),
      (shortestDecimal_around hpos).roundsTo⟩

/-- The text of a number that is no NaN is a numeral, or the one of infinity. -/
theorem unsignedText_cases (hending : IsEnding ending) (hx : x.isNaN = false) :
    (∃ q, Numeral (unsignedText ending x) q ∧ RoundsTo q x.magnitude) ∨
      x.magnitude = infinityBits ∧ unsignedText ending x = ['i', 'n', 'f'] := by
  cases hinfinite : x.isInfinite with
  | false => exact .inl (unsignedText_numeral hending (isFinite_iff.2 ⟨hx, hinfinite⟩))
  | true =>
    have hfinite : x.isFinite = false := by
      rw [Bool.eq_false_iff, ne_eq, isFinite_iff, hinfinite]
      simp
    refine .inr ⟨of_decide_eq_true hinfinite, ?_⟩
    simp [unsignedText, isPlain, isIntegral, hfinite, hinfinite]

theorem not_numeral_inf {q : ℚ} : ¬Numeral ['i', 'n', 'f'] q := by
  intro h
  obtain ⟨c, ds, hcs, hc⟩ := h.head
  obtain rfl := (List.cons.inj hcs).1
  exact absurd hc (by decide)

/-- The text behind the sign tells the magnitude. -/
theorem unsignedText_injective (hending : IsEnding ending) (hx : x.isNaN = false)
    (hy : y.isNaN = false) (h : unsignedText ending x = unsignedText ending y) :
    x.magnitude = y.magnitude := by
  rcases unsignedText_cases hending hx with ⟨q, hq, hround⟩ | ⟨hinf, htext⟩ <;>
    rcases unsignedText_cases hending hy with ⟨q', hq', hround'⟩ | ⟨hinf', htext'⟩
  · rw [h] at hq
    rw [hq.unique hq'] at hround
    exact hround.unique hround'
  · rw [h, htext'] at hq
    exact absurd hq not_numeral_inf
  · rw [← h, htext] at hq'
    exact absurd hq' not_numeral_inf
  · rw [hinf, hinf']

/-- The text behind the sign begins with no sign. -/
theorem unsignedText_ne_minus (hending : IsEnding ending) (hx : x.isNaN = false) {cs : List Char} :
    unsignedText ending x ≠ '-' :: cs := by
  intro h
  rcases unsignedText_cases hending hx with ⟨q, hq, -⟩ | ⟨-, htext⟩
  · obtain ⟨c, ds, hcs, hc⟩ := (h ▸ hq).head
    obtain rfl := (List.cons.inj hcs).1
    exact absurd hc (by decide)
  · rw [htext] at h
    cases h

theorem render_eq (hx : x.isNaN = false) :
    render ending x = (if x.isNegative then ['-'] else []) ++ unsignedText ending x := by
  rw [render, hx, if_neg Bool.false_ne_true]
  split <;> rfl

/-- **Different numbers have different texts.** -/
theorem render_injective (hending : IsEnding ending) (hx : x.isNaN = false) (hy : y.isNaN = false)
    (h : render ending x = render ending y) : x = y := by
  rw [render_eq hx, render_eq hy] at h
  have hsame : x.isNegative = y.isNegative ∧ x.magnitude = y.magnitude := by
    cases hsign : x.isNegative <;> cases hsign' : y.isNegative <;>
      simp only [hsign, hsign', Bool.false_eq_true, if_true, if_false, List.nil_append,
        List.singleton_append] at h
    · exact ⟨rfl, unsignedText_injective hending hx hy h⟩
    · exact absurd h (unsignedText_ne_minus hending hx)
    · exact absurd h.symm (unsignedText_ne_minus hending hy)
    · exact ⟨rfl, unsignedText_injective hending hx hy (List.tail_eq_of_cons_eq h)⟩
  rw [← ofMagnitude_magnitude x, hsame.1, hsame.2, ofMagnitude_magnitude]

end

end Number

end Lox
