import Mathlib.Data.Nat.Digits.Defs
import MiddleEnd.Number.Spelling

/-!
# Numerals

An integer is spelled by digits below a radix.  It is read digit by digit, and reading stops when
the value leaves 64 bits; the values of the digits before only grow, so that this happens exactly
for numerals whose value does not fit.  A plus sign is read in front of the digits too, which no
number is spelled with.

## Main definitions

* `numeralValue` — the value of digits in a radix, by position.
* `IsNumeral` — digits of a radix whose value fits.
* `IsNumber`, `numberOf` — integers as they are spelled, octal after a leading zero, and what they
  denote.
* `SignedNumber` — what is read in addition.

## Main results

* `readDigits_ok_iff` — reading digits gives their value by position, if it fits.
* `Spelled.ofText_ok_iff` — **which integers are read**.
* `Spelled.ofText_exact_iff` — exactly the numbers are read from texts without a plus sign at its
  place.
-/

namespace MiddleEnd

/-! ### Digits -/

/-- The value of a digit. -/
def digitValue (c : Char) : Nat := c.toNat - '0'.toNat

/-- An ASCII digit below the radix. -/
def IsDigitOf (radix : Nat) (c : Char) : Prop := c.isDigit = true ∧ digitValue c < radix

instance (radix : Nat) (c : Char) : Decidable (IsDigitOf radix c) :=
  inferInstanceAs (Decidable (_ ∧ _))

theorem digit?_eq (radix : Nat) (c : Char) :
    digit? radix c = if IsDigitOf radix c then some (digitValue c) else none := by
  unfold digit? IsDigitOf
  simp only [Bool.and_eq_true, decide_eq_true_eq]
  rfl

/-- The value of digits in a radix, the last one being that of the units. -/
def numeralValue (radix : Nat) (ds : List Char) : Nat :=
  Nat.ofDigits radix (ds.reverse.map digitValue)

theorem numeralValue_cons (radix : Nat) (c : Char) (ds : List Char) :
    numeralValue radix (c :: ds) = digitValue c * radix ^ ds.length + numeralValue radix ds := by
  unfold numeralValue
  rw [List.reverse_cons, List.map_append, Nat.ofDigits_append, List.map_singleton,
    Nat.ofDigits_singleton, List.length_map, List.length_reverse]
  ring

/-- At least one digit of the radix, and a value of 64 bits. -/
structure IsNumeral (radix : Nat) (ds : List Char) : Prop where
  /-- There is a digit. -/
  nonempty : ds ≠ []
  /-- All characters are digits of the radix. -/
  digits : ∀ c ∈ ds, IsDigitOf radix c
  /-- The value fits in 64 bits. -/
  lt : numeralValue radix ds < 2 ^ 64

instance (radix : Nat) (ds : List Char) : Decidable (IsNumeral radix ds) :=
  decidable_of_iff
    (ds ≠ [] ∧ ds.all (fun c => decide (IsDigitOf radix c)) = true ∧ numeralValue radix ds < 2 ^ 64)
    ⟨fun ⟨hne, hdigits, hlt⟩ => ⟨hne, by simpa using hdigits, hlt⟩,
      fun h => ⟨h.nonempty, by simpa using h.digits, h.lt⟩⟩

/-! ### Reading digits -/

/-- **Reading digits gives their value by position**, behind a value that has been read before. -/
theorem readDigits_ok_iff {radix acc v : Nat} {ds : List Char} (hacc : acc < 2 ^ 64) :
    readDigits radix ds acc = .ok v
      ↔ (∀ c ∈ ds, IsDigitOf radix c) ∧ v = acc * radix ^ ds.length + numeralValue radix ds
        ∧ v < 2 ^ 64 := by
  induction ds generalizing acc with
  | nil =>
    have hvalue : acc * radix ^ ([] : List Char).length + numeralValue radix [] = acc := by
      simp [numeralValue]
    rw [readDigits, Except.ok.injEq, hvalue]
    constructor
    · rintro rfl
      exact ⟨by simp, rfl, hacc⟩
    · rintro ⟨-, rfl, -⟩
      rfl
  | cons c ds ih =>
    rw [readDigits, digit?_eq, List.forall_mem_cons]
    by_cases hc : IsDigitOf radix c
    · have hpos : 0 < radix ^ ds.length := Nat.pow_pos (Nat.zero_lt_of_lt hc.2)
      have hvalue : acc * radix ^ (c :: ds).length + numeralValue radix (c :: ds)
          = (acc * radix + digitValue c) * radix ^ ds.length + numeralValue radix ds := by
        rw [numeralValue_cons, List.length_cons]
        ring
      simp only [if_pos hc, and_iff_right hc, hvalue]
      split
      · next hlt => exact ih hlt
      · next hge =>
        -- The value only grows, so that what has left the range does not come back.
        have hle := Nat.le_mul_of_pos_right (acc * radix + digitValue c) hpos
        refine iff_of_false (by simp) ?_
        rintro ⟨-, rfl, hlt⟩
        have hge : ¬acc * radix + digitValue c < 2 ^ 64 := hge
        omega
    · rw [if_neg hc]
      exact iff_of_false (by simp) fun h => hc h.1.1

theorem readDigits_zero_ok_iff {radix v : Nat} {ds : List Char} (hne : ds ≠ []) :
    readDigits radix ds 0 = .ok v ↔ IsNumeral radix ds ∧ v = numeralValue radix ds := by
  rw [readDigits_ok_iff (Nat.two_pow_pos 64), Nat.zero_mul, Nat.zero_add]
  constructor
  · rintro ⟨hdigits, rfl, hlt⟩
    exact ⟨⟨hne, hdigits, hlt⟩, rfl⟩
  · rintro ⟨h, rfl⟩
    exact ⟨h.digits, rfl, h.lt⟩

/-- A plus sign is no digit. -/
theorem not_isNumeral_plus (radix : Nat) (ds : List Char) : ¬IsNumeral radix ('+' :: ds) := fun h =>
  absurd (h.digits '+' (.head ds)).1 (by decide)

/-- A numeral is read, and so is a plus sign with a numeral behind it. -/
theorem readNatural_ok_iff {radix v : Nat} {cs : List Char} :
    readNatural radix cs = .ok v
      ↔ IsNumeral radix cs ∧ v = numeralValue radix cs
        ∨ ∃ ds, cs = '+' :: ds ∧ IsNumeral radix ds ∧ v = numeralValue radix ds := by
  unfold readNatural
  split
  · refine iff_of_false (by simp) ?_
    rintro (⟨h, -⟩ | ⟨ds, h, -⟩)
    · exact h.nonempty rfl
    · cases h
  · next c =>
    rw [readDigits_zero_ok_iff (by simp), or_iff_left]
    rintro ⟨ds, h, hds, -⟩
    obtain ⟨-, rfl⟩ := List.cons.inj h
    exact hds.nonempty rfl
  · next ds hne =>
    rw [readDigits_zero_ok_iff hne, or_iff_right fun h => not_isNumeral_plus radix ds h.1]
    constructor
    · exact fun h => ⟨ds, rfl, h⟩
    · rintro ⟨ds', h, hds'⟩
      obtain ⟨-, rfl⟩ := List.cons.inj h
      exact hds'
  · next cs hnil _ hplus =>
    rw [readDigits_zero_ok_iff hnil, or_iff_left]
    rintro ⟨ds, rfl, -⟩
    exact hplus ds rfl

/-! ### Numbers -/

/-- The radix of an integer: 8 after a leading zero. -/
def numeralRadix (ds : List Char) : Nat := if ds.head? = some '0' ∧ 1 < ds.length then 8 else 10

/-- An integer as it is spelled. -/
def IsNumber (ds : List Char) : Prop := IsNumeral (numeralRadix ds) ds

instance (ds : List Char) : Decidable (IsNumber ds) := inferInstanceAs (Decidable (IsNumeral _ ds))

/-- What an integer denotes. -/
def numberOf (ds : List Char) : Spelled :=
  if numeralRadix ds = 8 then .octal (numeralValue 8 ds) else .decimal (numeralValue 10 ds)

/-- A numeral with a plus sign in front of it or behind a leading zero. -/
inductive SignedNumber : List Char → Spelled → Prop
  /-- A plus in front of a decimal numeral. -/
  | front {ds : List Char} (h : IsNumeral 10 ds) :
      SignedNumber ('+' :: ds) (.decimal (numeralValue 10 ds))
  /-- A plus between the leading zero and an octal numeral. -/
  | afterZero {ds : List Char} (h : IsNumeral 8 ds) :
      SignedNumber ('0' :: '+' :: ds) (.octal (numeralValue 8 ds))

theorem numeralRadix_zero_cons (c : Char) (ds : List Char) : numeralRadix ('0' :: c :: ds) = 8 := by
  simp [numeralRadix]

/-- A leading zero adds nothing to the value. -/
theorem isNumeral_zero_cons {radix : Nat} (hradix : 0 < radix) {ds : List Char} (hne : ds ≠ []) :
    (IsNumeral radix ('0' :: ds) ↔ IsNumeral radix ds)
      ∧ numeralValue radix ('0' :: ds) = numeralValue radix ds := by
  have hzero : digitValue '0' = 0 := rfl
  have hvalue : numeralValue radix ('0' :: ds) = numeralValue radix ds := by
    rw [numeralValue_cons, hzero, Nat.zero_mul, Nat.zero_add]
  refine ⟨⟨fun h => ⟨hne, fun c hc => h.digits c (.tail _ hc), hvalue ▸ h.lt⟩, fun h => ?_⟩, hvalue⟩
  refine ⟨by simp, ?_, hvalue.symm ▸ h.lt⟩
  rw [List.forall_mem_cons]
  exact ⟨⟨by decide, hradix⟩, h.digits⟩

/-- A number is not signed. -/
theorem SignedNumber.not_isNumber {ds : List Char} {s : Spelled} (h : SignedNumber ds s) :
    ¬IsNumber ds := by
  cases h with
  | front _ => exact not_isNumeral_plus _ _
  | afterZero _ =>
    exact fun h => absurd (h.digits '+' (.tail _ (.head _))).1 (by decide)

namespace Spelled

theorem map_ok_iff {r : Except SpellingError Nat} {f : Nat → Spelled} {s : Spelled} :
    r.map f = .ok s ↔ ∃ v, r = .ok v ∧ s = f v := by
  cases r with
  | error e => simp [Except.map]
  | ok v => simp [Except.map, eq_comm]

/-- **Which integers are read** from characters none of which marks a float. -/
theorem ofDigits_ok_iff {ds : List Char} (hplain : ∀ c ∈ ds, isFloatMark c = false) {s : Spelled} :
    ofDigits ds = .ok s ↔ IsNumber ds ∧ s = numberOf ds ∨ SignedNumber ds s := by
  have hfloat : ds.any isFloatMark = false := by
    rw [List.any_eq_false]
    exact fun c hc => by simp [hplain c hc]
  unfold ofDigits
  split
  · -- Without characters there is no number.
    next hempty =>
    obtain rfl := List.isEmpty_iff.1 hempty
    refine iff_of_false (by simp) ?_
    rintro (⟨h, -⟩ | h)
    · exact h.nonempty rfl
    · cases h
  rw [hfloat, if_neg Bool.false_ne_true]
  split
  · -- A leading zero makes the number octal.
    next c rest _ =>
    have hne : c :: rest ≠ [] := List.cons_ne_nil c rest
    obtain ⟨hnumeral, hvalue⟩ := isNumeral_zero_cons (Nat.succ_pos 7) hne
    rw [map_ok_iff, IsNumber, numberOf, numeralRadix_zero_cons, if_pos rfl, hnumeral, hvalue]
    simp only [readNatural_ok_iff]
    constructor
    · rintro ⟨v, ⟨h, rfl⟩ | ⟨ds, hds, h, rfl⟩, rfl⟩
      · exact .inl ⟨h, rfl⟩
      · rw [hds]
        exact .inr (.afterZero h)
    · rintro (⟨h, rfl⟩ | h)
      · exact ⟨_, .inl ⟨h, rfl⟩, rfl⟩
      · cases h with
        | afterZero h => exact ⟨_, .inr ⟨_, rfl, h, rfl⟩, rfl⟩
  · -- Otherwise it is decimal.
    next hne _ hoctal =>
    have hradix : numeralRadix ds = 10 := by
      refine if_neg ?_
      rintro ⟨hzero, hlength⟩
      match ds with
      | [] => cases hzero
      | [_] => exact absurd hlength (by simp)
      | c :: c' :: rest =>
        obtain rfl : c = '0' := Option.some.inj hzero
        exact hoctal c' rest rfl
    rw [map_ok_iff, IsNumber, numberOf, hradix, if_neg (by decide)]
    simp only [readNatural_ok_iff]
    constructor
    · rintro ⟨v, ⟨h, rfl⟩ | ⟨ds, rfl, h, rfl⟩, rfl⟩
      · exact .inl ⟨h, rfl⟩
      · exact .inr (.front h)
    · rintro (⟨h, rfl⟩ | h)
      · exact ⟨_, .inl ⟨h, rfl⟩, rfl⟩
      · cases h with
        | front h => exact ⟨_, .inr ⟨_, rfl, h, rfl⟩, rfl⟩
        | afterZero _ => exact (hoctal _ _ rfl).elim

/-- The characters of a text that count. -/
def digitsOf (text : String) : List Char := text.toList.filter (· != '_')

/-- **Which integers are read** from a text without a point and an exponent. -/
theorem ofText_ok_iff {text : String} (hplain : ∀ c ∈ text.toList, isFloatMark c = false)
    {s : Spelled} :
    ofText text = .ok s
      ↔ IsNumber (digitsOf text) ∧ s = numberOf (digitsOf text)
        ∨ SignedNumber (digitsOf text) s :=
  ofDigits_ok_iff fun c hc => hplain c (List.mem_filter.1 hc).1

/-- Exactly the numbers are read, unless there is a plus sign that is read over. -/
theorem ofText_exact_iff {text : String} (hplain : ∀ c ∈ text.toList, isFloatMark c = false) :
    (∀ s, ofText text = .ok s ↔ IsNumber (digitsOf text) ∧ s = numberOf (digitsOf text))
      ↔ ∀ s, ¬SignedNumber (digitsOf text) s := by
  simp only [ofText_ok_iff hplain]
  constructor
  · intro h s hsigned
    exact hsigned.not_isNumber ((h s).1 (.inr hsigned)).1
  · intro h s
    rw [or_iff_left (h s)]

end Spelled

end MiddleEnd
