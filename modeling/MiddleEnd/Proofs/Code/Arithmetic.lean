import MiddleEnd.Proofs.Code.Bits

/-!
# Integer arithmetic is exact or refused

An operation takes the integers that the low bits of its operands stand for.  If the mathematical
result is one that the kind can hold, its canonical word is the result; else the operation is
refused.

## Main definitions

* `ArithOp.Yields` — the mathematical result of an operation.

## Main results

* `ArithOp.eval?_eq_some_iff` — the operation on integers finds the mathematical result.
* `ArithOp.apply_int_exact` — **an operation on words is exact or refused**.
-/

namespace MiddleEnd

namespace ArithOp

/-- The result of an operation on two integers.  A quotient is rounded toward zero, which leaves a
remainder on the side of the dividend; negation ignores the second operand. -/
inductive Yields (x y : Int) : ArithOp → Int → Prop
  /-- The sum. -/
  | add : Yields x y (.binary .add) (x + y)
  /-- The difference. -/
  | sub : Yields x y (.binary .sub) (x - y)
  /-- The product. -/
  | mul : Yields x y (.binary .mul) (x * y)
  /-- The quotient of a division with a remainder that is smaller than the divisor and lies on the
  side of the dividend. -/
  | div {q r : Int} (parts : x = y * q + r) (small : r.natAbs < y.natAbs) (side : 0 ≤ x * r) :
      Yields x y (.binary .div) q
  /-- The opposite number. -/
  | negate : Yields x y .negate (-x)

/-! ### Truncated quotients -/

/-- A quotient of a dividend that is not negative, with a remainder that is none either. -/
theorem tdiv_eq_of_nonneg {x y q r : Int} (hx : 0 ≤ x) (parts : x = y * q + r) (hr : 0 ≤ r)
    (small : r.natAbs < y.natAbs) : x.tdiv y = q := by
  have hy : y ≠ 0 := by rintro rfl; simp at small
  exact ((Int.tdiv_tmod_unique hx hy).2 ⟨by omega, hr, by omega⟩).1

/-- A remainder that is smaller than the divisor is zero with a dividend that is zero. -/
theorem remainder_eq_zero {y q r : Int} (parts : 0 = y * q + r) (small : r.natAbs < y.natAbs) :
    r = 0 := by
  have hdvd : y ∣ r := ⟨-q, by rw [Int.mul_neg]; omega⟩
  exact Int.eq_zero_of_dvd_of_natAbs_lt_natAbs hdvd small

/-- There is only one quotient that leaves a small remainder on the side of the dividend. -/
theorem tdiv_eq_of_parts {x y q r : Int} (parts : x = y * q + r) (small : r.natAbs < y.natAbs)
    (side : 0 ≤ x * r) : x.tdiv y = q := by
  rcases Int.lt_trichotomy x 0 with hneg | rfl | hpos
  · have hr : r ≤ 0 := Int.not_lt.1 fun hpos =>
      absurd side (Int.not_le.2 (Int.mul_neg_of_neg_of_pos hneg hpos))
    have hquot : (-x).tdiv y = -q :=
      tdiv_eq_of_nonneg (r := -r) (by omega) (by rw [Int.mul_neg]; omega) (by omega) (by omega)
    rw [Int.neg_tdiv] at hquot
    omega
  · obtain rfl := remainder_eq_zero parts small
    exact tdiv_eq_of_nonneg (Int.le_refl 0) parts (Int.le_refl 0) small
  · have hr : 0 ≤ r := Int.not_lt.1 fun hneg =>
      absurd side (Int.not_le.2 (Int.mul_neg_of_pos_of_neg hpos hneg))
    exact tdiv_eq_of_nonneg (by omega) parts hr small

/-- The remainder of a truncated quotient is on the side of the dividend. -/
theorem mul_tmod_nonneg (x y : Int) : 0 ≤ x * x.tmod y := by
  rcases Int.le_total 0 x with hx | hx
  · exact Int.mul_nonneg hx (Int.tmod_nonneg y hx)
  · have hrest : 0 ≤ (-x).tmod y := Int.tmod_nonneg y (by omega)
    rw [Int.neg_tmod] at hrest
    exact Int.mul_nonneg_of_nonpos_of_nonpos hx (by omega)

/-! ### Results on integers -/

/-- The operation on integers finds the mathematical result. -/
theorem eval?_eq_some_iff {op : ArithOp} {x y v : Int} :
    op.eval? x y = some v ↔ op.Yields x y v := by
  constructor
  · intro h
    match op with
    | binary .add => cases h; exact .add
    | binary .sub => cases h; exact .sub
    | binary .mul => cases h; exact .mul
    | negate => cases h; exact .negate
    | binary .div =>
      simp only [eval?] at h
      split at h
      · cases h
      · next hy =>
        cases h
        refine .div (r := x.tmod y) (Int.mul_tdiv_add_tmod x y).symm ?_ (mul_tmod_nonneg x y)
        rw [Int.natAbs_tmod]
        exact Nat.mod_lt _ (Int.natAbs_pos.2 hy)
  · intro h
    cases h with
    | add | sub | mul | negate => rfl
    | div parts small side =>
      have hy : y ≠ 0 := by rintro rfl; simp at small
      rw [eval?, if_neg hy, tdiv_eq_of_parts parts small side]

/-- Only a division by zero has no mathematical result. -/
theorem eval?_eq_none_iff {op : ArithOp} {x y : Int} :
    op.eval? x y = none ↔ op = .binary .div ∧ y = 0 := by
  match op with
  | binary .add | binary .sub | binary .mul | negate => simp [eval?]
  | binary .div => simp [eval?]

/-! ### Results on words -/

variable {k : IntKind}

theorem fits_iff {v : Int} : k.fits v = true ↔ k.lo ≤ v ∧ v ≤ k.hi := by
  simp [IntKind.fits]

theorem onInts_eq_ok_iff {op : ArithOp} {a b w : Word} :
    op.onInts k a b = .ok w ↔
      ∃ v, op.eval? (k.value a) (k.value b) = some v ∧ k.fits v = true ∧ Word.ofInt v = w := by
  unfold onInts
  cases heval : op.eval? (k.value a) (k.value b) with
  | none => simp
  | some v => by_cases hfits : k.fits v = true <;> simp [hfits]

theorem onInts_eq_error_iff {op : ArithOp} {a b : Word} {e : ArithError} :
    op.onInts k a b = .error e ↔
      (op.eval? (k.value a) (k.value b) = none ∧ .divisionByZero = e) ∨
      ∃ v, op.eval? (k.value a) (k.value b) = some v ∧ ¬k.fits v = true ∧
        .overflow op (.int k) = e := by
  unfold onInts
  cases heval : op.eval? (k.value a) (k.value b) with
  | none => simp
  | some v => by_cases hfits : k.fits v = true <;> simp [hfits]

/-- The canonical word of an integer is the one with the bits that stand for it. -/
theorem ofInt_eq_iff {v : Int} {w : Word} (h : k.fits v = true) :
    Word.ofInt v = w ↔ k.number (k.low w) = v ∧ w = k.extend (k.low w) := by
  rw [← IntKind.isCanonical_iff, IntKind.number_low]
  constructor
  · rintro rfl
    exact ⟨IntKind.value_ofInt h, IntKind.isCanonical_ofInt h⟩
  · rintro ⟨rfl, hcanonical⟩
    exact hcanonical

/-- **Integer arithmetic is exact or refused.**  An operation has the canonical word of the
mathematical result exactly if the kind can hold that; it refuses a division by zero as such and all
else as an overflow; and bits above the width of the kind do not count. -/
theorem apply_int_exact (op : ArithOp) (k : IntKind) (a b : Word) :
    (∀ w, op.apply (.int k) a b = .ok w ↔
      ∃ v, op.Yields (k.number (k.low a)) (k.number (k.low b)) v ∧ (k.lo ≤ v ∧ v ≤ k.hi) ∧
        k.number (k.low w) = v ∧ w = k.extend (k.low w)) ∧
    (op.apply (.int k) a b = .error .divisionByZero ↔
      op = .binary .div ∧ k.low b = 0#k.bits) ∧
    (op.apply (.int k) a b = .error (.overflow op (.int k)) ↔
      ¬(op = .binary .div ∧ k.low b = 0#k.bits) ∧
      ¬∃ v, op.Yields (k.number (k.low a)) (k.number (k.low b)) v ∧ (k.lo ≤ v ∧ v ≤ k.hi)) ∧
    (∀ e, op.apply (.int k) a b = .error e → e = .divisionByZero ∨ e = .overflow op (.int k)) ∧
    (∀ a' b', k.low a' = k.low a → k.low b' = k.low b →
      op.apply (.int k) a' b' = op.apply (.int k) a b) ∧
    (Kind.int k).negate a = ArithOp.negate.apply (.int k) a b := by
  -- A division by zero is the only operation without a mathematical result.
  have hzero : op.eval? (k.value a) (k.value b) = none ↔ op = .binary .div
    ∧ k.low b = 0#k.bits := by
    rw [eval?_eq_none_iff, ← IntKind.number_low, IntKind.number_eq_zero]
  simp only [← fits_iff, ← eval?_eq_some_iff, IntKind.number_low, ← hzero]
  refine ⟨fun w => ?_, ?_, ?_, fun e he => ?_, fun a' b' ha hb => ?_, ?_⟩
  · -- The word of a result in range is its canonical one, and no other.
    refine onInts_eq_ok_iff.trans (exists_congr fun v => and_congr_right fun _ => ?_)
    refine and_congr_right fun hfits => ?_
    rw [ofInt_eq_iff hfits, IntKind.number_low]
  · simp [apply, onInts_eq_error_iff]
  · simp only [apply, onInts_eq_error_iff]
    cases op.eval? (k.value a) (k.value b) <;> simp
  · rcases onInts_eq_error_iff.1 he with ⟨-, rfl⟩ | ⟨v, -, -, rfl⟩
    · exact .inl rfl
    · exact .inr rfl
  · -- The bits above the width have no part in the value.
    have hx : k.value a' = k.value a := by rw [← k.number_low, ha, k.number_low]
    have hy : k.value b' = k.value b := by rw [← k.number_low, hb, k.number_low]
    simp only [apply, onInts, hx, hy]
  · rfl

/-- The least value of a signed kind has no negation, and other bits above it do not change that. -/
theorem apply_int_exact_least :
    ArithOp.negate.apply .i8 0xAB80 0 = .error (.overflow .negate .i8) := by
  have h := apply_int_exact .negate ⟨true, .w8⟩ 0x80 0
  have hlow : IntKind.low ⟨true, .w8⟩ 0xAB80 = IntKind.low ⟨true, .w8⟩ 0x80 := by decide
  refine (h.2.2.2.2.1 0xAB80 0 hlow rfl).trans (h.2.2.1.2 ⟨by decide, ?_⟩)
  rintro ⟨v, hyields, hrange⟩
  cases hyields
  revert hrange
  decide

end ArithOp

end MiddleEnd
