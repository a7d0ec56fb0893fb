/-!
# Powers of two, and fractions given by a power

## Main definitions

* `twoPow` — a power of two.
* `scaled` — the numerator and the denominator of `m * base ^ e`, for an exponent of either sign.

## Main results

* `twoPow_succ`, `twoPow_add` — powers of two double with each step and multiply as exponents add.
* `twoPow_pos` — a power of two is positive.
-/

namespace MiddleEnd

/-- The power of two with exponent `n`. -/
def twoPow (n : Nat) : Nat := Nat.pow 2 n

@[simp] theorem twoPow_zero : twoPow 0 = 1 := rfl

theorem twoPow_succ (n : Nat) : twoPow (n + 1) = twoPow n * 2 := rfl

theorem twoPow_add (m n : Nat) : twoPow (m + n) = twoPow m * twoPow n := by
  induction n with
  | zero => rw [Nat.add_zero, twoPow_zero, Nat.mul_one]
  | succ n ih => rw [← Nat.add_assoc, twoPow_succ, twoPow_succ, ih, Nat.mul_assoc]

theorem twoPow_pos (n : Nat) : 0 < twoPow n := by
  induction n with
  | zero => decide
  | succ n ih => rw [twoPow_succ]; omega

/-- The numerator and the denominator of `m * base ^ e`. -/
def scaled (base m : Nat) (e : Int) : Nat × Nat :=
  if 0 ≤ e then (m * Nat.pow base e.toNat, 1) else (m, Nat.pow base (-e).toNat)

end MiddleEnd
