import MiddleEnd.Machine.Arith
import MiddleEnd.Typing

/-!
# Canonical words

A kind reads a value from the low bits of a word, and writes a value so that the upper bits follow
from the low ones.  All that the machine computes as a value of a kind is written in this way.

## Main definitions

* `Kind.IsCanonical` — a word as its kind writes it.

## Main results

* `IntKind.value_ofInt` — a kind reads back the values that it can hold.
* `Kind.isCanonical_convert`, `ArithOp.isCanonical_apply` — conversions and operators write
  canonical words.
-/

namespace MiddleEnd

/-- A word as its kind writes it. -/
def Kind.IsCanonical : Kind → Word → Prop
  | .int k, w => Word.ofInt (k.value w) = w
  | .float k, w => w.toNat < twoPow k.bits

instance (k : Kind) (w : Word) : Decidable (k.IsCanonical w) :=
  match k with
  | .int k => inferInstanceAs (Decidable (Word.ofInt (k.value w) = w))
  | .float k => inferInstanceAs (Decidable (w.toNat < twoPow k.bits))

namespace IntKind

variable {k : IntKind} {v : Int}

/-- A wrapped value is one that the kind can hold. -/
theorem fits_wrap (k : IntKind) (v : Int) : k.fits (k.wrap v) = true := by
  obtain ⟨isSigned, width⟩ := k
  cases isSigned <;> cases width <;>
    simp [fits, wrap, lo, hi, modulus, bits, Width.bits, twoPow, Int.bmod_def] <;> omega

/-- A kind reads back the values that it can hold. -/
theorem value_ofInt (h : k.fits v = true) : k.value (Word.ofInt v) = v := by
  obtain ⟨isSigned, width⟩ := k
  cases isSigned <;> cases width <;>
    simp [fits, value, Word.ofInt, wrap, lo, hi, modulus, bits, Width.bits, twoPow, Int.bmod_def,
      UInt64.size] at h ⊢ <;>
    omega

theorem isCanonical_ofInt (h : k.fits v = true) : (Kind.int k).IsCanonical (Word.ofInt v) := by
  rw [Kind.IsCanonical, value_ofInt h]

theorem isCanonical_word (k : IntKind) (v : Int) : (Kind.int k).IsCanonical (k.word v) :=
  isCanonical_ofInt (k.fits_wrap v)

/-- No value that is negated and still above the least one exceeds the greatest one. -/
theorem fits_neg {n : Nat} (h : k.lo ≤ -(n : Int)) : k.fits (-(n : Int)) = true := by
  obtain ⟨isSigned, width⟩ := k
  cases isSigned <;> cases width <;>
    simp [fits, lo, hi, modulus, bits, Width.bits, twoPow] at h ⊢ <;> omega

/-- A kind with the full width writes every word. -/
theorem isCanonical_of_full (h : k.width = .w64) (w : Word) : (Kind.int k).IsCanonical w := by
  obtain ⟨isSigned, width⟩ := k
  obtain rfl : width = .w64 := h
  apply UInt64.toNat_inj.1
  have hlt := w.toNat_lt
  cases isSigned <;>
    simp [value, Word.ofInt, wrap, modulus, bits, Width.bits, twoPow, Int.bmod_def,
      UInt64.size] at hlt ⊢ <;>
    omega

end IntKind

namespace FloatKind

theorem encode_lt (k : FloatKind) (v : BinaryValue) : k.format.encode v < twoPow k.bits := by
  have hnearest (num den : Nat) : k.format.nearest num den ≤ k.format.infinity := by
    unfold BinaryFormat.nearest
    split
    · exact Nat.zero_le _
    · exact Nat.min_le_left _ _
  cases v with
  | nan => cases k <;> decide
  | infinite negative => cases k <;> cases negative <;> decide
  | finite negative m e =>
    have hle := hnearest (scaled 2 m e).1 (scaled 2 m e).2
    have htop : negative.toNat * k.format.signBit + k.format.infinity < twoPow k.bits := by
      cases k <;> cases negative <;> decide
    exact Nat.lt_of_le_of_lt (Nat.add_le_add_left hle _) htop

theorem isCanonical_word (k : FloatKind) (v : BinaryValue) :
    (Kind.float k).IsCanonical (k.word v) := by
  have hlt := k.encode_lt v
  have hmod : (k.word v).toNat = k.format.encode v % 2 ^ 64 := rfl
  show (k.word v).toNat < _
  rw [hmod]
  exact Nat.lt_of_le_of_lt (Nat.mod_le _ _) hlt

end FloatKind

namespace Kind

/-- Double precision takes all bits. -/
theorem isCanonical_f64 (w : Word) : f64.IsCanonical w := w.toNat_lt

/-- Small numbers are canonical words of unsigned kinds. -/
theorem isCanonical_u32 {n : Nat} (h : n < UInt32.size) : u32.IsCanonical (UInt64.ofNat n) := by
  unfold UInt32.size at h
  have hword : UInt64.ofNat n = Word.ofInt (n : Int) := by
    unfold Word.ofInt
    rw [Int.emod_eq_of_lt (Int.natCast_nonneg n) (by simp [UInt64.size]; omega), Int.toNat_natCast]
  rw [hword]
  refine IntKind.isCanonical_ofInt ?_
  simp [IntKind.fits, IntKind.lo, IntKind.hi, IntKind.modulus, IntKind.bits, Width.bits, twoPow]
  omega

theorem isCanonical_zero (k : Kind) : k.IsCanonical 0 := by
  cases k with
  | int k =>
    obtain ⟨isSigned, width⟩ := k
    cases isSigned <;> cases width <;> decide
  | float k => cases k <;> decide

/-- **Conversions write canonical words**, whatever they read. -/
theorem isCanonical_convert (source target : Kind) (w : Word) :
    target.IsCanonical (source.convert target w) := by
  cases source <;> cases target
  · exact IntKind.isCanonical_word _ _
  · exact FloatKind.isCanonical_word _ _
  · exact IntKind.isCanonical_word _ _
  · exact FloatKind.isCanonical_word _ _

end Kind

/-- **Operators write canonical words**, whatever they read. -/
theorem ArithOp.isCanonical_apply {op : ArithOp} {kind : Kind} {a b w : Word}
    (h : op.apply kind a b = .ok w) : kind.IsCanonical w := by
  cases kind with
  | int k =>
    simp only [apply, onInts] at h
    split at h
    · cases h
    · split at h
      · next hfits =>
        cases h
        exact IntKind.isCanonical_ofInt hfits
      · cases h
  | float k =>
    cases k with
    | f64 =>
      cases h
      exact Kind.isCanonical_f64 _
    | f32 =>
      cases h
      exact UInt32.toNat_lt _

theorem Kind.isCanonical_negate {kind : Kind} {a w : Word} (h : kind.negate a = .ok w) :
    kind.IsCanonical w :=
  ArithOp.isCanonical_apply h

end MiddleEnd
