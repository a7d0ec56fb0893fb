import MiddleEnd.Proofs.Code.Canonical
import MiddleEnd.Proofs.Number.Exact

/-!
# Integers in words

A kind reads an integer from a word, and it can hold the integers that it reads from some word.  An
integer that both kinds can hold is kept by a conversion; one that an integer kind cannot hold is
wrapped, and this is never an error.

## Main definitions

* `Kind.Denotes` — the integer that a word is read as.
* `Kind.Represents` — the integers that a kind can hold.
* `Kind.converted` — a word as a value of another kind.

## Main results

* `IntKind.wrap_congr` — what is wrapped is known up to the number of values of the kind.
* `IntKind.represents_iff` — integer kinds hold the integers between two bounds.
* `Kind.denotes_convert` — **a conversion keeps what both kinds can hold**.
-/

namespace MiddleEnd

namespace Kind

/-- A word that is read as the integer `v`. -/
def Denotes : Kind → Word → Int → Prop
  | int k, w, v => k.value w = v
  | float k, w, v => (k.value w).Denotes v

instance (k : Kind) (w : Word) (v : Int) : Decidable (k.Denotes w v) :=
  match k with
  | int k => inferInstanceAs (Decidable (k.value w = v))
  | float k => inferInstanceAs (Decidable ((k.value w).Denotes v))

/-- The kind can hold the integer `v`. -/
def Represents (k : Kind) (v : Int) : Prop := ∃ w, k.Denotes w v

end Kind

theorem Width.bits_le (w : Width) : w.bits ≤ 64 := by
  cases w <;> decide

namespace IntKind

variable {k : IntKind} {v : Int}

theorem wrap_of_fits (h : k.fits v = true) : k.wrap v = v := by
  obtain ⟨isSigned, width⟩ := k
  cases isSigned <;> cases width <;>
    simp [fits, wrap, lo, hi, modulus, bits, Width.bits, twoPow, Int.bmod_def] at h ⊢ <;> omega

theorem value_word (k : IntKind) (v : Int) : k.value (k.word v) = k.wrap v :=
  value_ofInt (k.fits_wrap v)

/-- Integer kinds hold the integers between their least and their greatest one. -/
theorem represents_iff : (Kind.int k).Represents v ↔ k.fits v = true := by
  constructor
  · rintro ⟨w, rfl⟩
    exact k.fits_wrap w.toNat
  · exact fun h => ⟨Word.ofInt v, value_ofInt h⟩

/-- An integer that is wrapped stays the same up to the number of values of the kind. -/
theorem dvd_wrap_sub (k : IntKind) (v : Int) : (k.modulus : Int) ∣ k.wrap v - v := by
  unfold wrap
  split
  · exact Int.dvd_bmod_sub_self
  · exact Int.dvd_emod_sub_self

/-- What is wrapped needs to be known only up to the number of values of the kind. -/
theorem wrap_congr {u v : Int} (h : (k.modulus : Int) ∣ u - v) : k.wrap u = k.wrap v := by
  have hmod : u % (k.modulus : Int) = v % (k.modulus : Int) :=
    Int.emod_eq_emod_iff_emod_sub_eq_zero.2 (Int.emod_eq_zero_of_dvd h)
  unfold wrap
  rw [hmod, Int.bmod_def, Int.bmod_def, hmod]

/-- Only the low bits of a natural number are in its word. -/
theorem value_ofNat (k : IntKind) (n : Nat) : k.value (UInt64.ofNat n) = k.wrap n := by
  refine wrap_congr ?_
  have hword : (UInt64.ofNat n).toNat = n % 2 ^ 64 := rfl
  have hdvd : (k.modulus : Int) ∣ ((2 ^ 64 : Nat) : Int) :=
    Int.natCast_dvd_natCast.2 (Nat.pow_dvd_pow 2 k.width.bits_le)
  rw [hword, Int.natCast_emod]
  exact Int.dvd_trans hdvd Int.dvd_emod_sub_self

/-- An integer may have been wrapped to a wider kind before. -/
theorem wrap_wrap {k' : IntKind} (h : k.bits ≤ k'.bits) (v : Int) :
    k.wrap (k'.wrap v) = k.wrap v := by
  refine wrap_congr (Int.dvd_trans ?_ (k'.dvd_wrap_sub v))
  exact Int.natCast_dvd_natCast.2 (Nat.pow_dvd_pow 2 h)

theorem wrap_neg_wrap (k : IntKind) (v : Int) : k.wrap (-k.wrap v) = k.wrap (-v) := by
  refine wrap_congr ?_
  have hdvd := Int.dvd_neg.2 (k.dvd_wrap_sub v)
  rwa [show -k.wrap v - -v = -(k.wrap v - v) by omega]

/-- An integer is kept exactly if the kind can hold it. -/
theorem wrap_eq_iff : k.wrap v = v ↔ k.fits v = true :=
  ⟨fun h => h ▸ k.fits_wrap v, wrap_of_fits⟩

/-- A negation that does not fail has the value that it should have. -/
theorem value_negate {a w : Word} (h : (Kind.int k).negate a = .ok w) : k.value w = -k.value a := by
  simp only [Kind.negate, ArithOp.apply, ArithOp.onInts, ArithOp.eval?] at h
  split at h
  · next hfits =>
    cases h
    exact value_ofInt hfits
  · cases h

end IntKind

namespace FloatKind

theorem hasUnit (k : FloatKind) : k.format.HasUnit := by
  cases k
  · exact BinaryFormat.hasUnit_binary32
  · exact BinaryFormat.hasUnit_binary64

/-- A float kind reads back what it writes. -/
theorem value_word (k : FloatKind) (x : BinaryValue) :
    k.value (k.word x) = k.format.decode (k.format.encode x) := by
  have hlt := k.encode_lt x
  have hbits : twoPow k.bits ≤ 2 ^ 64 := by cases k <;> decide
  have hword : (k.word x).toNat = k.format.encode x :=
    Nat.mod_eq_of_lt (Nat.lt_of_lt_of_le hlt hbits)
  rw [value, hword, Nat.mod_eq_of_lt hlt]

end FloatKind

/-- A word of the kind `source` as a value of the kind `dest`, unless a value without a kind is
involved. -/
def Kind.converted (source dest : Option Kind) (w : Word) : Word :=
  match source, dest with
  | some a, some b => if a = b then w else a.convert b w
  | _, _ => w

theorem Kind.converted_self (kind : Option Kind) (w : Word) : converted kind kind w = w := by
  cases kind <;> simp [converted]

/-- **A conversion keeps what both kinds can hold.** -/
theorem Kind.denotes_convert {k : IntKind} {target : Kind} {w : Word} {v : Int}
    (h : (int k).Denotes w v) (htarget : target.Represents v) :
    target.Denotes ((int k).convert target w) v := by
  obtain rfl : k.value w = v := h
  cases target with
  | int b =>
    show b.value (b.word _) = _
    rw [b.value_word, IntKind.wrap_of_fits (IntKind.represents_iff.1 htarget)]
  | float f =>
    obtain ⟨w', hw'⟩ := htarget
    show (f.value (f.word _)).Denotes _
    rw [f.value_word]
    exact BinaryFormat.denotes_encode f.hasUnit hw'

theorem Kind.denotes_converted {k : IntKind} {target : Kind} {w : Word} {v : Int}
    (h : (int k).Denotes w v) (htarget : target.Represents v) :
    target.Denotes (converted (some (int k)) (some target) w) v := by
  unfold converted
  dsimp only
  split
  · next hkind => exact hkind ▸ h
  · exact denotes_convert h htarget

/-- Between integers the value that was meant is known again, if it has not been wrapped to a
narrower kind on the way. -/
theorem IntKind.value_converted {k k' : IntKind} (hbits : k.bits ≤ k'.bits) {w : Word} {v : Int}
    (h : k'.value w = k'.wrap v) :
    k.value (Kind.converted (some (.int k')) (some (.int k)) w) = k.wrap v := by
  unfold Kind.converted
  dsimp only
  split
  · next hkind =>
    obtain rfl := Kind.int.inj hkind
    exact h
  · show k.value (k.word (k'.value w)) = _
    rw [k.value_word, h, wrap_wrap hbits]

end MiddleEnd
