import MiddleEnd.Number.Binary

/-!
# Integers in binary formats

An integer that is a number of a format is encoded exactly: rounding to the nearest magnitude finds
the one that stores it.

## Main definitions

* `BinaryValue.Denotes` — a value that is an integer.
* `BinaryFormat.HasUnit` — formats in which integers have full precision.

## Main results

* `BinaryFormat.nearest_of_scaled` — a normal number that is an integer has its own magnitude.
* `BinaryFormat.denotes_encode` — **integers that a format can hold are encoded exactly**.
-/

namespace MiddleEnd

namespace BinaryValue

/-- The value is the integer `v`. -/
def Denotes : BinaryValue → Int → Prop
  | finite negative m e, v => applySign negative (scaled 2 m e).1 = v * (scaled 2 m e).2
  | _, _ => False

instance (x : BinaryValue) (v : Int) : Decidable (x.Denotes v) :=
  match x with
  | nan | infinite _ => inferInstanceAs (Decidable False)
  | finite negative m e =>
    inferInstanceAs (Decidable (applySign negative (scaled 2 m e).1 = v * (scaled 2 m e).2))

theorem natAbs_applySign (negative : Bool) (n : Nat) : (applySign negative n).natAbs = n := by
  cases negative
  · exact Int.natAbs_natCast n
  · exact (Int.natAbs_neg _).trans (Int.natAbs_natCast n)

theorem denotes_zero (negative : Bool) (e : Int) : (finite negative 0 e).Denotes 0 := by
  have hnum : (scaled 2 0 e).1 = 0 := by
    unfold scaled
    split
    · exact Nat.zero_mul _
    · rfl
  show applySign negative (scaled 2 0 e).1 = 0 * _
  rw [hnum, Int.zero_mul]
  cases negative <;> rfl

/-- The magnitude of an integer value. -/
theorem Denotes.scaled {negative : Bool} {m : Nat} {e v : Int}
    (h : (finite negative m e).Denotes v) : v.natAbs * (scaled 2 m e).2 = (scaled 2 m e).1 := by
  have hsame := congrArg Int.natAbs (show applySign negative _ = v * _ from h)
  rw [natAbs_applySign, Int.natAbs_mul, Int.natAbs_natCast] at hsame
  exact hsame.symm

/-- The sign of an integer value other than zero. -/
theorem Denotes.negative {negative : Bool} {m : Nat} {e v : Int}
    (h : (finite negative m e).Denotes v) (hv : v ≠ 0) : negative = decide (v < 0) := by
  have hsigned : applySign negative (MiddleEnd.scaled 2 m e).1 = v * (MiddleEnd.scaled 2 m e).2 := h
  have hden : 0 < (MiddleEnd.scaled 2 m e).2 := by
    unfold MiddleEnd.scaled
    split
    · exact Nat.one_pos
    · exact twoPow_pos _
  have hden : (0 : Int) < (MiddleEnd.scaled 2 m e).2 := by exact_mod_cast hden
  by_cases hneg : v < 0
  · have hlt := Int.mul_neg_of_neg_of_pos hneg hden
    cases negative
    · rw [← hsigned] at hlt
      exact (Int.not_lt.2 (Int.natCast_nonneg _) hlt).elim
    · exact (decide_eq_true hneg).symm
  · have hlt := Int.mul_pos (show 0 < v by omega) hden
    cases negative
    · exact (decide_eq_false hneg).symm
    · rw [← hsigned] at hlt
      have hle : applySign true (MiddleEnd.scaled 2 m e).1 ≤ 0 :=
        Int.neg_nonpos_of_nonneg (Int.natCast_nonneg _)
      exact (Int.not_lt.2 hle hlt).elim

end BinaryValue

/-! ### Rounding -/

theorem roundHalfEven_one (n : Nat) : roundHalfEven n 1 = n := by
  unfold roundHalfEven
  rw [Nat.mod_one, if_pos Nat.one_pos, Nat.div_one]

theorem roundHalfEven_mul {d : Nat} (m : Nat) (hd : 0 < d) : roundHalfEven (m * d) d = m := by
  unfold roundHalfEven
  rw [Nat.mul_mod_left, if_pos hd, Nat.mul_div_cancel m hd]

theorem floorLog2_one {n : Nat} (hn : n ≠ 0) : floorLog2 n 1 = n.log2 := by
  have hle : 1 * twoPow n.log2 ≤ n := by
    rw [Nat.one_mul]
    exact Nat.log2_self_le hn
  unfold floorLog2
  rw [show Nat.log2 1 = 0 by decide]
  simp only [Int.natCast_zero, Int.sub_zero, Int.natCast_nonneg, if_true, Int.toNat_natCast, hle]

namespace BinaryFormat

variable {f : BinaryFormat} {v : Int} {negative : Bool} {m : Nat} {e : Int}

/-- Integers have full precision: the least normal number is at most 1. -/
structure HasUnit (f : BinaryFormat) : Prop where
  /-- There is at least one bit of precision. -/
  pos : 0 < f.precision
  /-- The least normal number is at most 1. -/
  unit : f.minExponent + f.precision ≤ 1

theorem hasUnit_binary32 : binary32.HasUnit := ⟨by decide, by decide⟩

theorem hasUnit_binary64 : binary64.HasUnit := ⟨by decide, by decide⟩

theorem twoPow_lt_iff {a b : Nat} : twoPow a < twoPow b ↔ a < b :=
  Nat.pow_lt_pow_iff_right (by decide)

/-- The exponent of an integer follows from its size. -/
theorem log2_of_scaled {p n : Nat} (hn : n ≠ 0) (hlo : twoPow p ≤ m) (hhi : m < twoPow (p + 1))
    (h : n * (scaled 2 m e).2 = (scaled 2 m e).1) : (n.log2 : Int) = e + p := by
  have hle : twoPow n.log2 ≤ n := Nat.log2_self_le hn
  have hlt : n < twoPow (n.log2 + 1) := Nat.lt_log2_self
  unfold scaled at h
  split at h
  · next he =>
    have h : n = m * twoPow e.toNat := by rwa [Nat.mul_one] at h
    have hpos := twoPow_pos e.toNat
    have hupper : n.log2 < p + 1 + e.toNat := by
      rw [← twoPow_lt_iff, twoPow_add]
      exact Nat.lt_of_le_of_lt hle (h ▸ Nat.mul_lt_mul_of_pos_right hhi hpos)
    have hlower : p + e.toNat < n.log2 + 1 := by
      rw [← twoPow_lt_iff, twoPow_add]
      exact Nat.lt_of_le_of_lt (Nat.mul_le_mul_right _ hlo) (h ▸ hlt)
    omega
  · next he =>
    have h : n * twoPow (-e).toNat = m := h
    have hpos := twoPow_pos (-e).toNat
    have hupper : n.log2 + (-e).toNat < p + 1 := by
      rw [← twoPow_lt_iff, twoPow_add]
      exact Nat.lt_of_le_of_lt (h ▸ Nat.mul_le_mul_right _ hle) hhi
    have hlower : p < n.log2 + 1 + (-e).toNat := by
      rw [← twoPow_lt_iff, twoPow_add]
      exact Nat.lt_of_le_of_lt hlo (h ▸ Nat.mul_lt_mul_of_pos_right hlt hpos)
    omega

/-- A normal number that is an integer has its own magnitude. -/
theorem nearest_of_scaled (hf : f.HasUnit) {n : Nat} (hn : n ≠ 0) (hlo : f.block ≤ m)
    (hhi : m < f.block * 2) (he : f.minExponent ≤ e)
    (h : n * (scaled 2 m e).2 = (scaled 2 m e).1) :
    f.nearest n 1 = min f.infinity ((e - f.minExponent).toNat * f.block + m) := by
  have hlog := log2_of_scaled hn hlo (by rwa [twoPow_succ]) h
  have hpos := hf.pos
  have hexponent : max (floorLog2 n 1 - ((f.precision : Int) - 1)) f.minExponent = e := by
    rw [floorLog2_one hn]
    omega
  unfold nearest
  rw [if_neg hn]
  simp only [hexponent, Nat.one_mul]
  unfold scaled at h
  split at h
  · next hnonneg =>
    have h : n = m * twoPow e.toNat := by rwa [Nat.mul_one] at h
    rw [if_pos hnonneg, h, roundHalfEven_mul m (twoPow_pos _)]
  · next hneg =>
    have h : n * twoPow (-e).toNat = m := h
    rw [if_neg hneg, h, roundHalfEven_one]

/-! ### Encoding -/

/-- The number that is stored by a magnitude below infinity. -/
def ofMagnitude (f : BinaryFormat) (negative : Bool) (magnitude : Nat) : BinaryValue :=
  if magnitude / f.block = 0 then .finite negative magnitude f.minExponent
  else .finite negative (magnitude % f.block + f.block)
    (f.minExponent + ((magnitude / f.block : Nat) - 1))

theorem infinity_lt_signBit (f : BinaryFormat) : f.infinity < f.signBit :=
  Nat.mul_lt_mul_of_pos_right (Nat.sub_lt (twoPow_pos _) Nat.one_pos) (twoPow_pos _)

/-- A finite number comes from a magnitude below infinity. -/
theorem ofMagnitude_of_decode {bits : Nat} (h : f.decode bits = .finite negative m e) :
    bits % f.signBit < f.infinity
      ∧ f.ofMagnitude negative (bits % f.signBit) = .finite negative m e := by
  unfold decode at h
  unfold ofMagnitude
  simp only at h
  split at h
  · cases h
  · split at h
    · cases h
    · refine ⟨by omega, ?_⟩
      split at h
      · next hfield =>
        cases h
        rw [if_pos hfield]
      · next hfield =>
        cases h
        rw [if_neg hfield]

theorem decode_ofMagnitude {magnitude : Nat} (h : magnitude < f.infinity) :
    f.decode (negative.toNat * f.signBit + magnitude) = f.ofMagnitude negative magnitude := by
  have hlt := Nat.lt_trans h f.infinity_lt_signBit
  have hmod : (negative.toNat * f.signBit + magnitude) % f.signBit = magnitude := by
    rw [Nat.mul_add_mod_self_right, Nat.mod_eq_of_lt hlt]
  have hdiv : (negative.toNat * f.signBit + magnitude) / f.signBit = negative.toNat := by
    rw [Nat.add_comm, Nat.add_mul_div_right _ _ (by omega), Nat.div_eq_of_lt hlt, Nat.zero_add]
  have hsign : decide (negative.toNat % 2 = 1) = negative := by cases negative <;> rfl
  unfold decode ofMagnitude
  simp only [hmod, hdiv, hsign]
  rw [if_neg (by omega), if_neg (by omega)]

/-- An integer other than zero is a normal number, and so its magnitude is found. -/
theorem nearest_of_ofMagnitude (hf : f.HasUnit) {n magnitude : Nat} (hn : n ≠ 0)
    (hlt : magnitude < f.infinity)
    (hmagnitude : f.ofMagnitude negative magnitude = .finite negative m e)
    (h : n * (scaled 2 m e).2 = (scaled 2 m e).1) : f.nearest n 1 = magnitude := by
  have hblock : 0 < f.block := twoPow_pos _
  have hdivision := Nat.div_add_mod magnitude f.block
  have hmod := Nat.mod_lt magnitude hblock
  unfold ofMagnitude at hmagnitude
  split at hmagnitude
  · next hfield =>
    -- Numbers of this size are fractions.
    obtain ⟨-, rfl, rfl⟩ : True ∧ magnitude = m ∧ f.minExponent = e := by simpa using hmagnitude
    have hsmall : magnitude < f.block := by rwa [← Nat.div_eq_zero_iff_lt hblock]
    have hunit := hf.unit
    have hpos := hf.pos
    unfold scaled at h
    split at h
    · have h : n = magnitude * twoPow f.minExponent.toNat := by rwa [Nat.mul_one] at h
      have hprecision : f.precision - 1 = 0 := by omega
      have hone : f.block = 1 := by rw [block, hprecision, twoPow_zero]
      rw [show magnitude = 0 by omega, Nat.zero_mul] at h
      exact (hn h).elim
    · have h : n * twoPow (-f.minExponent).toNat = magnitude := h
      have hle : f.block ≤ twoPow (-f.minExponent).toNat :=
        Nat.pow_le_pow_right Nat.two_pos (by omega)
      have hle' := Nat.le_mul_of_pos_left (twoPow (-f.minExponent).toNat) (Nat.pos_of_ne_zero hn)
      omega
  · next hfield =>
    obtain ⟨-, rfl, rfl⟩ : True ∧ magnitude % f.block + f.block = m
        ∧ f.minExponent + ((magnitude / f.block : Nat) - 1) = e := by simpa using hmagnitude
    generalize magnitude / f.block = field at hfield hdivision h
    have hle := Nat.le_mul_of_pos_right f.block (Nat.pos_of_ne_zero hfield)
    rw [nearest_of_scaled hf hn (Nat.le_add_left _ _) (by omega) (by omega) h]
    have hexponent : (f.minExponent + ((field : Int) - 1) - f.minExponent).toNat = field - 1 := by
      omega
    have hsum : (field - 1) * f.block + (magnitude % f.block + f.block) = magnitude := by
      rw [Nat.sub_mul, Nat.one_mul, Nat.mul_comm field]
      omega
    rw [hexponent, hsum]
    exact Nat.min_eq_right (Nat.le_of_lt hlt)

/-- **Integers that a format can hold are encoded exactly.** -/
theorem denotes_encode (hf : f.HasUnit) {bits : Nat} (h : (f.decode bits).Denotes v) :
    (f.decode (f.encode (.ofInt v))).Denotes v := by
  have hencode : f.encode (.ofInt v) = (decide (v < 0)).toNat * f.signBit
    + f.nearest v.natAbs 1 := by
    show _ * _ + f.nearest (v.natAbs * 1) 1 = _
    rw [Nat.mul_one]
  rw [hencode]
  cases hdecode : f.decode bits with
  | nan | infinite =>
    rw [hdecode] at h
    exact h.elim
  | finite negative m e =>
    rw [hdecode] at h
    obtain ⟨hlt, hmagnitude⟩ := ofMagnitude_of_decode hdecode
    by_cases hv : v = 0
    · subst hv
      rw [show f.nearest (Int.natAbs 0) 1 = 0 from if_pos rfl, decode_ofMagnitude (by omega)]
      unfold ofMagnitude
      rw [if_pos (Nat.zero_div _)]
      exact BinaryValue.denotes_zero _ _
    · obtain rfl := h.negative hv
      suffices hnearest : f.nearest v.natAbs 1 = bits % f.signBit by
        rw [hnearest, decode_ofMagnitude hlt, hmagnitude]
        exact h
      exact nearest_of_ofMagnitude hf (Int.natAbs_ne_zero.2 hv) hlt hmagnitude h.scaled

end BinaryFormat

end MiddleEnd
