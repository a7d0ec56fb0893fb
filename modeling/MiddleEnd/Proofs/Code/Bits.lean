import MiddleEnd.Proofs.Code.Values

/-!
# Integers as bits

An integer kind reads a word in two steps: it takes the low bits, and it takes these for an integer,
in two's complement if the kind is signed.  A canonical word is the sign extension or the zero
extension of its low bits.

## Main definitions

* `IntKind.low` — the low bits of a word.
* `IntKind.number` — the integer that bits stand for.
* `IntKind.extend` — the word that extends bits to full width.

## Main results

* `IntKind.number_low` — a kind reads the integer that the low bits stand for.
* `IntKind.ofInt_number`, `IntKind.isCanonical_iff` — canonical words are extended bits.
-/

namespace MiddleEnd

namespace IntKind

variable {k : IntKind}

/-- The low bits of a word. -/
def low (k : IntKind) (w : Word) : BitVec k.bits := w.toBitVec.setWidth k.bits

/-- The integer that bits stand for, in two's complement if the kind is signed. -/
def number (k : IntKind) (x : BitVec k.bits) : Int := if k.isSigned then x.toInt else x.toNat

/-- The word with the low bits `x`, where copies of the sign or zeros follow. -/
def extend (k : IntKind) (x : BitVec k.bits) : Word :=
  ⟨if k.isSigned then x.signExtend 64 else x.setWidth 64⟩

/-- A kind reads the integer that the low bits stand for. -/
theorem number_low (k : IntKind) (w : Word) : k.number (k.low w) = k.value w := by
  unfold number low value wrap
  split
  · exact BitVec.toInt_setWidth w.toBitVec
  · rw [BitVec.toNat_setWidth]
    exact Int.natCast_emod w.toNat k.modulus

/-- Bits stand for different integers unless they are the same. -/
theorem number_inj {x y : BitVec k.bits} : k.number x = k.number y ↔ x = y := by
  refine ⟨fun h => ?_, congrArg k.number⟩
  unfold number at h
  split at h
  · exact BitVec.eq_of_toInt_eq h
  · exact BitVec.eq_of_toNat_eq (Int.ofNat_inj.1 h)

theorem number_eq_zero {x : BitVec k.bits} : k.number x = 0 ↔ x = 0#k.bits := by
  have hzero : k.number (0#k.bits) = 0 := by simp [number]
  rw [← hzero, number_inj]

/-- The word of an integer has the bits of its two's complement. -/
theorem toBitVec_ofInt (v : Int) : (Word.ofInt v).toBitVec = BitVec.ofInt 64 v := by
  refine BitVec.eq_of_toNat_eq ?_
  rw [BitVec.toNat_ofInt]
  show (v % (UInt64.size : Int)).toNat % 2 ^ 64 = _
  have hlt : v % (UInt64.size : Int) < 2 ^ 64 := Int.emod_lt_of_pos v (by decide)
  exact Nat.mod_eq_of_lt (by omega)

/-- The word of what bits stand for extends them. -/
theorem ofInt_number (k : IntKind) (x : BitVec k.bits) : Word.ofInt (k.number x) = k.extend x := by
  refine UInt64.toBitVec_inj.1 ?_
  rw [toBitVec_ofInt]
  unfold number extend
  split
  · rfl
  · rw [BitVec.ofInt_natCast, BitVec.ofNat_toNat]

/-- **A word is canonical if the upper bits extend the low ones.** -/
theorem isCanonical_iff {w : Word} : (Kind.int k).IsCanonical w ↔ w = k.extend (k.low w) := by
  rw [Kind.IsCanonical, ← number_low, ofInt_number, eq_comm]

end IntKind

end MiddleEnd
