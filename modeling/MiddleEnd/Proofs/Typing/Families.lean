import MiddleEnd.Proofs.Typing.Kinds

/-!
# Families of types

Operators, signs and stores stay within the families of numeric types: what takes in a float is a
float, and what takes in a signed integer is no unsigned one.  The one type between the signed and
the unsigned family is that of decimal literals: it is kept in a signed kind and goes with both.

## Main definitions

* `Ty.keptSigned`, `Ty.keptUnsigned` — the types that are kept in signed and in unsigned integer
  kinds.
* `Ty.Admits` — what a value of one type becomes without a cast.

## Main results

* `Ty.Admits.isFloat` — floats stay floats.
* `Ty.Admits.eq_anyNumber` — of signed integers only decimal literals become unsigned.
* `Ty.eq_anyNumber_of_promote_eq` — only decimal literals combine to their own type.
-/

namespace MiddleEnd.Ty

variable {σ τ : Ty}

/-! ### Floats -/

theorem isFloat_iff : σ.isFloat = true ↔ ∃ f, Kind.ofTy? σ = some (.float f) := by
  cases σ <;> simp [isFloat, families, Kind.ofTy?, Kind.i8, Kind.i16, Kind.i32, Kind.i64, Kind.u8,
    Kind.u16, Kind.u32, Kind.u64, Kind.f32, Kind.f64]

theorem isFloat_wider (hσ : σ.isFloat = true) (hτ : τ.isFloat = true) :
    (σ.wider τ).isFloat = true := by
  unfold wider
  split <;> assumption

/-- An operator on a float computes a float. -/
theorem isFloat_promote (hfloat : σ.isFloat = true ∨ τ.isFloat = true)
    (h : σ.promote τ ≠ .uncastable) (hσ : σ.isError = false) (hτ : τ.isError = false) :
    (σ.promote τ).isFloat = true := by
  unfold promote at h ⊢
  simp only [hσ, hτ, Bool.false_eq_true, if_false] at h ⊢
  split at h
  · exact (h rfl).elim
  · next hnumeric =>
    rw [if_neg hnumeric]
    by_cases hleft : σ.isFloat = true
    · rw [if_pos hleft]
      split
      · next hright => exact isFloat_wider hleft hright
      · exact hleft
    · rw [if_neg hleft, if_pos (hfloat.resolve_left hleft)]
      exact hfloat.resolve_left hleft

theorem isFloat_withSign {sign : Sign} (hσ : σ.isFloat = true) :
    (σ.withSign sign).isFloat = true := by
  cases σ <;> first | (cases hσ; done) | rfl

/-- A float is stored in floats only. -/
theorem isFloat_of_canAssign (hσ : σ.isFloat = true) (hτ : τ.isError = false)
    (h : canAssign τ σ = true) : τ.isFloat = true := by
  have hσerror : σ.isError = false := by cases σ <;> first | (cases hσ; done) | rfl
  unfold canAssign at h
  by_cases heq : τ = σ
  · exact heq ▸ hσ
  · simp only [hτ, hσerror, Bool.false_or, beq_iff_eq, heq, if_false, hσ, Bool.true_and] at h
    split at h
    · cases h
    · split at h
      · cases h
      · next hfloat => simpa using hfloat

theorem canAssign_self (τ : Ty) : canAssign τ τ = true := by
  unfold canAssign
  simp

/-! ### Signedness -/

/-- The type is kept in an unsigned integer kind. -/
def keptUnsigned (σ : Ty) : Bool := (Kind.ofTy? σ).any Kind.isUnsigned

/-- The type is kept in a signed integer kind. -/
def keptSigned (σ : Ty) : Bool := (Kind.ofTy? σ).any Kind.isSigned

theorem isSigned_of_keptSigned (h : σ.keptSigned = true) (hne : σ ≠ .anyNumber) :
    σ.isSigned = true := by
  cases σ <;> first | rfl | exact (hne rfl).elim | cases h

theorem keptUnsigned_of_isSigned (h : σ.isSigned = true) : σ.keptUnsigned = false := by
  cases σ <;> first | rfl | cases h

/-- Signed and unsigned types do not mix. -/
theorem promote_of_mixed (hσ : σ.isSigned = true) (hτ : τ.keptUnsigned = true) :
    σ.promote τ = .uncastable ∧ τ.promote σ = .uncastable := by
  cases σ <;> first
    | (cases hσ; done)
    | (cases τ <;> first | (cases hτ; done) | exact ⟨rfl, rfl⟩)

/-- A signed operand of an operator that computes an unsigned integer is a decimal literal. -/
theorem eq_anyNumber_of_promote (hkept : (σ.promote τ).keptUnsigned = true)
    (h : σ.promote τ ≠ .uncastable) :
    (σ.keptSigned = true → σ = .anyNumber) ∧ (τ.keptSigned = true → τ = .anyNumber) := by
  have hne {ρ : Ty} (hρ : ρ.isSigned = true) : σ.promote τ ≠ ρ := fun heq => by
    rw [heq, keptUnsigned_of_isSigned hρ] at hkept
    cases hkept
  -- A signed operand does not give the type, and the other one does not go with it.
  refine ⟨fun hσ => Classical.byContradiction fun hnot => ?_,
    fun hτ => Classical.byContradiction fun hnot => ?_⟩
  · have hsigned := isSigned_of_keptSigned hσ hnot
    have heq := (promote_eq_or h).resolve_left (hne hsigned)
    exact h (promote_of_mixed hsigned (heq ▸ hkept)).1
  · have hsigned := isSigned_of_keptSigned hτ hnot
    have heq := (promote_eq_or h).resolve_right (hne hsigned)
    exact h (promote_of_mixed hsigned (heq ▸ hkept)).2

/-- A signed integer that is stored as an unsigned one is a decimal literal. -/
theorem eq_anyNumber_of_canAssign (hτ : τ.keptUnsigned = true) (hσ : σ.keptSigned = true)
    (h : canAssign τ σ = true) : σ = .anyNumber := by
  refine Classical.byContradiction fun hnot => ?_
  have hsigned := isSigned_of_keptSigned hσ hnot
  have hτerror : τ.isError = false := by cases τ <;> first | rfl | cases hτ
  have hσerror : σ.isError = false := by cases σ <;> first | rfl | cases hσ
  have hne : τ ≠ σ := by
    rintro rfl
    rw [keptUnsigned_of_isSigned hsigned] at hτ
    cases hτ
  unfold canAssign at h
  simp [hτerror, hσerror, hne, (promote_of_mixed hsigned hτ).2] at h

/-- A sign makes an integer signed. -/
theorem keptUnsigned_withSign (sign : Sign) (σ : Ty) : (σ.withSign sign).keptUnsigned = false := by
  cases σ <;> rfl

/-- Only decimal literals combine to their own type. -/
theorem eq_anyNumber_of_promote_eq (h : σ.promote τ = .anyNumber) :
    σ = .anyNumber ∧ τ = .anyNumber := by
  have herror : Ty.anyNumber.isError = false := rfl
  have hfloat : Ty.anyNumber.isFloat = false := rfl
  unfold promote wider at h
  grind

/-! ### Without a cast -/

/-- A value of type `σ` becomes one of type `τ` without a cast: as an operand, under a sign, or in a
store. -/
inductive Admits (τ σ : Ty) : Prop
  /-- As the left operand of an operator. -/
  | left {ρ : Ty} (hρ : ρ.isError = false) (h : σ.promote ρ ≠ .uncastable) (hτ : τ = σ.promote ρ)
  /-- As the right operand of an operator. -/
  | right {ρ : Ty} (hρ : ρ.isError = false) (h : ρ.promote σ ≠ .uncastable) (hτ : τ = ρ.promote σ)
  /-- Under a sign. -/
  | sign {sign : Sign} (hτ : τ = σ.withSign sign)
  /-- In a store. -/
  | store (h : canAssign τ σ = true)

/-- **Floats stay floats.** -/
theorem Admits.isFloat (h : Admits τ σ) (hτ : τ.isError = false) (hσ : σ.isFloat = true) :
    τ.isFloat = true := by
  have hσerror : σ.isError = false := by cases σ <;> first | (cases hσ; done) | rfl
  cases h with
  | left hρ h heq => exact heq ▸ isFloat_promote (.inl hσ) h hσerror hρ
  | right hρ h heq => exact heq ▸ isFloat_promote (.inr hσ) h hρ hσerror
  | sign heq => exact heq ▸ isFloat_withSign hσ
  | store h => exact isFloat_of_canAssign hσ hτ h

/-- **Of signed integers only decimal literals become unsigned.** -/
theorem Admits.eq_anyNumber (h : Admits τ σ) (hτ : τ.keptUnsigned = true)
    (hσ : σ.keptSigned = true) : σ = .anyNumber := by
  cases h with
  | left _ h heq => exact (eq_anyNumber_of_promote (heq ▸ hτ) h).1 hσ
  | right _ h heq => exact (eq_anyNumber_of_promote (heq ▸ hτ) h).2 hσ
  | sign heq =>
    rw [heq, keptUnsigned_withSign] at hτ
    cases hτ
  | store h => exact eq_anyNumber_of_canAssign hτ hσ h

end MiddleEnd.Ty
