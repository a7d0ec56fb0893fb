import MiddleEnd.Code.Kind
import MiddleEnd.Proofs.Typing.Judgement

/-!
# Types with a kind

Numbers and characters are kept in words of some kind, all else in none.  What the language lets
operators, stores and casts do never takes a value from one side of this line to the other.

## Main definitions

* `Ty.hasKind` — whether values of a type are kept in words of some kind.

## Main results

* `Ty.hasKind_of_canAssign`, `Ty.hasKind_of_canCast`, `Ty.hasKind_of_promote`, `Ty.hasKind_promote`,
  `Ty.hasKind_of_withSign`, `Ty.hasKind_withSign` — operators, stores and casts between types with a
  kind.
-/

namespace MiddleEnd.Ty

/-- Whether values of a type are kept in words of some kind. -/
def hasKind (τ : Ty) : Bool := (Kind.ofTy? τ).isSome

/-- Two types are kept in the same kind, or both in none, if they are not kept in two kinds. -/
theorem kind_eq_of_hasKind {τ τ' : Ty} (h : τ.hasKind = τ'.hasKind)
    (hsame : ∀ a b, Kind.ofTy? τ = some a → Kind.ofTy? τ' = some b → a = b) :
    Kind.ofTy? τ = Kind.ofTy? τ' := by
  unfold hasKind at h
  cases ha : Kind.ofTy? τ with
  | none =>
    rw [ha, Option.isSome_none, eq_comm, Option.isSome_eq_false_iff, Option.isNone_iff_eq_none] at h
    exact h.symm
  | some a =>
    rw [ha, Option.isSome_some, eq_comm, Option.isSome_iff_exists] at h
    obtain ⟨b, hb⟩ := h
    rw [hb, hsame a b ha hb]

theorem hasKind_eq (τ : Ty) : τ.hasKind = (τ.isNumeric || τ == .char) := by
  cases τ <;> rfl

theorem hasKind_of_isNumeric {τ : Ty} (h : τ.isNumeric = true) : τ.hasKind = true := by
  rw [hasKind_eq, h, Bool.true_or]

variable {σ τ : Ty}

/-- Values are stored in slots of the same side. -/
theorem hasKind_of_canAssign (hτ : τ.isError = false) (hσ : σ.isError = false)
    (h : canAssign τ σ = true) : σ.hasKind = τ.hasKind := by
  unfold canAssign at h
  by_cases heq : τ = σ
  · rw [heq]
  · simp only [hτ, hσ, Bool.false_or, beq_iff_eq, heq, if_false] at h
    split at h
    · cases h
    · next hnumeric =>
      simp only [Bool.or_eq_true, Bool.not_eq_true', not_or, Bool.not_eq_false] at hnumeric
      rw [hasKind_of_isNumeric hnumeric.1, hasKind_of_isNumeric hnumeric.2]

/-- Casts stay on one side. -/
theorem hasKind_of_canCast (hσ : σ.isError = false) (hτ : τ.isError = false)
    (h : canCast σ τ = true) : σ.hasKind = τ.hasKind := by
  unfold canCast at h
  by_cases heq : σ = τ
  · rw [heq]
  · simp only [hσ, hτ, Bool.false_or, beq_iff_eq, heq, if_false] at h
    rw [hasKind_eq, hasKind_eq]
    unfold isInteger at h
    by_cases hchar : σ = .char
    · simp only [hchar, if_true, Bool.and_eq_true] at h
      simp [hchar, h.1]
    · by_cases hchar' : τ = .char
      · simp only [hchar', if_true, if_neg (hchar' ▸ heq), Bool.and_eq_true] at h
        simp [hchar', h.1]
      · simp only [if_neg hchar, if_neg hchar', Bool.and_eq_true] at h
        simp [h.1, h.2]

/-- Operands of an operator are numbers. -/
theorem hasKind_of_promote (hσ : σ.isError = false) (hτ : τ.isError = false)
    (h : σ.promote τ ≠ .uncastable) : σ.hasKind = true ∧ τ.hasKind = true := by
  unfold promote at h
  simp only [hσ, hτ, Bool.false_eq_true, if_false] at h
  split at h
  · exact (h rfl).elim
  · next hnumeric =>
    simp only [Bool.or_eq_true, Bool.not_eq_true', not_or, Bool.not_eq_false] at hnumeric
    exact ⟨hasKind_of_isNumeric hnumeric.1, hasKind_of_isNumeric hnumeric.2⟩

/-- The result of an operator has the type of one of its operands. -/
theorem promote_eq_or (h : σ.promote τ ≠ .uncastable) : σ.promote τ = σ ∨ σ.promote τ = τ := by
  have hwider : σ.wider τ = σ ∨ σ.wider τ = τ := by
    unfold wider
    split
    · exact .inr rfl
    · exact .inl rfl
  unfold promote at h ⊢
  grind

theorem hasKind_promote (hσ : σ.isError = false) (hτ : τ.isError = false)
    (h : σ.promote τ ≠ .uncastable) : (σ.promote τ).hasKind = true := by
  obtain ⟨hleft, hright⟩ := hasKind_of_promote hσ hτ h
  rcases promote_eq_or h with heq | heq
  · rw [heq, hleft]
  · rw [heq, hright]

theorem hasKind_of_withSign {sign : Sign} (hσ : σ.isError = false)
    (h : σ.withSign sign ≠ .uncastable) : σ.hasKind = true := by
  unfold withSign at h
  simp only [hσ, Bool.false_eq_true, if_false] at h
  split at h
  · next hnumeric => exact hasKind_of_isNumeric hnumeric
  · exact (h rfl).elim

/-- A signed number is a number. -/
theorem hasKind_withSign {sign : Sign} (hσ : σ.isError = false)
    (h : σ.withSign sign ≠ .uncastable) : (σ.withSign sign).hasKind = true := by
  have hkind := hasKind_of_withSign hσ h
  cases σ <;> first | rfl | exact (h rfl).elim | cases hkind

end MiddleEnd.Ty
