import MiddleEnd.Machine.Run
import MiddleEnd.Proofs.Code.Bits
import MiddleEnd.Proofs.Lowering.Steps

/-!
# Conversions between integer kinds

A conversion keeps a value up to the number of values of the target, and writes it as a canonical
word.  So a detour does no harm through a kind that loses nothing which the last one keeps, and a
conversion to the same kind may be left out where words are canonical.

## Main results

* `IntKind.eq_convert_iff` — what a conversion writes.
* `IntKind.convert_convert` — a detour that does no harm.
* `IntKind.convert_self_iff` — the words that a conversion to the same kind keeps.
* `IntKind.convert_modular` — **conversions are modular truncations**.
-/

namespace MiddleEnd

namespace IntKind

variable {a b c : IntKind} {w w' : Word}

/-! ### One conversion -/

/-- The value of what a conversion has written. -/
theorem value_convert (a b : IntKind) (w : Word) :
    b.value ((Kind.int a).convert (.int b) w) = b.wrap (a.value w) :=
  b.value_word (a.value w)

/-- A value that fits is the wrapped one if it is congruent. -/
theorem eq_wrap_iff {u v : Int} (hu : b.fits u = true) :
    u = b.wrap v ↔ (b.modulus : Int) ∣ u - v := by
  constructor
  · rintro rfl
    exact b.dvd_wrap_sub v
  · intro h
    rw [← wrap_congr h, wrap_of_fits hu]

/-- A conversion writes the one canonical word with a congruent value. -/
theorem eq_convert_iff :
    w' = (Kind.int a).convert (.int b) w ↔
      (Kind.int b).IsCanonical w' ∧ (b.modulus : Int) ∣ b.value w' - a.value w := by
  constructor
  · rintro rfl
    refine ⟨Kind.isCanonical_convert _ _ w, ?_⟩
    rw [value_convert]
    exact b.dvd_wrap_sub _
  · rintro ⟨hcanonical, hdvd⟩
    have hvalue : b.value w' = b.wrap (a.value w) := (eq_wrap_iff (b.fits_wrap _)).2 hdvd
    calc w' = Word.ofInt (b.value w') := hcanonical.symm
      _ = Word.ofInt (b.wrap (a.value w)) := by rw [hvalue]

/-- A conversion to the same kind makes the upper bits follow from the low ones. -/
theorem convert_self (a : IntKind) (w : Word) :
    (Kind.int a).convert (.int a) w = a.extend (a.low w) := by
  have hword : (Kind.int a).convert (.int a) w = Word.ofInt (a.wrap (a.value w)) := rfl
  rw [hword, wrap_of_fits (v := a.value w) (a.fits_wrap _), ← a.number_low, a.ofInt_number]

/-- A conversion to the same kind keeps canonical words, and no others. -/
theorem convert_self_iff : (Kind.int a).convert (.int a) w = w ↔ (Kind.int a).IsCanonical w := by
  rw [convert_self, isCanonical_iff, eq_comm]

/-! ### Two conversions -/

/-- Nothing is lost that the last kind keeps, if the kind between is as wide or holds the value. -/
theorem convert_convert
    (h : c.bits ≤ b.bits ∨ ∀ v, (Kind.int a).Represents v → (Kind.int b).Represents v) :
    (Kind.int b).convert (.int c) ((Kind.int a).convert (.int b) w) =
      (Kind.int a).convert (.int c) w := by
  have hwrap : c.wrap (b.wrap (a.value w)) = c.wrap (a.value w) := by
    rcases h with hbits | hholds
    · exact wrap_wrap hbits _
    · rw [b.wrap_of_fits (represents_iff.1 (hholds _ ⟨w, rfl⟩))]
  calc (Kind.int b).convert (.int c) ((Kind.int a).convert (.int b) w)
    _ = c.word (b.value ((Kind.int a).convert (.int b) w)) := rfl
    _ = c.word (b.wrap (a.value w)) := by rw [value_convert]
    _ = Word.ofInt (c.wrap (b.wrap (a.value w))) := rfl
    _ = Word.ofInt (c.wrap (a.value w)) := by rw [hwrap]

/-! ### Conversions left out -/

/-- Between types that are kept in one kind no instruction is generated. -/
theorem convert_left_out {C : LowerContext} {r : Register} {source dest : Ty} {span : Span}
    {s : Lowering} {k : Kind} (hsource : Kind.ofTy? source = some k)
    (hdest : Kind.ofTy? dest = some k) :
    Lower.convert C r source dest span s = .ok (r, s) := by
  rw [Lower.convert, hsource, hdest]
  simp only [if_true]
  rfl

/-- The instruction left out would have written what it reads. -/
theorem effect_convert_self {σ : Type} (m : Machine σ) (call : Option (Procedure → Run σ Word))
    (site : Machine.Site) {frame : RegisterFile} {r out : Register}
    (hread : frame.read (.register r) = .ok w) (hw : (Kind.int a).IsCanonical w) :
    m.effect call site frame ⟨.convert (.int a) (.int a), out, .register r, .none⟩ =
      return .write w := by
  simp only [Machine.effect, hread, Machine.Site.locate, pure_bind, convert_self_iff.2 hw]

/-! ### Main result -/

/-- **Conversions between integer kinds are modular truncations.**  A conversion writes the one
canonical word whose value is congruent modulo the number of values of the target.  Two conversions
are one if the kind between is as wide as the last or holds all that is converted; there and back is
the canonical form; and a conversion to the same kind keeps exactly the canonical words, for which
the instruction may be left out, as it is. -/
theorem convert_modular (a b c : IntKind) (w : Word) :
    (∀ w', w' = (Kind.int a).convert (.int b) w ↔
      w' = b.extend (b.low w') ∧
        (b.modulus : Int) ∣ b.number (b.low w') - a.number (a.low w)) ∧
    (c.bits ≤ b.bits ∨ (∀ v, (Kind.int a).Represents v → (Kind.int b).Represents v) →
      (Kind.int b).convert (.int c) ((Kind.int a).convert (.int b) w) =
        (Kind.int a).convert (.int c) w) ∧
    ((∀ v, (Kind.int a).Represents v → (Kind.int b).Represents v) →
      (Kind.int b).convert (.int a) ((Kind.int a).convert (.int b) w) = a.extend (a.low w)) ∧
    ((Kind.int a).convert (.int a) w = w ↔ w = a.extend (a.low w)) ∧
    (∀ (C : LowerContext) (r : Register) (source dest : Ty) (span : Span) (s : Lowering),
      Kind.ofTy? source = some (.int a) → Kind.ofTy? dest = some (.int a) →
      Lower.convert C r source dest span s = .ok (r, s)) ∧
    (w = a.extend (a.low w) →
      ∀ (σ : Type) (m : Machine σ) (call : Option (Procedure → Run σ Word)) (site : Machine.Site)
        (frame : RegisterFile) (r out : Register), frame.read (.register r) = .ok w →
        m.effect call site frame ⟨.convert (.int a) (.int a), out, .register r, .none⟩ =
          return .write w) := by
  refine ⟨fun w' => ?_, convert_convert, fun hholds => ?_, ?_, ?_, ?_⟩
  · rw [← isCanonical_iff, b.number_low, a.number_low]
    exact eq_convert_iff
  · rw [convert_convert (.inr hholds), convert_self]
  · rw [← isCanonical_iff]
    exact convert_self_iff
  · exact fun C r source dest span s => convert_left_out
  · intro hw σ m call site frame r out hread
    exact effect_convert_self m call site hread (isCanonical_iff.2 hw)

/-- A signed byte with other bits above it keeps its low bits, and all of its value in two bytes. -/
theorem convert_modular_byte :
    Kind.i16.convert .u8 (Kind.i8.convert .i16 0xAB80) = Kind.i8.convert .u8 0xAB80 ∧
      Kind.i16.convert .i8 (Kind.i8.convert .i16 0xAB80) = 0xFFFFFFFFFFFFFF80 := by
  have h := convert_modular ⟨true, .w8⟩ ⟨true, .w16⟩ ⟨false, .w8⟩ 0xAB80
  have hholds (v : Int) (hv : Kind.i8.Represents v) : Kind.i16.Represents v := by
    refine represents_iff.2 ?_
    have hfits := represents_iff.1 hv
    simp [fits, lo, hi, modulus, bits, Width.bits, twoPow] at hfits ⊢
    omega
  refine ⟨h.2.1 (.inl (by decide)), (h.2.2.1 hholds).trans ?_⟩
  decide +kernel

end IntKind

end MiddleEnd
