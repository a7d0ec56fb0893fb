import MiddleEnd.Proofs.Lowering.Origins
import MiddleEnd.Proofs.Machine.Operands

/-!
# Decimal numbers at run time

The type of decimal literals says nothing about the sign, and typing lets a value of it become
signed or unsigned alike.  It is kept in a signed kind, so that whether such a value is negative is
known at run time only.  Here activations are followed with what is known of these values from
position to position, as long as nothing has been done that may make one negative.

## Main definitions

* `MayNegate` — the lines that may make a decimal number negative.
* `Activity` — an activation of a procedure whose code is that of a tree.
* `Activity.Negated` — a decimal number has been made negative.
* `Activity.Flows` — what holds before some code and what holds after it, up to such an event.
* `Held` — the decimal numbers in the registers of declarations are not negative.

## Main results

* `Activity.Flows.append`, `Activity.Flows.frame` — code in sequence, and what it leaves alone.
* `Activity.Flows.computes`, `Activity.Flows.copies` — single lines.
* `Activity.Flows.convert`, `Activity.Flows.store` — conversions and stores.
-/

namespace MiddleEnd

/-! ### Words -/

/-- As a decimal number, which is kept in a signed kind of 64 bits, the word is negative. -/
def Word.Negative (w : Word) : Prop := IntKind.value ⟨true, .w64⟩ w < 0

instance (w : Word) : Decidable (Word.Negative w) :=
  inferInstanceAs (Decidable (IntKind.value ⟨true, .w64⟩ w < 0))

/-- Of the operators only subtraction makes negative numbers of others. -/
theorem ArithOp.not_negative {op : BinaryOp} {a b w : Word} (hop : op ≠ .sub)
    (h : (ArithOp.binary op).apply .i64 a b = .ok w) (ha : ¬Word.Negative a)
    (hb : ¬Word.Negative b) :
    ¬Word.Negative w := by
  unfold Word.Negative at *
  simp only [Int.not_lt] at *
  simp only [apply, Kind.i64, onInts] at h
  split at h
  · cases h
  · -- The result is in range, so the word has the very value of the result.
    next v hv =>
    split at h
    · next hfits =>
      cases h
      rw [IntKind.value_ofInt hfits]
      cases op with
      | add =>
        obtain rfl := Option.some.inj hv
        exact Int.add_nonneg ha hb
      | sub => exact (hop rfl).elim
      | mul =>
        obtain rfl := Option.some.inj hv
        exact Int.mul_nonneg ha hb
      | div =>
        simp only [eval?] at hv
        split at hv
        · cases hv
        · obtain rfl := Option.some.inj hv
          exact Int.tdiv_nonneg ha hb
    · cases h

/-! ### Literals -/

/-- An integer literal that no signed kind can hold. -/
def Shape.isLarge : Shape → Bool
  | .literal (.number spelling) =>
    match Spelled.ofText spelling with
    | .ok (.decimal n) | .ok (.octal n) => decide (9223372036854775807 < n)
    | _ => false
  | _ => false

/-- A tree whose integer literals can be held by a signed kind. -/
def Tree.LiteralsFit (t : Tree) (root : NodeId) : Prop :=
  ∀ x ∈ t.preorder root, (t.shape x).isLarge = false

instance (t : Tree) (root : NodeId) : Decidable (t.LiteralsFit root) :=
  inferInstanceAs (Decidable (∀ x ∈ t.preorder root, (t.shape x).isLarge = false))

variable {c : LowerContext} {ℓ : Linkage} {id x : NodeId}

/-- A decimal literal is not negative. -/
theorem LowerContext.Sound.literal_not_negative (hc : c.Sound)
    (hlarge : c.tree.LiteralsFit c.root) (hid : id ∈ c.tree.preorder c.root) {lit : Literal}
    {value : LiteralValue} (hshape : c.tree.shape id = .literal lit)
    (hty : c.typeOf id = .anyNumber) (hvalue : c.typing.literal? id = some value) :
    ¬Word.Negative value.word := by
  have hsmall := hlarge id hid
  have htype := hc.hasType hid
  rw [hshape] at hsmall htype
  rw [hty] at htype
  cases htype with
  | @decimal spelling n hspelled h =>
    obtain rfl := Option.some.inj (hvalue.symm.trans h)
    simp only [Shape.isLarge, hspelled, decide_eq_false_iff_not, Nat.not_lt] at hsmall
    have hfits : IntKind.fits ⟨true, .w64⟩ n = true := by
      simp [IntKind.fits, IntKind.lo, IntKind.hi, IntKind.modulus, IntKind.bits, Width.bits, twoPow]
      omega
    have hword : IntKind.value ⟨true, .w64⟩ (UInt64.ofNat n) = n := by
      rw [IntKind.value_ofNat, IntKind.wrap_of_fits hfits]
    intro hneg
    rw [Word.Negative, show LiteralValue.word (.integer n) = UInt64.ofNat n from rfl, hword] at hneg
    omega

/-! ### What may make a number negative -/

/-- The line at position `n` subtracts decimal numbers, or it is part of a store of a value of
another type in a variable that is one. -/
inductive MayNegate (c : LowerContext) (ℓ : Linkage) (p : Procedure) (n : Nat) : Prop
  /-- A decimal number is subtracted from another one. -/
  | subtracts {id left op right : NodeId} {read mid : Nat} {r a b : Register}
      (hid : id ∈ c.tree.preorder c.root) (hshape : c.tree.shape id = .binary left op right)
      (h : OperatesAt c ℓ id left op right p read mid n r a b)
      (hop : c.tree.shape op = .binaryOp .sub) (hty : c.typeOf id = .anyNumber)
  /-- A value of another type is stored in a variable for decimal numbers. -/
  | stores {id target value : NodeId} (hid : id ∈ c.tree.preorder c.root)
      (h : StoresAt c ℓ p id target value n) (htarget : c.typeOf target = .anyNumber)
      (hvalue : c.typeOf value ≠ .anyNumber)

/-- An activation of a procedure whose code is that of a tree. -/
structure Activity (σ : Type) where
  /-- The machine that runs it. -/
  machine : Machine σ
  /-- How it makes calls, if it may. -/
  call : Option (Procedure → Run σ Word)
  /-- The tree that the code comes from. -/
  context : LowerContext
  /-- What the code refers to by index. -/
  linkage : Linkage
  /-- The procedure that is active. -/
  procedure : Procedure
  /-- The state in which it was entered. -/
  state : MachineState σ

open Machine

variable {σ : Type}

/-- The word in the register is not negative as a decimal number. -/
def Machine.Point.NonNegative (κ : Point σ) (r : Register) : Prop :=
  ∀ w, κ.frame[r]? = some w → ¬Word.Negative w

namespace Activity

variable (e : Activity σ)

/-- Execution of the procedure gets from one point to another one. -/
abbrev Reaches : Point σ → Point σ → Prop := e.machine.Reaches e.call e.procedure

/-- Execution of the procedure gets from one point to the next one. -/
abbrev Step : Point σ → Point σ → Prop := e.machine.Step e.call e.procedure

/-- The points that the activation comes to. -/
abbrev Visits (κ : Point σ) : Prop := e.Reaches (.start e.procedure e.state) κ

/-- Before it came to `κ`, the activation has written a negative number where it may. -/
inductive Negated (κ : Point σ) : Prop
  /-- A step at such a place has written a word whose sign bit is set. -/
  | step {κ₁ κ₂ : Point σ} {i : Instruction} {w : Word} (hvisits : e.Visits κ₁)
      (hstep : e.Step κ₁ κ₂)
      (hafter : e.Reaches κ₂ κ) (hmay : MayNegate e.context e.linkage e.procedure κ₁.pc)
      (hi : e.procedure.code[κ₁.pc]? = some i) (hw : κ₂.frame[i.out]? = some w)
      (hneg : Word.Negative w)

/-- Whenever the activation comes to the position `n`, `Q` holds or a number has been made
negative. -/
def HoldsAt (n : Nat) (Q : Point σ → Prop) : Prop :=
  ∀ κ, e.Visits κ → κ.pc = n → e.Negated κ ∨ Q κ

/-- Where the line at position `n` converts a signed integer to an unsigned one, it is not
negative. -/
def UnsignsAt (n : Nat) : Prop :=
  ∀ (a b : IntKind) (out r : Register) (right : Operand),
    e.procedure.code[n]? = some ⟨.convert (.int a) (.int b), out, .register r, right⟩ →
    a.isSigned = true → b.isSigned = false →
    e.HoldsAt n fun κ => ∀ w, κ.frame[r]? = some w → 0 ≤ a.value w

/-- If `P` holds before the code at position `n`, then `Q` holds after it, and no signed integer
that becomes unsigned in it is negative. -/
structure Flows (n : Nat) (P : Point σ → Prop) (code : List CodeLine) (Q : Point σ → Prop) :
    Prop where
  /-- The code leads from `P` to `Q`. -/
  holds : e.HoldsAt n P → e.HoldsAt (n + code.length) Q
  /-- What it reads as unsigned was not negative. -/
  unsigns : e.HoldsAt n P → ∀ k < code.length, e.UnsignsAt (n + k)

variable {e} {κ κ' : Point σ} {n : Nat} {P Q R F : Point σ → Prop} {code code' : List CodeLine}
  {i : Instruction} {span : Span} {l l₁ l' : Layout} {r : Register} {v : Option Register}

theorem Negated.mono (h : e.Negated κ) (hreach : e.Reaches κ κ') : e.Negated κ' := by
  obtain ⟨hvisits, hstep, hafter, hmay, hi, hw, hneg⟩ := h
  exact ⟨hvisits, hstep, Machine.Reaches.trans hafter hreach, hmay, hi, hw, hneg⟩

namespace HoldsAt

theorem mono (h : e.HoldsAt n P) (hPQ : ∀ κ, P κ → Q κ) : e.HoldsAt n Q :=
  fun κ hvisits hpc => (h κ hvisits hpc).imp_right (hPQ κ)

/-- What is passed on from one position to a later one. -/
theorem across {n' : Nat} (h : e.HoldsAt n P) (hle : n ≤ n')
    (hpass : ∀ κ κ', e.Visits κ → κ.pc = n → e.Reaches κ κ' → κ'.pc = n' → P κ →
      e.Negated κ' ∨ Q κ') : e.HoldsAt n' Q := by
  intro κ' hvisits hpc
  obtain ⟨κ, hto, hpc₁, hfrom⟩ := Machine.Reaches.through hvisits n (Nat.zero_le n) (hpc ▸ hle)
  rcases h κ hto hpc₁ with hnegated | hP
  · exact .inl (hnegated.mono hfrom)
  · exact hpass κ κ' hto hpc₁ hfrom hpc hP

end HoldsAt

/-! ### Code in sequence -/

namespace Flows

theorem nil (h : ∀ κ, P κ → Q κ) : e.Flows n P [] Q :=
  ⟨fun hP => hP.mono h, fun _ k hk => (Nat.not_lt_zero k hk).elim⟩

theorem append (h : e.Flows n P code Q) (h' : e.Flows (n + code.length) Q code' R) :
    e.Flows n P (code ++ code') R where
  holds hP := by
    rw [List.length_append, ← Nat.add_assoc]
    exact h'.holds (h.holds hP)
  unsigns hP k hk := by
    rcases Nat.lt_or_ge k code.length with hlt | hge
    · exact h.unsigns hP k hlt
    · obtain ⟨j, rfl⟩ := Nat.exists_eq_add_of_le hge
      rw [List.length_append] at hk
      rw [← Nat.add_assoc]
      exact h'.unsigns (h.holds hP) j (by omega)

theorem mono {P' Q' : Point σ → Prop} (h : e.Flows n P code Q) (hP : ∀ κ, P' κ → P κ)
    (hQ : ∀ κ, Q κ → Q' κ) : e.Flows n P' code Q' :=
  ⟨fun h' => (h.holds (h'.mono hP)).mono hQ, fun h' => h.unsigns (h'.mono hP)⟩

theorem post {Q' : Point σ → Prop} (h : e.Flows n P code Q) (hQ : ∀ κ, Q κ → Q' κ) :
    e.Flows n P code Q' :=
  h.mono (fun _ hP => hP) hQ

/-- What the code leaves alone holds after it too. -/
theorem frame (h : e.Flows n P code Q) (hhas : e.procedure.Has n code)
    (hF : ∀ κ κ', e.machine.Traverses e.call e.procedure code κ κ' → F κ → F κ') :
    e.Flows n (fun κ => P κ ∧ F κ) code (fun κ => Q κ ∧ F κ) where
  holds hPF := by
    have hQ := h.holds (hPF.mono fun _ h => h.1)
    intro κ' hvisits hpc
    refine (hQ κ' hvisits hpc).elim .inl fun hQ' => ?_
    have hF' := hPF.across (Q := F) (Nat.le_add_right n _)
      fun κ κ' _ hpc hreach hpc' hP => .inr (hF κ κ' ⟨hpc ▸ hhas, hreach, hpc ▸ hpc'⟩ hP.2)
    exact (hF' κ' hvisits hpc).imp_right fun hF' => ⟨hQ', hF'⟩
  unsigns hPF := h.unsigns (hPF.mono fun _ h => h.1)

theorem line (hhas : e.procedure.Has n [(i, span)])
    (hconvert : ∀ (a b : IntKind) (r : Register), i.op = .convert (.int a) (.int b) →
      i.left = .register r → a.isSigned = true → b.isSigned = false →
      ∀ κ, P κ → ∀ w, κ.frame[r]? = some w → 0 ≤ a.value w)
    (hstep : ∀ κ κ', e.Visits κ → κ.pc = n → e.Step κ κ' → P κ → e.Negated κ' ∨ Q κ') :
    e.Flows n P [(i, span)] Q where
  holds hP := hP.across (Nat.le_succ n) fun κ κ' hvisits hpc hreach hpc' =>
    hstep κ κ' hvisits hpc (hreach.step_of_pc (hpc ▸ hpc'))
  unsigns hP k hk := by
    obtain rfl : k = 0 := by simpa using hk
    intro a b out r right hline ha hb
    obtain rfl := Option.some.inj (hhas.head.1.symm.trans hline)
    exact hP.mono (hconvert a b r rfl rfl ha hb)

end Flows

end Activity

/-! ### Registers -/

/-- A conversion is one line between two different kinds, or there is none. -/
theorem Layout.convert_eq (l : Layout) (r : Register) (source dest : Ty) (span : Span) :
    l.convert r source dest span = ⟨[], r, l⟩
      ∨ ∃ a b, Kind.ofTy? source = some a ∧ Kind.ofTy? dest = some b ∧ a ≠ b
        ∧ l.convert r source dest span
          = ⟨[(⟨.convert a b, l.next, .register r, .none⟩, span)], l.next, l.computed dest⟩ := by
  unfold convert
  cases Kind.ofTy? source with
  | none => exact .inl rfl
  | some a =>
    cases Kind.ofTy? dest with
    | none => exact .inl rfl
    | some b =>
      by_cases hab : a = b
      · exact .inl (if_pos hab)
      · exact .inr ⟨a, b, rfl, rfl, hab, if_neg hab⟩

/-- No decimal number in the register of a declaration is negative, nor is the value written last if
it is one. -/
structure Held (c : LowerContext) (l : Layout) (κ : Point σ) : Prop where
  /-- The homes of declarations for decimal numbers hold none that is negative. -/
  homes : ∀ (d : NodeId) (r : Register), l.registers[d]? = some r → c.typeOf d = .anyNumber →
    κ.NonNegative r
  /-- If the value written last is a decimal number, it is not negative. -/
  last : l.lastTy = .anyNumber → κ.NonNegative l.lastRegister

/-- If the expression `x` is a decimal number, then its value is not negative. -/
def HeldValue (c : LowerContext) (x : NodeId) (v : Option Register) (κ : Point σ) : Prop :=
  c.typeOf x = .anyNumber → ∀ r, v = some r → κ.NonNegative r

namespace Activity

variable {e : Activity σ} {κ κ' : Point σ} {n : Nat} {F : Point σ → Prop} {i : Instruction}
  {span span' : Span} {l l' : Layout} {r home : Register} {ty dest : Ty} {d target value : NodeId}

/-- After a line that writes no home of a decimal number, or one that is not negative. -/
theorem held_after (h : Held e.context l κ) (hstep : e.Step κ κ')
    (hi : e.procedure.code[κ.pc]? = some i) (hregisters : l'.registers = l.registers)
    (hhome : ∀ d, l.registers[d]? = some i.out → e.context.typeOf d = .anyNumber →
      κ'.NonNegative i.out)
    (hlast : l'.lastTy = .anyNumber → κ'.NonNegative l'.lastRegister) : Held e.context l' κ' where
  homes d r hr hty := by
    rw [hregisters] at hr
    by_cases heq : i.out = r
    · subst heq
      exact hhome d hr hty
    · intro w hw
      rw [hstep.frame_eq hi heq] at hw
      exact h.homes d r hr hty w hw
  last := hlast

namespace Flows

/-- A line that computes a value of some type into the next register. -/
theorem computes (ty : Ty) (hl : l.Ordered) (hhas : e.procedure.Has n [(i, span)])
    (hout : i.out = l.next)
    (hskip : ∀ site frame s s', ¬e.machine.Performs e.call site frame s i .skip s')
    (hconvert : ∀ (a b : IntKind) (r : Register), i.op = .convert (.int a) (.int b) →
      i.left = .register r → a.isSigned = true → b.isSigned = false →
      ∀ κ, F κ → ∀ w, κ.frame[r]? = some w → 0 ≤ a.value w)
    (hvalue : ∀ κ w s', F κ →
      e.machine.Performs e.call ⟨e.procedure, κ.pc⟩ κ.frame κ.state i (.write w) s' →
      ty = .anyNumber → Word.Negative w → MayNegate e.context e.linkage e.procedure n) :
    e.Flows n (fun κ => Held e.context l κ ∧ F κ) [(i, span)]
      (fun κ => Held e.context (l.computed ty) κ ∧ (ty = .anyNumber → κ.NonNegative l.next)) := by
  refine .line hhas (fun a b r hop hleft ha hb κ hP => hconvert a b r hop hleft ha hb κ hP.2)
    fun κ κ' hvisits hpc hstep ⟨hheld, hF⟩ => ?_
  have hi : e.procedure.code[κ.pc]? = some i := hpc ▸ hhas.head.1
  rcases hstep.performs hi with ⟨s, hperforms⟩ | ⟨w, s, hperforms, hw⟩
  · exact (hskip _ _ _ _ hperforms).elim
  -- Either the line makes a negative number where it may, or what it computes is none.
  by_cases hneg : ty = .anyNumber ∧ Word.Negative w
  · have hmay := hvalue κ w s hF hperforms hneg.1 hneg.2
    exact .inl (.step hvisits hstep (.refl κ') (hpc ▸ hmay) hi hw hneg.2)
  · have hnew : ty = .anyNumber → κ'.NonNegative l.next := by
      intro hty w' hw'
      rw [← hout, hw] at hw'
      obtain rfl := Option.some.inj hw'
      exact fun hnegative => hneg ⟨hty, hnegative⟩
    refine .inr ⟨held_after hheld hstep hi rfl (fun d hd => ?_) hnew, hnew⟩
    rw [hout] at hd
    exact (hl.next_ne_home hd rfl).elim

/-- A copy to the register of a declaration. -/
theorem copies (hl : l.Ordered)
    (hhas : e.procedure.Has n [(⟨.copy, home, .register r, .none⟩, span)])
    (hhome : l.registers[d]? = some home) (hty : e.context.typeOf d = ty)
    (hvalue : ∀ κ, F κ → ty = .anyNumber →
      κ.NonNegative r ∨ MayNegate e.context e.linkage e.procedure n) :
    e.Flows n (fun κ => Held e.context l κ ∧ F κ) [(⟨.copy, home, .register r, .none⟩, span)]
      (Held e.context (l.wrote home ty)) := by
  refine .line hhas (fun _ _ _ hop => by cases hop) fun κ κ' hvisits hpc hstep ⟨hheld, hF⟩ => ?_
  have hi := hpc ▸ hhas.head.1
  rcases hstep.performs hi with ⟨s, hperforms⟩ | ⟨w, s, hperforms, hw⟩
  · cases hperforms
  cases hperforms with
  | copy hread =>
    by_cases hneg : ty = .anyNumber ∧ Word.Negative w
    · have hmay := (hvalue κ hF hneg.1).resolve_left fun hpos =>
        hpos w (read_register_ok.1 hread) hneg.2
      exact .inl (.step hvisits hstep (.refl κ') (hpc ▸ hmay) hi hw hneg.2)
    · have hnew : ty = .anyNumber → κ'.NonNegative home := by
        intro hty w' hw'
        obtain rfl := Option.some.inj (hw.symm.trans hw')
        exact fun hnegative => hneg ⟨hty, hnegative⟩
      refine .inr (held_after hheld hstep hi rfl (fun d' hd' hty' => hnew ?_) hnew)
      rw [← hty, hl.injective d d' home hhome hd']
      exact hty'

theorem load {index : Nat} {w : Word} (hl : l.Ordered)
    (hhas : e.procedure.Has n (l.load index ty span).code)
    (hw : e.machine.program.constants[index]? = some w)
    (hpos : ty = .anyNumber → ¬Word.Negative w) :
    e.Flows n (Held e.context l) (l.load index ty span).code
      (fun κ => Held e.context (l.load index ty span).layout κ
        ∧ (ty = .anyNumber → κ.NonNegative (l.load index ty span).value)) := by
  refine (computes (F := fun _ => True) _ hl hhas rfl (fun _ _ _ _ h => by cases h)
    (fun _ _ _ hop => by cases hop) fun κ w' s' _ hperforms hty hneg => ?_).mono
      (fun κ h => ⟨h, trivial⟩) fun _ h => h
  cases hperforms with
  | loadConstant hw' =>
    obtain rfl := Option.some.inj (hw.symm.trans hw')
    exact (hpos hty hneg).elim

/-- A value that is coerced without a cast.  The conversion of a signed integer to an unsigned one
is that of a decimal number. -/
theorem convert (hc : e.context.Sound) (hcasts : e.context.tree.CastFree e.context.root)
    (hid : id ∈ e.context.tree.preorder e.context.root) (hcoerces : e.context.Coerces id x dest)
    (hl : l.Ordered) (hhas : e.procedure.Has n (l.convert r (e.context.typeOf x) dest span).code)
    (hmay : dest = .anyNumber → e.context.typeOf x ≠ .anyNumber →
      ∀ k < (l.convert r (e.context.typeOf x) dest span).code.length,
        MayNegate e.context e.linkage e.procedure (n + k)) :
    e.Flows n (fun κ => Held e.context l κ ∧ HeldValue e.context x (some r) κ)
      (l.convert r (e.context.typeOf x) dest span).code
      (fun κ => Held e.context (l.convert r (e.context.typeOf x) dest span).layout κ
        ∧ (e.context.typeOf x = .anyNumber → dest = .anyNumber →
            κ.NonNegative (l.convert r (e.context.typeOf x) dest span).value)) := by
  rcases l.convert_eq r (e.context.typeOf x) dest span with hsame | ⟨a, b, ha, hb, hab, hone⟩
  · -- Without a conversion the register is that of the value.
    rw [hsame]
    exact .nil fun κ h => ⟨h.1, fun hx _ => h.2 hx r rfl⟩
  rw [hone] at hhas hmay ⊢
  refine (computes _ hl hhas rfl (fun _ _ _ _ h => by cases h) ?_ ?_).post fun κ h =>
    ⟨h.1, fun _ => h.2⟩
  · -- A signed kind becomes an unsigned one.  Without casts, only decimal numbers do this.
    intro a' b' r' hop hleft hsigned hunsigned κ hvalue w hw
    cases hop
    cases hleft
    have hadmits := (hcoerces.admits hc hid).resolve_left fun ⟨y, hshape, _⟩ => by
      have hcast := hcasts id hid
      rw [hshape] at hcast
      cases hcast
    have hx : e.context.typeOf x = .anyNumber := by
      refine hadmits.eq_anyNumber ?_ ?_
      · simp [Ty.keptUnsigned, hb, Kind.isUnsigned, hunsigned]
      · simp [Ty.keptSigned, ha, Kind.isSigned, hsigned]
    rw [hx] at ha
    cases ha
    exact Int.not_lt.1 (hvalue hx r rfl w hw)
  · -- A decimal number is made from a value of another kind, which may negate.
    intro κ w s' _ _ hdest _
    refine hmay hdest (fun hx => hab ?_) 0 Nat.one_pos
    rw [hx] at ha
    rw [hdest, ha] at hb
    exact Option.some.inj hb

/-- A value that is copied out of the way of stores. -/
theorem stage (ty : Ty) (hl : l.Ordered) (hhas : e.procedure.Has n (l.stage r ty span).code) :
    e.Flows n (fun κ => Held e.context l κ ∧ (ty = .anyNumber → κ.NonNegative r))
      (l.stage r ty span).code
      (fun κ => Held e.context (l.stage r ty span).layout κ
        ∧ (ty = .anyNumber → κ.NonNegative (l.stage r ty span).value)) := by
  unfold Layout.stage at hhas ⊢
  split at hhas
  · next hbound =>
    simp only [if_pos hbound]
    refine computes _ hl hhas rfl (fun _ _ _ _ h => by cases h) (fun _ _ _ hop => by cases hop)
      fun κ w s' hvalue hperforms hty hneg => ?_
    cases hperforms with
    | copy hread => exact (hvalue hty w (read_register_ok.1 hread) hneg).elim
  · next hbound =>
    simp only [if_neg hbound]
    exact .nil fun κ h => h

/-- A value that becomes the one of a declaration. -/
theorem tie (hl : l.Ordered) (hhas : e.procedure.Has n (l.tie d ty r span).code)
    (hty : e.context.typeOf d = ty) :
    e.Flows n (fun κ => Held e.context l κ ∧ (ty = .anyNumber → κ.NonNegative r))
      (l.tie d ty r span).code
      (fun κ => Held e.context (l.tie d ty r span).layout κ
        ∧ (ty = .anyNumber → κ.NonNegative (l.tie d ty r span).value)) := by
  refine (stage _ hl hhas).post fun κ ⟨hheld, hvalue⟩ =>
    ⟨⟨fun d' r' hr' hty' => ?_, hheld.last⟩, hvalue⟩
  rw [Layout.registers_tie, Std.TreeMap.getElem?_insert] at hr'
  split at hr'
  · next heq =>
    obtain rfl : d = d' := by simpa using heq
    obtain rfl := Option.some.inj hr'
    exact hvalue (hty ▸ hty')
  · refine hheld.homes d' r' ?_ hty'
    rw [Layout.registers_stage]
    exact hr'

/-- A value that is converted and stored in a variable. -/
theorem store (hc : e.context.Sound) (hcasts : e.context.tree.CastFree e.context.root)
    (hid : id ∈ e.context.tree.preorder e.context.root)
    (hcoerces : e.context.Coerces id value (e.context.typeOf target))
    (htarget : ∀ d, e.context.resolution.declaration? (e.context.tree.ungroup target) = some d →
      e.context.typeOf d = e.context.typeOf target)
    (hl : l.Ordered) {q s : Piece}
    (hq : q = l.convert r (e.context.typeOf value) (e.context.typeOf target) span)
    (hs : s = q.layout.store (q.layout.home e.context target) q.value
      (e.context.typeOf target) span')
    (hhas : e.procedure.Has n (q.code ++ s.code))
    (hmay : e.context.typeOf target = .anyNumber → e.context.typeOf value ≠ .anyNumber →
      ∀ k < (q.code ++ s.code).length, MayNegate e.context e.linkage e.procedure (n + k)) :
    e.Flows n (fun κ => Held e.context l κ ∧ HeldValue e.context value (some r) κ)
      (q.code ++ s.code) (Held e.context s.layout) := by
  have hordered : q.layout.Ordered := hq ▸ (hl.convert _ _ _ _).ordered
  -- The conversion, without the store.
  have hconvert :
    e.Flows n (fun κ => Held e.context l κ ∧ HeldValue e.context value (some r) κ) q.code
      (fun κ => Held e.context q.layout κ ∧ (e.context.typeOf value = .anyNumber →
        e.context.typeOf target = .anyNumber → κ.NonNegative q.value)) := by
    rw [hq] at hhas hmay ⊢
    refine convert hc hcasts hid hcoerces hl hhas.append.1 fun hdest hvalue k hk => ?_
    refine hmay hdest hvalue k ?_
    rw [List.length_append]
    exact Nat.lt_add_right _ hk
  refine hconvert.append ?_
  have hhas := hhas.append.2
  unfold Layout.store at hs
  -- Without a home there is no store.
  cases hhome : q.layout.home e.context target with
  | none =>
    rw [hhome] at hs
    rw [hs]
    exact .nil fun κ h => h.1
  -- The home is that of the declaration that the target names.
  | some home =>
    rw [hhome] at hs
    rw [hs] at hhas hmay ⊢
    obtain ⟨d, hdecl, hr⟩ := Option.bind_eq_some_iff.1 hhome
    refine copies hordered hhas hr (htarget d hdecl) fun κ hvalue hty => ?_
    by_cases hx : e.context.typeOf value = .anyNumber
    · exact .inl (hvalue hx hty)
    · exact .inr (hmay hty hx q.code.length (by simp))

end Flows

end Activity

end MiddleEnd
