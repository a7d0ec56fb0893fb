import MiddleEnd.Proofs.Code.WellFormed
import MiddleEnd.Proofs.Lowering.Rules

/-!
# Sound lowering

Lowering only ever appends: code, pools and procedures grow, and procedures other than the one
being lowered stay as they are.  With it grows what is sound about the code: instructions fit the
machine, and every register that is remembered lies in the frame of its procedure.

## Main definitions

* `Procedure.Extends`, `Lowering.Grows` — what a later state keeps of an earlier one.
* `Procedure.Sound`, `Lowering.Sound` — registers and indices are in range.
* `Lowering.Advances` — a sound state that has grown from another one, with a register in its frame.

## Main results

* `Lower.node_advances` — lowering a node advances the state, whatever the tree.
* `Generated.ofTree_wellFormed` — a generated program is well formed.
-/

namespace MiddleEnd

open Runs

/-- Code has been appended and registers have been given out. -/
structure Procedure.Extends (p p' : Procedure) : Prop where
  /-- Instructions have only been appended. -/
  code : p.code.toList <+: p'.code.toList
  /-- So have their sources. -/
  spans : p.spans.toList <+: p'.spans.toList
  /-- Registers have only been given out. -/
  next : p.nextRegister ≤ p'.nextRegister

namespace Procedure.Extends

variable {p p' p'' : Procedure}

theorem refl (p : Procedure) : p.Extends p :=
  ⟨List.prefix_refl _, List.prefix_refl _, Nat.le_refl _⟩

theorem trans (h : p.Extends p') (h' : p'.Extends p'') : p.Extends p'' :=
  ⟨h.code.trans h'.code, h.spans.trans h'.spans, Nat.le_trans h.next h'.next⟩

theorem extend (i : Instruction) (ty : Ty) (span : Span) : p.Extends (p.extend i ty span) :=
  ⟨by simp, by simp, by simp⟩

theorem allocate : p.Extends p.allocate := ⟨by simp, by simp, by simp⟩

end Procedure.Extends

namespace Lowering

/-- What lowering keeps: the frame, the pools so far, and all procedures but the current one, to
which code may be appended. -/
structure Grows (s s' : Lowering) : Prop where
  /-- The same procedure is being lowered. -/
  index : s'.frame.index = s.frame.index
  /-- It has the same declared result. -/
  result : s'.frame.result = s.frame.result
  /-- Constants have only been added. -/
  constants : s.program.constants.toList <+: s'.program.constants.toList
  /-- Native code has only been added. -/
  natives : s.program.natives.toList <+: s'.program.natives.toList
  /-- Procedures have only been added. -/
  size : s.program.procedures.size ≤ s'.program.procedures.size
  /-- The other procedures are as they were. -/
  others : ∀ j, j ≠ s.frame.index → ∀ p, s.program.procedures[j]? = some p →
    s'.program.procedures[j]? = some p
  /-- The current procedure has only grown. -/
  current : s.current.Extends s'.current
  /-- What has been refused before still is. -/
  problems : s.problems.toList <+: s'.problems.toList

namespace Grows

variable {s s' s'' : Lowering}

theorem refl (s : Lowering) : s.Grows s :=
  ⟨rfl, rfl, List.prefix_refl _, List.prefix_refl _, Nat.le_refl _, fun _ _ _ h => h, .refl _,
    List.prefix_refl _⟩

theorem trans (h : s.Grows s') (h' : s'.Grows s'') : s.Grows s'' where
  index := h'.index.trans h.index
  result := h'.result.trans h.result
  constants := h.constants.trans h'.constants
  natives := h.natives.trans h'.natives
  size := Nat.le_trans h.size h'.size
  others j hj p hp := h'.others j (h.index ▸ hj) p (h.others j hj p hp)
  current := h.current.trans h'.current
  problems := h.problems.trans h'.problems

/-- A change of the current procedure that only appends. -/
theorem onCurrent (hs : s.frame.index < s.program.procedures.size) {f : Procedure → Procedure}
    (hf : s.current.Extends (f s.current)) : s.Grows (s.onCurrent f) where
  index := rfl
  result := rfl
  constants := List.prefix_refl _
  natives := List.prefix_refl _
  size := by simp
  others j hj p hp := by rw [getElem?_onCurrent, if_neg (Ne.symm hj), hp]
  current := by
    rw [current_onCurrent f hs]
    exact hf
  problems := List.prefix_refl _

theorem withConstant (w : Word) : s.Grows (s.withConstant w) where
  index := rfl
  result := rfl
  constants := by simp [Lowering.withConstant]
  natives := List.prefix_refl _
  size := Nat.le_refl _
  others _ _ _ h := h
  current := .refl _
  problems := List.prefix_refl _

theorem withNative (call : NativeCall) : s.Grows (s.withNative call) where
  index := rfl
  result := rfl
  constants := List.prefix_refl _
  natives := by simp [Lowering.withNative]
  size := Nat.le_refl _
  others _ _ _ h := h
  current := .refl _
  problems := List.prefix_refl _

theorem withProblem (p : LoweringProblem) : s.Grows (s.withProblem p) where
  index := rfl
  result := rfl
  constants := List.prefix_refl _
  natives := List.prefix_refl _
  size := Nat.le_refl _
  others _ _ _ h := h
  current := .refl _
  problems := by simp [Lowering.withProblem]

theorem covered (h : s.Grows s') : s.program.Covered s'.program where
  constants := h.constants.length_le
  procedures := h.size
  natives index native hnative := by
    obtain ⟨hindex, rfl⟩ := Array.getElem?_eq_some_iff.1 hnative
    have hget := List.prefix_iff_getElem?.1 h.natives index (by simpa using hindex)
    simpa using hget

end Grows

end Lowering

/-- A procedure whose remembered registers lie in its frame. -/
structure Procedure.Sound (program : Program) (p : Procedure) : Prop
    extends p.WellFormed program where
  /-- The register zero is never given out. -/
  next_pos : 0 < p.nextRegister
  /-- The homes of declarations are in the frame. -/
  registers : ∀ (decl : NodeId) (r : Register), p.registers[decl]? = some r →
    Register.InFrame p.nextRegister r
  /-- The register written last is in the frame. -/
  last : p.lastRegister ≠ .none → Register.InFrame p.nextRegister p.lastRegister

namespace Procedure.Sound

variable {program program' : Program} {p : Procedure}

theorem empty (program : Program) (name : String) : (Procedure.empty name).Sound program where
  spans_size := rfl
  fits := by simp [Procedure.empty]
  next_pos := Nat.one_pos
  registers := by simp [Procedure.empty]
  last h := (h rfl).elim

theorem mono (h : p.Sound program) (hp : program.Covered program') : p.Sound program' where
  spans_size := h.spans_size
  fits i hi := (h.fits i hi).mono hp (Nat.le_refl _)
  next_pos := h.next_pos
  registers := h.registers
  last := h.last

theorem extend (h : p.Sound program) {i : Instruction} (hi : i.Fits program p.nextRegister)
    (ty : Ty) (span : Span) : (p.extend i ty span).Sound program where
  spans_size := by simp [h.spans_size]
  fits j hj := by
    rw [code_extend, Array.mem_push] at hj
    rw [nextRegister_extend]
    rcases hj with hj | rfl
    · exact h.fits j hj
    · exact hi
  next_pos := by simpa using h.next_pos
  registers decl r hr := by
    rw [registers_extend] at hr
    simpa using h.registers decl r hr
  last hlast := by
    rw [lastRegister_extend] at hlast ⊢
    rw [nextRegister_extend]
    by_cases hout : i.out = .none
    · rw [if_pos hout] at hlast ⊢
      exact h.last hlast
    · rw [if_neg hout]
      exact hi.out_inFrame hout

theorem allocate (h : p.Sound program) : p.allocate.Sound program where
  spans_size := h.spans_size
  fits i hi := (h.fits i hi).mono ⟨Nat.le_refl _, Nat.le_refl _, fun _ _ h => h⟩ (Nat.le_succ _)
  next_pos := Nat.succ_pos _
  registers decl r hr := (h.registers decl r hr).mono (Nat.le_succ _)
  last hlast := (h.last hlast).mono (Nat.le_succ _)

theorem tie (h : p.Sound program) {r : Register} (hr : Register.InFrame p.nextRegister r)
    (decl : NodeId) : { p with registers := p.registers.insert decl r }.Sound program where
  spans_size := h.spans_size
  fits := h.fits
  next_pos := h.next_pos
  registers decl' r' hr' := by
    simp only [Std.TreeMap.getElem?_insert] at hr'
    split at hr'
    · obtain rfl := Option.some.inj hr'
      exact hr
    · exact h.registers decl' r' hr'
  last := h.last

end Procedure.Sound

namespace Lowering

/-- Registers and indices are in range in the code under construction. -/
structure Sound (s : Lowering) : Prop where
  /-- The procedure being lowered exists. -/
  frame : s.frame.index < s.program.procedures.size
  /-- Every procedure fits the tables and its frame. -/
  procedures : ∀ (j : Nat) (p : Procedure), s.program.procedures[j]? = some p → p.Sound s.program
  /-- The index of a procedure is that of one that exists. -/
  targets : ∀ (id : NodeId) (j : Nat), s.procedureOf[id]? = some j →
    j < s.program.procedures.size

/-- A register of the procedure being lowered. -/
def Holds (s : Lowering) (r : Register) : Prop := Register.InFrame s.current.nextRegister r

namespace Sound

variable {s s' : Lowering}

theorem start : Lowering.start.Sound where
  frame := Nat.one_pos
  procedures j p hp := by
    have hp : p = .empty "start" := by
      cases j with
      | zero => exact (Option.some.inj hp).symm
      | succ j => simp [Lowering.start, Program.empty] at hp
    exact hp ▸ .empty _ _
  targets id j h := by simp [Lowering.start] at h

theorem current (hs : s.Sound) : s.current.Sound s.program :=
  hs.procedures _ _ (getElem?_current hs.frame)

theorem onCurrent (hs : s.Sound) {f : Procedure → Procedure}
    (hf : (f s.current).Sound (s.onCurrent f).program) : (s.onCurrent f).Sound where
  frame := by simpa using hs.frame
  procedures j p hp := by
    rw [getElem?_onCurrent] at hp
    split at hp
    · next hj =>
      rw [← hj, getElem?_current hs.frame] at hp
      obtain rfl := Option.some.inj hp
      exact hf
    · exact (hs.procedures j p hp).mono ⟨Nat.le_refl _, by simp, fun _ _ h => h⟩
  targets id j hj := by simpa using hs.targets id j hj

theorem withConstant (hs : s.Sound) (w : Word) : (s.withConstant w).Sound where
  frame := hs.frame
  procedures j p hp := (hs.procedures j p hp).mono (Grows.withConstant w).covered
  targets := hs.targets

theorem withNative (hs : s.Sound) (call : NativeCall) : (s.withNative call).Sound where
  frame := hs.frame
  procedures j p hp := (hs.procedures j p hp).mono (Grows.withNative call).covered
  targets := hs.targets

theorem withProblem (hs : s.Sound) (p : LoweringProblem) : (s.withProblem p).Sound :=
  ⟨hs.frame, hs.procedures, hs.targets⟩

end Sound

/-- A sound state that has grown from `s`, with a register of its current procedure if `v` is
one. -/
structure Advances (s : Lowering) (v : Option Register) (s' : Lowering) : Prop where
  /-- Registers and indices are in range. -/
  sound : s'.Sound
  /-- The code has only grown. -/
  grows : s.Grows s'
  /-- The register of the value has been given out. -/
  holds : ∀ r, v = some r → s'.Holds r

namespace Advances

variable {s s₁ s₂ : Lowering} {u v : Option Register}

theorem refl (hs : s.Sound) : s.Advances none s := ⟨hs, .refl s, fun _ h => by cases h⟩

theorem trans (h : s.Advances u s₁) (h' : s₁.Advances v s₂) : s.Advances v s₂ :=
  ⟨h'.sound, h.grows.trans h'.grows, h'.holds⟩

theorem forget (h : s.Advances v s₁) : s.Advances none s₁ :=
  ⟨h.sound, h.grows, fun _ h => by cases h⟩

/-- A register is still one of the procedure after it has grown. -/
theorem keeps (h : s.Advances v s₁) {r : Register} (hr : s.Holds r) : s₁.Holds r :=
  hr.mono h.grows.current.next

theorem withProblem (hs : s.Sound) (p : LoweringProblem) : s.Advances none (s.withProblem p) :=
  ⟨hs.withProblem p, .withProblem p, fun _ h => by cases h⟩

theorem allocated (hs : s.Sound) :
    s.Advances (some s.current.nextRegister) s.allocated where
  sound := hs.onCurrent (hs.current.allocate.mono ⟨Nat.le_refl _, by simp, fun _ _ h => h⟩)
  grows := .onCurrent hs.frame .allocate
  holds r hr := by
    obtain rfl := Option.some.inj hr
    unfold Holds Lowering.allocated
    rw [current_onCurrent _ hs.frame]
    exact ⟨hs.current.next_pos, Nat.lt_succ_self _⟩

theorem emitted (hs : s.Sound) {i : Instruction}
    (hi : i.Fits s.program s.current.nextRegister) (ty : Ty) (span : Span) :
    s.Advances none (s.emitted i ty span) where
  sound := hs.onCurrent
    ((hs.current.extend hi ty span).mono ⟨Nat.le_refl _, by simp, fun _ _ h => h⟩)
  grows := .onCurrent hs.frame (.extend i ty span)
  holds _ h := by cases h

/-- An instruction that computes a value into a register given out for it. -/
theorem computed (hs : s.Sound) {i : Instruction}
    (hi : i.Fits s.program (s.current.nextRegister + 1)) (ty : Ty) (span : Span) :
    s.Advances (some s.current.nextRegister) (s.allocated.emitted i ty span) := by
  have halloc := allocated hs
  have hi : i.Fits s.allocated.program s.allocated.current.nextRegister := by
    unfold Lowering.allocated
    rw [current_onCurrent _ hs.frame]
    exact hi.mono (Grows.onCurrent hs.frame .allocate).covered (Nat.le_refl _)
  have hemit := emitted halloc.sound hi ty span
  refine ⟨hemit.sound, halloc.grows.trans hemit.grows, fun r hr => ?_⟩
  exact hemit.keeps (halloc.holds r hr)

/-- The register just given out, and any register from before, as operands of `computed`. -/
theorem fresh_inFrame (hs : s.Sound) :
    Register.InFrame (s.current.nextRegister + 1) s.current.nextRegister :=
  ⟨hs.current.next_pos, Nat.lt_succ_self _⟩

theorem tied (hs : s.Sound) {r : Register} (hr : s.Holds r) (c : LowerContext) (decl : NodeId) :
    s.Advances (some r) (s.tie c decl r) := by
  let s₀ : Lowering :=
    { s with
      frame := { s.frame with bound := s.frame.bound.insert r }
      ownerOf := s.ownerOf.insert decl s.frame.index
      program := { s.program with dataSymbols := s.symbolsWith c decl r } }
  have hs₀ : s₀.Sound :=
    ⟨hs.frame, fun j p hp => (hs.procedures j p hp).mono ⟨Nat.le_refl _, Nat.le_refl _,
      fun _ _ h => h⟩, hs.targets⟩
  have hgrows₀ : s.Grows s₀ :=
    ⟨rfl, rfl, List.prefix_refl _, List.prefix_refl _, Nat.le_refl _, fun _ _ _ h => h, .refl _,
      List.prefix_refl _⟩
  -- The tables of the lowering change first, then the procedure that is being lowered.
  let f (p : Procedure) : Procedure := { p with registers := p.registers.insert decl r }
  have hgrows : s₀.Grows (s₀.onCurrent f) :=
    .onCurrent hs₀.frame ⟨List.prefix_refl _, List.prefix_refl _, Nat.le_refl _⟩
  have hsound : (s₀.onCurrent f).Sound :=
    hs₀.onCurrent ((hs₀.current.tie hr decl).mono hgrows.covered)
  refine ⟨hsound, hgrows₀.trans hgrows, fun r' hr' => ?_⟩
  obtain rfl := Option.some.inj hr'
  exact hr.mono (hgrows₀.trans hgrows).current.next

end Advances

end Lowering

namespace Lower

open Lowering

variable {c : LowerContext} {lower : NodeId → Lower (Option Register)} {s s' : Lowering}
  {v : Option Register}

/-! ### Steps -/

theorem load_advances (hs : s.Sound) {w : Word} {ty : Ty} {span : Span} {r : Register}
    (h : load c w ty span s = .ok (r, s')) : s.Advances (some r) s' := by
  obtain ⟨rfl, rfl⟩ := load_ok h
  have hs₁ : (s.withConstant w).Sound := hs.withConstant w
  have hi : (⟨.loadConstant, s.current.nextRegister, .constant s.program.constants.size,
      .none⟩ : Instruction).Fits (s.withConstant w).program (s.current.nextRegister + 1) :=
    .loadConstant (Advances.fresh_inFrame hs) (by simp [withConstant])
  have hcomputed := Advances.computed hs₁ hi ty span
  exact ⟨hcomputed.sound, (Grows.withConstant w).trans hcomputed.grows, hcomputed.holds⟩

theorem convert_advances (hs : s.Sound) {value r : Register} (hvalue : s.Holds value)
    {source dest : Ty} {span : Span} (h : convert c value source dest span s = .ok (r, s')) :
    s.Advances (some r) s' := by
  rcases convert_ok h with ⟨a, b, -, -, -, rfl, rfl⟩ | ⟨-, rfl, rfl⟩
  · exact Advances.computed hs
      (.convert (Advances.fresh_inFrame hs) (hvalue.mono (Nat.le_succ _))) dest span
  · exact ⟨hs, .refl s, fun r' hr' => Option.some.inj hr' ▸ hvalue⟩

theorem bind_advances (hs : s.Sound) {decl : NodeId} {value r : Register}
    (hvalue : s.Holds value) {span : Span} (h : bind c decl value span s = .ok (r, s')) :
    s.Advances (some r) s' := by
  rcases bind_tie h with ⟨-, rfl, rfl⟩ | ⟨-, rfl, rfl⟩
  · exact .tied hs hvalue c decl
  · have hcopy := Advances.computed hs
      (.copy (Advances.fresh_inFrame hs) (hvalue.mono (Nat.le_succ _))) (c.typeOf decl) span
    exact hcopy.trans (.tied hcopy.sound (hcopy.holds _ rfl) c decl)

theorem place_advances (hs : s.Sound) {target : NodeId} (h : place c target s = .ok (v, s')) :
    s.Advances v s' := by
  obtain ⟨decl, -, h⟩ := place_ok h
  cases h with
  | unowned h => exact .refl hs
  | outer howner h => exact .withProblem hs _
  | own h => exact ⟨hs, .refl s, fun r hr => hs.current.registers decl r hr⟩

theorem store_advances (hs : s.Sound) {target : NodeId} {value : Register}
    (hvalue : s.Holds value) {span : Span} {u : Unit}
    (h : store c target value span s = .ok (u, s')) : s.Advances none s' := by
  rcases store_ok h with hplace | ⟨r, s₁, hplace, rfl⟩
  · exact place_advances hs hplace
  · have hplace := place_advances hs hplace
    exact hplace.trans
      (.emitted hplace.sound (.copy (hplace.holds r rfl) (hplace.keeps hvalue)) _ span)

/-! ### Expressions -/

theorem literalRule_advances (hs : s.Sound) {id : NodeId} {span : Span} {lit : Literal}
    (h : literalRule c id span lit s = .ok (v, s')) : s.Advances v s' := by
  rcases literalRule_ok h with ⟨-, rfl, rfl⟩ | ⟨value, r, -, hload, rfl⟩
  · exact .withProblem hs _
  · exact load_advances hs hload

theorem ident_advances (hs : s.Sound) {id decl : NodeId} (h : IdentOutcome c id decl s v s') :
    s.Advances v s' := by
  cases h with
  | shape h => exact .withProblem hs _
  | procedure _ _ => exact .refl hs
  | unowned _ _ _ => exact .refl hs
  | outer _ _ _ _ h =>
    rcases outerRule_ok h with ⟨literal, lit, -, h⟩ | ⟨-, rfl, rfl⟩
    · exact literalRule_advances hs h
    · exact .withProblem hs _
  | @own r _ _ _ h =>
    refine ⟨hs, .refl s, fun r' hr' => ?_⟩
    obtain rfl := Option.some.inj hr'
    exact hs.current.registers decl r h

section Rules

variable (ih : ∀ (x : NodeId) (s s' : Lowering) (v : Option Register),
  lower x s = .ok (v, s') → s.Sound → s.Advances v s')
include ih

/-- A node whose value, if it has one, is converted. -/
theorem converted_advances (hs : s.Sound) {x : NodeId} {source dest : Ty} {span : Span}
    (h : (lower x s = .ok (none, s') ∧ v = none)
      ∨ ∃ value s₁ r, lower x s = .ok (some value, s₁)
          ∧ convert c value source dest span s₁ = .ok (r, s') ∧ v = some r) :
    s.Advances v s' := by
  rcases h with ⟨h, rfl⟩ | ⟨value, s₁, r, h, hconvert, rfl⟩
  · exact ih _ _ _ _ h hs
  · have hvalue := ih _ _ _ _ h hs
    exact hvalue.trans (convert_advances hvalue.sound (hvalue.holds value rfl) hconvert)

theorem operand_advances (hs : s.Sound) {id : NodeId} {ty : Ty}
    (h : operand c lower id ty s = .ok (v, s')) : s.Advances v s' :=
  converted_advances ih hs (operand_ok h)

theorem binary_advances (hs : s.Sound) {id left right : NodeId} {op : BinaryOp} {kind : Kind}
    (h : BinaryOutcome c lower id left right op kind s v s') : s.Advances v s' := by
  cases h with
  | missing hleft hright _ =>
    have ha := operand_advances ih hs hleft
    exact (ha.trans (operand_advances ih ha.sound hright)).forget
  | @emitted a b s₁ s₂ hleft hright =>
    have ha := operand_advances ih hs hleft
    have hb := operand_advances ih ha.sound hright
    have hra : s₂.Holds a := hb.keeps (ha.holds a rfl)
    have hrb : s₂.Holds b := hb.holds b rfl
    exact (ha.trans hb).trans (.computed hb.sound
      (.binary (Advances.fresh_inFrame hb.sound) (hra.mono (Nat.le_succ _))
        (hrb.mono (Nat.le_succ _))) _ _)

theorem signed_advances (hs : s.Sound) {id x : NodeId} {sign : Sign}
    (h : SignedOutcome c lower id x s sign v s') : s.Advances v s' := by
  cases h with
  | plus h => exact operand_advances ih hs h
  | folded _ h => exact load_advances hs h
  | missing _ h => exact operand_advances ih hs h
  | @emitted a kind s₁ _ h hkind =>
    have ha := operand_advances ih hs h
    have hra : s₁.Holds a := ha.holds a rfl
    exact ha.trans (.computed ha.sound
      (.negate (Advances.fresh_inFrame ha.sound) (hra.mono (Nat.le_succ _))) _ _)

omit ih in
theorem call_advances (hs : s.Sound) {id callee : NodeId} (h : CallOutcome c id callee s v s') :
    s.Advances v s' := by
  cases h with
  | indirect h => exact .withProblem hs _
  | direct htarget h =>
    exact .computed hs (.call (Advances.fresh_inFrame hs) (hs.targets _ _ h)) _ _

/-! ### Native code -/

theorem inputs_advances (hs : s.Sound) {inputs : List NodeId} {slots : Option (List NativeSlot)}
    (h : InputsOutcome c lower inputs s slots s') :
    s.Advances none s' ∧ ∀ l, slots = some l → ∀ slot ∈ l, s'.Holds slot.register := by
  induction h with
  | nil => exact ⟨.refl hs, by simp⟩
  | missing _ h => exact ⟨ih _ _ _ _ h hs, by simp⟩
  | cut _ h _ ihrest =>
    have hone := ih _ _ _ _ h hs
    exact ⟨hone.trans (ihrest hone.sound).1, by simp⟩
  | @cons input target offset rest s s₁ s' r slots _ h _ ihrest =>
    have hone := ih _ _ _ _ h hs
    obtain ⟨hrest, hslots⟩ := ihrest hone.sound
    refine ⟨hone.trans hrest, fun l hl slot hslot => ?_⟩
    obtain rfl := Option.some.inj hl
    rcases List.mem_cons.1 hslot with rfl | hslot
    · exact hrest.keeps (hone.holds r rfl)
    · exact hslots slots rfl slot hslot

omit ih in
theorem output_advances (hs : s.Sound) {output : Option NodeId}
    {slot : Option (Option NativeSlot)} (h : nativeOutput c output s = .ok (slot, s')) :
    s.Advances none s' ∧ ∀ o, slot = some (some o) → s'.Holds o.register := by
  rcases nativeOutput_ok h with ⟨-, rfl, rfl⟩ | ⟨id, target, offset, v, -, -, hplace, rfl⟩
  · exact ⟨.refl hs, by simp⟩
  · have hadv := place_advances hs hplace
    refine ⟨hadv.forget, fun o ho => ?_⟩
    obtain ⟨r, rfl, hr⟩ := Option.map_eq_some_iff.1 ho
    obtain rfl := Option.some.inj hr
    exact hadv.holds r rfl

theorem native_advances (hs : s.Sound) {id : NodeId} {source : String} {inputs : List NodeId}
    {output : Option NodeId} (h : NativeOutcome c lower id source inputs output s v s') :
    s.Advances v s' := by
  cases h with
  | tooMany _ => exact .withProblem hs _
  -- Where nothing is called, what has been lowered so far is kept.
  | noInput h => exact (inputs_advances ih hs h).1
  | noOutput hinputs h =>
    have hin := (inputs_advances ih hs hinputs).1
    exact hin.trans (output_advances hin.sound h).1
  -- The code has been entered in the table, so the call refers to it.
  | @emitted slots slot s₁ s₂ out _ hinputs hout h =>
    obtain ⟨hin, hslots⟩ := inputs_advances ih hs hinputs
    obtain ⟨hadv, hslot⟩ := output_advances hin.sound h
    let call : NativeCall := ⟨source, slots, slot⟩
    have hs₃ : (s₂.withNative call).Sound := hadv.sound.withNative call
    have hi : (⟨.callNative, out, .native s₂.program.natives.size, .none⟩ : Instruction).Fits
        (s₂.withNative call).program (s₂.withNative call).current.nextRegister := by
      subst hout
      refine .callNative (show _ = some call by simp [withNative]) ?_ ?_
      · intro slot hmem
        exact hadv.keeps (hslots slots rfl slot hmem)
      · intro o ho
        exact hslot o (by rw [← ho])
    have hemit := Advances.emitted hs₃ hi ((output.map c.typeOf).getD .empty) (c.span id)
    refine ⟨hemit.sound, ?_, fun r hr => ?_⟩
    · exact ((hin.trans hadv).grows.trans (.withNative call)).trans hemit.grows
    · split at hr
      · cases hr
      · next hne =>
        obtain rfl := Option.some.inj hr
        exact hemit.keeps (hi.out_inFrame hne)

/-! ### Declarations and statements -/

theorem declare_advances (hs : s.Sound) {id init : NodeId}
    (h : DeclareOutcome c lower id init s v s') : s.Advances v s' := by
  cases h with
  | missing h => exact ih _ _ _ _ h hs
  | tied hinit hconvert h =>
    have hvalue := ih _ _ _ _ hinit hs
    have hconverted := convert_advances hvalue.sound (hvalue.holds _ rfl) hconvert
    exact (hvalue.trans hconverted).trans
      (bind_advances hconverted.sound (hconverted.holds _ rfl) h)

theorem var_advances (hs : s.Sound) {id : NodeId} {init : Option NodeId}
    (h : varRule c lower id init s = .ok (v, s')) : s.Advances v s' := by
  rcases varRule_ok h with ⟨i, -, h⟩ | ⟨-, -, rfl, rfl⟩ | ⟨r, -, -, rfl, hbind⟩
  · exact declare_advances ih hs h
  · exact .withProblem hs _
  · have hfresh := Advances.allocated hs
    exact hfresh.trans (bind_advances hfresh.sound (hfresh.holds _ rfl) hbind)

theorem assign_advances (hs : s.Sound) {id target value : NodeId}
    (h : AssignOutcome c lower id target value s s') : s.Advances none s' := by
  cases h with
  | missing h => exact ih _ _ _ _ h hs
  | stored hvalue hconvert h =>
    have hvalue := ih _ _ _ _ hvalue hs
    have hconverted := convert_advances hvalue.sound (hvalue.holds _ rfl) hconvert
    exact (hvalue.trans hconverted).trans
      (store_advances hconverted.sound (hconverted.holds _ rfl) h)

theorem stage_advances (hs : s.Sound) {value : NodeId}
    (h : StageOutcome c lower value s v s') : s.Advances v s' := by
  cases h with
  | missing h => exact ih _ _ _ _ h hs
  | @copied r s₁ h _ =>
    have hvalue := ih _ _ _ _ h hs
    have hr : s₁.Holds r := hvalue.holds r rfl
    exact hvalue.trans (.computed hvalue.sound
      (.copy (Advances.fresh_inFrame hvalue.sound) (hr.mono (Nat.le_succ _))) _ _)
  | kept h _ => exact ih _ _ _ _ h hs

theorem stages_advances (hs : s.Sound) {values : List NodeId} {staged : List (Option Register)}
    (h : StagesOutcome c lower values s staged s') :
    s.Advances none s' ∧ ∀ r, some r ∈ staged → s'.Holds r := by
  induction h with
  | nil => exact ⟨.refl hs, by simp⟩
  | cons h _ ihrest =>
    have hone := stage_advances ih hs h
    obtain ⟨hrest, hstaged⟩ := ihrest hone.sound
    refine ⟨hone.trans hrest, fun r hr => ?_⟩
    rcases List.mem_cons.1 hr with hr | hr
    · exact hrest.keeps (hone.holds r hr.symm)
    · exact hstaged r hr

omit ih in
theorem stores_advances (hs : s.Sound) {triples : List (NodeId × NodeId × Option Register)}
    (h : StoresOutcome c triples s s')
    (hholds : ∀ triple ∈ triples, ∀ r, triple.2.2 = some r → s.Holds r) :
    s.Advances none s' := by
  induction h with
  | nil => exact .refl hs
  | missing _ ihrest => exact ihrest hs fun triple hmem => hholds triple (.tail _ hmem)
  | stored hconvert hstore _ ihrest =>
    have hconverted := convert_advances hs (hholds _ (.head _) _ rfl) hconvert
    have hstored := hconverted.trans
      (store_advances hconverted.sound (hconverted.holds _ rfl) hstore)
    refine hstored.trans (ihrest hstored.sound fun triple hmem r hr => ?_)
    exact hstored.keeps (hholds triple (.tail _ hmem) r hr)

theorem return_advances (hs : s.Sound) {id : NodeId} {value : Option NodeId}
    (h : ReturnOutcome c lower id s value s') : s.Advances none s' := by
  cases h with
  | bare => exact .emitted hs .retNone _ _
  | missing h => exact ih _ _ _ _ h hs
  | raw h _ =>
    have hvalue := ih _ _ _ _ h hs
    exact hvalue.trans (.emitted hvalue.sound (.ret (hvalue.holds _ rfl)) _ _)
  | converted h _ hconvert =>
    have hvalue := ih _ _ _ _ h hs
    have hconverted := convert_advances hvalue.sound (hvalue.holds _ rfl) hconvert
    exact (hvalue.trans hconverted).trans
      (.emitted hconverted.sound (.ret (hconverted.holds _ rfl)) _ _)

/-! ### Procedures -/

omit ih in
theorem convertLast_advances (hs : s.Sound) {body : NodeId} {result : Ty} {u : Unit}
    (h : convertLast c body result s = .ok (u, s')) : s.Advances none s' := by
  rcases convertLast_ok h with ⟨-, rfl⟩ | ⟨r, hlast, h⟩
  · exact .refl hs
  · exact (convert_advances hs (hs.current.last hlast) h).forget

omit ih in
/-- A procedure without code can be entered. -/
theorem entered_sound (hs : s.Sound) {id : NodeId} {name : String} {isConstant : Bool}
    {result : Option Ty} :
    ((s.opened id name isConstant).inFrame
      ⟨s.program.procedures.size, result, ∅⟩).Sound where
  frame := by simp [opened, inFrame]
  procedures j p hp := by
    simp only [opened, inFrame, Array.getElem?_push] at hp
    split at hp
    · obtain rfl := Option.some.inj hp
      exact .empty _ _
    · refine (hs.procedures j p hp).mono ⟨Nat.le_refl _, ?_, fun _ _ h => h⟩
      simp [opened, inFrame]
  targets target j hj := by
    simp only [opened, inFrame, Std.TreeMap.getElem?_insert, Array.size_push] at hj ⊢
    split at hj
    · obtain rfl := Option.some.inj hj
      exact Nat.lt_succ_self _
    · exact Nat.lt_succ_of_lt (hs.targets target j hj)

omit ih in
/-- Procedures before another one are as they were when that one has been lowered. -/
theorem around_others {id : NodeId} {name : String} {isConstant : Bool}
    {result : Option Ty} {s₁ : Lowering}
    (h : ((s.opened id name isConstant).inFrame
      ⟨s.program.procedures.size, result, ∅⟩).Grows s₁) {j : Nat} {p : Procedure}
    (hp : s.program.procedures[j]? = some p) : s₁.program.procedures[j]? = some p := by
  have hj : j < s.program.procedures.size := (Array.getElem?_eq_some_iff.1 hp).1
  refine h.others j (Nat.ne_of_lt hj) p ?_
  simp only [opened, inFrame]
  rw [Array.getElem?_push, if_neg (Nat.ne_of_lt hj), hp]

omit ih in
theorem around_current (hs : s.Sound) {id : NodeId} {name : String} {isConstant : Bool}
    {result : Option Ty} {s₁ : Lowering}
    (h : ((s.opened id name isConstant).inFrame
      ⟨s.program.procedures.size, result, ∅⟩).Grows s₁) :
    (s₁.inFrame s.frame).current = s.current := by
  show s₁.program.procedures[s.frame.index]?.getD _ = _
  rw [around_others h (getElem?_current hs.frame)]
  rfl

omit ih in
/-- The procedure around another one is as it was when that one has been lowered. -/
theorem around_advances (hs : s.Sound) {id : NodeId} {name : String} {isConstant : Bool}
    {result : Option Ty} {s₁ : Lowering}
    (h : ((s.opened id name isConstant).inFrame
      ⟨s.program.procedures.size, result, ∅⟩).Advances v s₁) :
    s.Advances none (s₁.inFrame s.frame) := by
  have hsize : s.program.procedures.size + 1 ≤ s₁.program.procedures.size := by
    simpa [opened, inFrame] using h.grows.size
  refine ⟨⟨?_, h.sound.procedures, h.sound.targets⟩, ?_, fun _ h => by cases h⟩
  · exact Nat.lt_of_lt_of_le hs.frame (Nat.le_of_succ_le hsize)
  · exact
      { index := rfl
        result := rfl
        constants := h.grows.constants
        natives := h.grows.natives
        size := Nat.le_of_succ_le hsize
        others := fun j _ p hp => around_others h.grows hp
        current := around_current hs h.grows ▸ .refl _
        problems := h.grows.problems }

theorem procedure_advances (hs : s.Sound) {id body : NodeId} {result : Option NodeId}
    (h : ProcedureOutcome c lower id body s result s') : s.Advances none s' := by
  cases h with
  | untyped hbody => exact around_advances hs (ih _ _ _ _ hbody (entered_sound hs))
  | typed hbody hlast =>
    have hbody := ih _ _ _ _ hbody (entered_sound hs)
    exact around_advances hs (hbody.trans (convertLast_advances hbody.sound hlast))

/-! ### All shapes -/

theorem items_advances (hs : s.Sound) {items : List NodeId}
    (h : ItemsOutcome lower items s s') : s.Advances none s' := by
  induction h with
  | nil => exact .refl hs
  | cons h _ ihrest =>
    have hone := ih _ _ _ _ h hs
    exact hone.trans (ihrest hone.sound)

theorem rule_advances (hs : s.Sound) {id : NodeId} {shape : Shape}
    (h : RuleOutcome c lower id s shape v s') : s.Advances v s' := by
  -- One lemma for each shape.
  cases h with
  | module h | block h => exact items_advances ih hs h
  | constant h => exact declare_advances ih hs h
  | var h => exact var_advances ih hs h
  | procedure h => exact procedure_advances ih hs h
  | struct | field | enum | variant | binaryOp | signOp | typeName | array => exact .refl hs
  | exprStmt h => exact (ih _ _ _ _ h hs).forget
  | assign h => exact assign_advances ih hs h
  -- The staged values still have their registers when they are stored.
  | parallel hstages hstores =>
    obtain ⟨hstaged, hholds⟩ := stages_advances ih hs hstages
    refine hstaged.trans (stores_advances hstaged.sound hstores fun triple hmem r hr => ?_)
    have hmem := (List.of_mem_zip hmem).2
    exact hholds r (hr ▸ (List.of_mem_zip hmem).2)
  | ret h => exact return_advances ih hs h
  | literal h => exact literalRule_advances hs h
  | ident _ h => exact ident_advances hs h
  | binary _ _ h => exact binary_advances ih hs h
  | signed _ h => exact signed_advances ih hs h
  | group h => exact ih _ _ _ _ h hs
  | call hcallee h =>
    have hadv := ih _ _ _ _ hcallee hs
    exact hadv.trans (call_advances hadv.sound h)
  | cast h => exact converted_advances ih hs (castRule_ok h)
  | native h => exact native_advances ih hs h
  | slot h => exact ih _ _ _ _ h hs

end Rules

/-- **Lowering a node advances the state**, whatever the tree, its names and its types are. -/
theorem node_advances {id : NodeId} (hs : s.Sound) (h : node c id s = .ok (v, s')) :
    s.Advances v s' :=
  node_induction (motive := fun _ s v s' => s.Sound → s.Advances v s')
    (fun _ _ ih _ _ _ h hs => rule_advances (fun x s s' v hx => (ih x s s' v hx).2.2) hs h) h hs

end Lower

namespace Generated

variable {t : Tree} {links : Links} {root : NodeId} {r : Resolution} {ty : Typing} {limit : Nat}
  {g : Generated}

/-- A generated program is what lowering the root leaves. -/
theorem ofTree_ok (h : ofTree t links root r ty limit = .ok g) :
    ∃ v s, Lower.node ⟨t, links, root, r, ty, min limit Register.maximum⟩ root .start = .ok (v, s)
      ∧ g = ⟨s.program, s.problems.toList⟩ := by
  unfold ofTree at h
  cases hnode :
    (Lower.node ⟨t, links, root, r, ty, min limit Register.maximum⟩ root).run .start with
  | error e =>
    simp only [hnode] at h
    cases h
  | ok p =>
    simp only [hnode] at h
    cases h
    exact ⟨p.1, p.2, hnode, rfl⟩

/-- A generated program is well formed, with or without problems. -/
theorem ofTree_wellFormed (h : ofTree t links root r ty limit = .ok g) :
    g.program.WellFormed := by
  obtain ⟨v, s, hnode, rfl⟩ := ofTree_ok h
  have hadv := Lower.node_advances .start hnode
  refine ⟨Nat.lt_of_le_of_lt (Nat.zero_le _) hadv.sound.frame, fun j q hq => ?_⟩
  exact (hadv.sound.procedures j q hq).toWellFormed

end Generated

end MiddleEnd
