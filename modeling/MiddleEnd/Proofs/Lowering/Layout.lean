import MiddleEnd.Proofs.Lowering.Sound

/-!
# Layouts

What lowering has to know about the procedure it is in: the registers of its declarations, the next
register, and the value written last.  Pieces of code are given from here on by the layout before
and after them, so that the code of a procedure can be read without the rest of the program.

## Main definitions

* `Layout` — the registers of a procedure at one place of its code.
* `Piece` — lines of code with the register of their value and the layout after them.
* `Layout.load`, `Layout.convert`, `Layout.tie`, `Layout.stage`, `Layout.store` — the pieces that
  lowering puts together.
* `Lowering.layout`, `Lowering.Appends` — the layout of a state of lowering, and the code between
  two states.

## Main results

* `Lower.convert_piece`, `Lower.bind_piece`, `Lower.load_piece` — each step of lowering appends its
  piece and nothing else.
-/

namespace MiddleEnd

/-- An instruction with its source. -/
abbrev CodeLine := Instruction × Span

/-- The registers of a procedure at one place of its code. -/
structure Layout where
  /-- The register of each declaration so far. -/
  registers : Std.TreeMap NodeId Register
  /-- Registers that belong to declarations. -/
  bound : Std.TreeSet Register
  /-- The next register to give out. -/
  next : Register
  /-- The register written last, with the type of the value. -/
  lastRegister : Register
  /-- The type of the value written last. -/
  lastTy : Ty

/-- Lines of code with the register of their value and the layout after them. -/
structure Piece where
  /-- The lines. -/
  code : List CodeLine
  /-- The register of the value. -/
  value : Register
  /-- The layout after them. -/
  layout : Layout

namespace Layout

/-- Where the code of every procedure begins. -/
def initial : Layout := ⟨∅, ∅, 1, .none, .empty⟩

/-- After an instruction that writes `out`. -/
def wrote (l : Layout) (out : Register) (ty : Ty) : Layout :=
  { l with lastRegister := out, lastTy := ty }

/-- After the next register has been given out. -/
def reserved (l : Layout) : Layout := { l with next := l.next + 1 }

/-- After an instruction that writes the next register. -/
def computed (l : Layout) (ty : Ty) : Layout := l.reserved.wrote l.next ty

/-- After `decl` has got its register. -/
def withHome (l : Layout) (decl : NodeId) (r : Register) : Layout :=
  { l with registers := l.registers.insert decl r, bound := l.bound.insert r }

/-- Load a constant into a register of its own. -/
def load (l : Layout) (index : Nat) (ty : Ty) (span : Span) : Piece :=
  ⟨[(⟨.loadConstant, l.next, .constant index, .none⟩, span)], l.next, l.computed ty⟩

/-- Convert a value, unless both types are kept in one kind or one of them in none. -/
def convert (l : Layout) (value : Register) (source dest : Ty) (span : Span) : Piece :=
  match Kind.ofTy? source, Kind.ofTy? dest with
  | some a, some b =>
    if a = b then ⟨[], value, l⟩
    else ⟨[(⟨.convert a b, l.next, .register value, .none⟩, span)], l.next, l.computed dest⟩
  | _, _ => ⟨[], value, l⟩

/-- Copy a value out of a register that belongs to a declaration. -/
def stage (l : Layout) (value : Register) (ty : Ty) (span : Span) : Piece :=
  if l.bound.contains value then
    ⟨[(⟨.copy, l.next, .register value, .none⟩, span)], l.next, l.computed ty⟩
  else ⟨[], value, l⟩

/-- Give a value to a declaration as its register. -/
def tie (l : Layout) (decl : NodeId) (ty : Ty) (value : Register) (span : Span) : Piece :=
  let p := l.stage value ty span
  ⟨p.code, p.value, p.layout.withHome decl p.value⟩

/-- Store a value in the register of a variable, if it has one. -/
def store (l : Layout) (home : Option Register) (value : Register) (ty : Ty) (span : Span) :
    Piece :=
  match home with
  | some r => ⟨[(⟨.copy, r, .register value, .none⟩, span)], value, l.wrote r ty⟩
  | none => ⟨[], value, l⟩

/-- Convert a value to the declared result type, if one is declared. -/
def convertResult (l : Layout) (value : Register) (source : Ty) (result : Option Ty) (span : Span) :
    Piece :=
  match result with
  | some result => l.convert value source result span
  | none => ⟨[], value, l⟩

/-- Convert the value written last, if there is one, to the declared result type. -/
def convertLast (l : Layout) (result : Option Ty) (span : Span) : Piece :=
  if l.lastRegister = .none then ⟨[], .none, l⟩
  else l.convertResult l.lastRegister l.lastTy result span

/-- Without a declared result type nothing is converted at the end. -/
theorem convertLast_none (l : Layout) (span : Span) :
    (l.convertLast none span).code = [] ∧ (l.convertLast none span).layout = l := by
  unfold convertLast
  split <;> exact ⟨rfl, rfl⟩

/-- The register of the variable that `target` names. -/
def home (l : Layout) (c : LowerContext) (target : NodeId) : Option Register :=
  (c.resolution.declaration? (c.tree.ungroup target)).bind (l.registers[·]?)

/-- Convert staged values and store them in order.  What has no register is left out. -/
def storeAll (c : LowerContext) :
    Layout → List (NodeId × NodeId × Option Register) → List CodeLine × Layout
  | l, [] => ([], l)
  | l, (_, _, none) :: rest => storeAll c l rest
  | l, (target, value, some r) :: rest =>
    let p := l.convert r (c.typeOf value) (c.typeOf target) (c.span target)
    let q := p.layout.store (p.layout.home c target) p.value (c.typeOf target) (c.span target)
    let (code, l') := storeAll c q.layout rest
    (p.code ++ q.code ++ code, l')

/-- **A conversion is one line between two kinds**, and nothing between types that are not kept in
two of them. -/
theorem convert_cases (l : Layout) (value : Register) (source dest : Ty) (span : Span) :
    (l.convert value source dest span = ⟨[], value, l⟩
        ∧ ∀ a b, Kind.ofTy? source = some a → Kind.ofTy? dest = some b → a = b)
      ∨ ∃ a b, Kind.ofTy? source = some a ∧ Kind.ofTy? dest = some b ∧ a ≠ b
        ∧ l.convert value source dest span
          = ⟨[(⟨.convert a b, l.next, .register value, .none⟩, span)], l.next,
            l.computed dest⟩ := by
  unfold convert
  split
  · next a b ha hb =>
    by_cases hab : a = b
    · refine .inl ⟨if_pos hab, fun a' b' ha' hb' => ?_⟩
      obtain rfl := Option.some.inj (ha.symm.trans ha')
      obtain rfl := Option.some.inj (hb.symm.trans hb')
      exact hab
    · exact .inr ⟨a, b, ha, hb, hab, if_neg hab⟩
  · next hnone => exact .inl ⟨rfl, fun a b ha hb => (hnone a b ha hb).elim⟩

/-- A conversion to a declared result is at most one line, which writes a new register. -/
theorem convertResult_cases (l : Layout) (value : Register) (source : Ty) (result : Option Ty)
    (span : Span) : l.convertResult value source result span = ⟨[], value, l⟩
      ∨ ∃ line dest, l.convertResult value source result span
        = ⟨[line], l.next, l.computed dest⟩ := by
  cases result with
  | none => exact .inl rfl
  | some dest =>
    rcases l.convert_cases value source dest span with ⟨hnone, -⟩ | ⟨a, b, -, -, -, hone⟩
    · exact .inl hnone
    · exact .inr ⟨_, dest, hone⟩

end Layout

namespace Lowering

/-- The layout at the end of the code so far. -/
def layout (s : Lowering) : Layout :=
  ⟨s.current.registers, s.frame.bound, s.current.nextRegister, s.current.lastRegister,
    s.current.lastTy⟩

/-- The lines of code that the current procedure has in `s'` after those it has in `s`. -/
structure Appends (s : Lowering) (lines : List CodeLine) (s' : Lowering) : Prop where
  /-- The instructions are those of the lines. -/
  code : s'.current.code.toList = s.current.code.toList ++ lines.map Prod.fst
  /-- Their sources are those of the lines. -/
  spans : s'.current.spans.toList = s.current.spans.toList ++ lines.map Prod.snd

namespace Appends

variable {s s₁ s₂ : Lowering} {lines lines₁ lines₂ : List CodeLine}

theorem refl (s : Lowering) : s.Appends [] s := ⟨by simp, by simp⟩

theorem trans (h : s.Appends lines₁ s₁) (h' : s₁.Appends lines₂ s₂) :
    s.Appends (lines₁ ++ lines₂) s₂ :=
  ⟨by rw [h'.code, h.code, List.map_append, List.append_assoc],
    by rw [h'.spans, h.spans, List.map_append, List.append_assoc]⟩

/-- A state with the same current procedure. -/
theorem of_current (h : s₁.current = s.current) : s.Appends [] s₁ := ⟨by simp [h], by simp [h]⟩

theorem emitted (hs : s.Sound) (i : Instruction) (ty : Ty) (span : Span) :
    s.Appends [(i, span)] (s.emitted i ty span) := by
  have hcurrent := current_onCurrent (·.extend i ty span) hs.frame
  exact ⟨by simp [Lowering.emitted, hcurrent], by simp [Lowering.emitted, hcurrent]⟩

theorem allocated (hs : s.Sound) : s.Appends [] s.allocated := by
  have hcurrent := current_onCurrent (·.allocate) hs.frame
  exact ⟨by simp [Lowering.allocated, hcurrent], by simp [Lowering.allocated, hcurrent]⟩

/-- An instruction that computes a value into a register given out for it. -/
theorem computed (hs : s.Sound) (i : Instruction) (ty : Ty) (span : Span) :
    s.Appends [(i, span)] (s.allocated.emitted i ty span) :=
  (allocated hs).trans (emitted (Advances.allocated hs).sound i ty span)

theorem tie (hs : s.Sound) (c : LowerContext) (decl : NodeId) (r : Register) :
    s.Appends [] (s.tie c decl r) := by
  have hcurrent := current_tie hs.frame c decl r
  exact ⟨by simp [hcurrent], by simp [hcurrent]⟩

end Appends

/-! ### Layouts after steps -/

variable {s : Lowering}

theorem layout_emitted (hs : s.Sound) {i : Instruction} (hi : i.out ≠ .none) (ty : Ty)
    (span : Span) : (s.emitted i ty span).layout = s.layout.wrote i.out ty := by
  unfold layout emitted
  rw [current_onCurrent _ hs.frame]
  simp [Procedure.lastRegister_extend, Procedure.lastTy_extend, hi, Layout.wrote]

/-- An instruction without an output leaves the layout as it is. -/
theorem layout_emitted_none (hs : s.Sound) {i : Instruction} (hi : i.out = .none) (ty : Ty)
    (span : Span) : (s.emitted i ty span).layout = s.layout := by
  unfold layout emitted
  rw [current_onCurrent _ hs.frame]
  simp [Procedure.lastRegister_extend, Procedure.lastTy_extend, hi]

theorem layout_allocated (hs : s.Sound) : s.allocated.layout = s.layout.reserved := by
  unfold layout allocated
  rw [current_onCurrent _ hs.frame]
  rfl

theorem layout_computed (hs : s.Sound) {i : Instruction} (hi : i.out = s.current.nextRegister)
    (ty : Ty) (span : Span) :
    (s.allocated.emitted i ty span).layout = s.layout.computed ty := by
  have hne : i.out ≠ .none := hi ▸ Nat.ne_of_gt hs.current.next_pos
  rw [layout_emitted (Advances.allocated hs).sound hne, layout_allocated hs, hi]
  rfl

theorem layout_tie (hs : s.Sound) (c : LowerContext) (decl : NodeId) (r : Register) :
    (s.tie c decl r).layout = s.layout.withHome decl r := by
  unfold layout
  rw [current_tie hs.frame]
  rfl

/-- What a step has appended, and where it has left its value. -/
structure Wrote (s : Lowering) (p : Piece) (r : Register) (s' : Lowering) : Prop where
  /-- The value is in the register of the piece. -/
  value : r = p.value
  /-- The layout is that of the piece. -/
  layout : s'.layout = p.layout
  /-- The lines of the piece have been appended. -/
  appends : s.Appends p.code s'

end Lowering

/-! ### Steps -/

namespace Lower

open Lowering

variable {c : LowerContext} {s s' : Lowering}

theorem load_piece (hs : s.Sound) {w : Word} {ty : Ty} {span : Span} {r : Register}
    (h : load c w ty span s = .ok (r, s')) :
    s.Wrote (s.layout.load s.program.constants.size ty span) r s' := by
  obtain ⟨rfl, rfl⟩ := load_ok h
  have hs₁ := hs.withConstant w
  refine ⟨rfl, layout_computed hs₁ rfl ty span, ?_⟩
  have hsame : s.Appends [] (s.withConstant w) := .of_current rfl
  exact hsame.trans (.computed hs₁ _ ty span)

theorem convert_piece (hs : s.Sound) {value r : Register} {source dest : Ty} {span : Span}
    (h : convert c value source dest span s = .ok (r, s')) :
    s.Wrote (s.layout.convert value source dest span) r s' := by
  rcases convert_ok h with ⟨a, b, ha, hb, hne, rfl, rfl⟩ | ⟨hsame, rfl, rfl⟩
  · have hpiece : s.layout.convert value source dest span
        = ⟨[(⟨.convert a b, s.current.nextRegister, .register value, .none⟩, span)],
            s.current.nextRegister, s.layout.computed dest⟩ := by
      simp only [Layout.convert, ha, hb, if_neg hne]
      rfl
    rw [hpiece]
    exact ⟨rfl, layout_computed hs rfl dest span, .computed hs _ dest span⟩
  · rcases s.layout.convert_cases value source dest span with ⟨hnone, -⟩ | ⟨a, b, ha, hb, hne, -⟩
    · rw [hnone]
      exact ⟨rfl, rfl, .refl s⟩
    · exact (hne (hsame a b ha hb)).elim

theorem bind_piece (hs : s.Sound) {decl : NodeId} {value r : Register} (hvalue : s.Holds value)
    {span : Span} (h : bind c decl value span s = .ok (r, s')) :
    s.Wrote (s.layout.tie decl (c.typeOf decl) value span) r s' := by
  rcases bind_tie h with ⟨hbound, rfl, rfl⟩ | ⟨hbound, rfl, rfl⟩
  · have hpiece : s.layout.tie decl (c.typeOf decl) value span
        = ⟨[], value, s.layout.withHome decl value⟩ := by
      simp [Layout.tie, Layout.stage, Lowering.layout, hbound]
    rw [hpiece]
    exact ⟨rfl, layout_tie hs c decl value, .tie hs c decl value⟩
  · have hcopy := Advances.computed hs
      (.copy (Advances.fresh_inFrame hs) (hvalue.mono (Nat.le_succ _))) (c.typeOf decl) span
    have hpiece : s.layout.tie decl (c.typeOf decl) value span
        = ⟨[(⟨.copy, s.current.nextRegister, .register value, .none⟩, span)],
            s.current.nextRegister,
            (s.layout.computed (c.typeOf decl)).withHome decl s.current.nextRegister⟩ := by
      simp [Layout.tie, Layout.stage, Lowering.layout, hbound]
    rw [hpiece]
    refine ⟨rfl, ?_, ?_⟩
    · rw [layout_tie hcopy.sound, layout_computed hs rfl]
    · exact (Appends.computed hs _ (c.typeOf decl) span).trans (.tie hcopy.sound c decl _)

end Lower

end MiddleEnd
