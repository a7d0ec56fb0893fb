import MiddleEnd.Proofs.Runs

/-!
# Steps of lowering

Every step that adds to the code under construction is a change of the state, and each is given
here by the state that it leaves.  All that is lowered is a chain of these steps.

## Main definitions

* `Procedure.extend`, `Procedure.allocate` — append an instruction, give out a register.
* `Lowering.onCurrent` — change the procedure being lowered and nothing else.
* `Lowering.withConstant`, `Lowering.withNative` — add to the pools.
* `Lowering.tie` — give a declaration its register.

## Main results

* `Lower.emit_ok`, `Lower.fresh_ok`, `Lower.load_ok`, `Lower.convert_ok`, `Lower.bind_tie`,
  `Lower.addNative_ok` — when a step comes to its end, and with which state.
-/

namespace MiddleEnd

open Runs

namespace Procedure

/-- Append an instruction whose value, if it writes one, has type `ty`. -/
def extend (p : Procedure) (i : Instruction) (ty : Ty) (span : Span) : Procedure :=
  let p := p.push i span
  if i.out = .none then p else { p with lastRegister := i.out, lastTy := ty }

/-- Give out the next register. -/
def allocate (p : Procedure) : Procedure := { p with nextRegister := p.nextRegister + 1 }

@[simp] theorem code_extend (p : Procedure) (i : Instruction) (ty : Ty) (span : Span) :
    (p.extend i ty span).code = p.code.push i := by
  unfold extend push
  split <;> rfl

@[simp] theorem spans_extend (p : Procedure) (i : Instruction) (ty : Ty) (span : Span) :
    (p.extend i ty span).spans = p.spans.push span := by
  unfold extend push
  split <;> rfl

@[simp] theorem registers_extend (p : Procedure) (i : Instruction) (ty : Ty) (span : Span) :
    (p.extend i ty span).registers = p.registers := by
  unfold extend push
  split <;> rfl

@[simp] theorem nextRegister_extend (p : Procedure) (i : Instruction) (ty : Ty) (span : Span) :
    (p.extend i ty span).nextRegister = p.nextRegister := by
  unfold extend push
  split <;> rfl

theorem lastRegister_extend (p : Procedure) (i : Instruction) (ty : Ty) (span : Span) :
    (p.extend i ty span).lastRegister = if i.out = .none then p.lastRegister else i.out := by
  unfold extend push
  split <;> rfl

theorem lastTy_extend (p : Procedure) (i : Instruction) (ty : Ty) (span : Span) :
    (p.extend i ty span).lastTy = if i.out = .none then p.lastTy else ty := by
  unfold extend push
  split <;> rfl

@[simp] theorem code_allocate (p : Procedure) : p.allocate.code = p.code := rfl

@[simp] theorem spans_allocate (p : Procedure) : p.allocate.spans = p.spans := rfl

@[simp] theorem registers_allocate (p : Procedure) : p.allocate.registers = p.registers := rfl

@[simp] theorem nextRegister_allocate (p : Procedure) :
    p.allocate.nextRegister = p.nextRegister + 1 := rfl

@[simp] theorem lastRegister_allocate (p : Procedure) :
    p.allocate.lastRegister = p.lastRegister := rfl

@[simp] theorem lastTy_allocate (p : Procedure) : p.allocate.lastTy = p.lastTy := rfl

end Procedure

namespace Lowering

/-- Change the procedure being lowered. -/
def onCurrent (s : Lowering) (f : Procedure → Procedure) : Lowering :=
  { s with
    program := { s.program with procedures := s.program.procedures.modify s.frame.index f } }

/-- Put a word into the pool. -/
def withConstant (s : Lowering) (w : Word) : Lowering :=
  { s with program := { s.program with constants := s.program.constants.push w } }

/-- Add native code to the table. -/
def withNative (s : Lowering) (call : NativeCall) : Lowering :=
  { s with program := { s.program with natives := s.program.natives.push call } }

/-- The state after a construct has been refused. -/
def withProblem (s : Lowering) (p : LoweringProblem) : Lowering :=
  { s with problems := s.problems.push p }

/-- The symbols once `decl` has its register: only declarations of the outermost scope count. -/
def symbolsWith (s : Lowering) (c : LowerContext) (decl : NodeId) (register : Register) :
    Std.TreeMap String Register :=
  if s.frame.index = 0 ∧ c.links.enclosingScope? c.tree decl = some c.root then
    match (c.tree.shape decl).declaredName? with
    | some name => s.program.dataSymbols.insert name register
    | none => s.program.dataSymbols
  else s.program.dataSymbols

/-- Give `decl` its register in the procedure being lowered. -/
def tie (s : Lowering) (c : LowerContext) (decl : NodeId) (register : Register) : Lowering :=
  let s' :=
    { s with
      frame := { s.frame with bound := s.frame.bound.insert register }
      ownerOf := s.ownerOf.insert decl s.frame.index
      program := { s.program with dataSymbols := s.symbolsWith c decl register } }
  s'.onCurrent fun p => { p with registers := p.registers.insert decl register }

/-- Append an instruction to the procedure being lowered. -/
def emitted (s : Lowering) (i : Instruction) (ty : Ty) (span : Span) : Lowering :=
  s.onCurrent (·.extend i ty span)

/-- Give out a register of the procedure being lowered. -/
def allocated (s : Lowering) : Lowering := s.onCurrent (·.allocate)

/-- Add a procedure without code, which `id` stands for from now on. -/
def opened (s : Lowering) (id : NodeId) (name : String) (isConstant : Bool) : Lowering :=
  { s with
    program :=
      { s.program with
        procedures := s.program.procedures.push (.empty name)
        textSymbols :=
          if isConstant then s.program.textSymbols.insert name s.program.procedures.size
          else s.program.textSymbols }
    procedureOf := s.procedureOf.insert id s.program.procedures.size }

/-- Go on in another procedure. -/
def inFrame (s : Lowering) (frame : Frame) : Lowering := { s with frame }

section Fields

variable (s : Lowering) (f : Procedure → Procedure)

@[simp] theorem frame_onCurrent : (s.onCurrent f).frame = s.frame := rfl

@[simp] theorem constants_onCurrent :
    (s.onCurrent f).program.constants = s.program.constants := rfl

@[simp] theorem natives_onCurrent : (s.onCurrent f).program.natives = s.program.natives := rfl

@[simp] theorem procedureOf_onCurrent : (s.onCurrent f).procedureOf = s.procedureOf := rfl

@[simp] theorem ownerOf_onCurrent : (s.onCurrent f).ownerOf = s.ownerOf := rfl

@[simp] theorem problems_onCurrent : (s.onCurrent f).problems = s.problems := rfl

@[simp] theorem size_onCurrent :
    (s.onCurrent f).program.procedures.size = s.program.procedures.size := by
  simp [onCurrent]

theorem getElem?_onCurrent (j : Nat) :
    (s.onCurrent f).program.procedures[j]?
      = if s.frame.index = j then s.program.procedures[j]?.map f
        else s.program.procedures[j]? := by
  simp only [onCurrent, Array.getElem?_modify]

variable {s}

theorem getElem?_current (h : s.frame.index < s.program.procedures.size) :
    s.program.procedures[s.frame.index]? = some s.current := by
  simp [current, h]

theorem current_onCurrent (h : s.frame.index < s.program.procedures.size) :
    (s.onCurrent f).current = f s.current := by
  have hget : (s.onCurrent f).program.procedures[s.frame.index]? = some (f s.current) := by
    rw [getElem?_onCurrent, if_pos rfl, getElem?_current h]
    rfl
  unfold current
  rw [frame_onCurrent, hget]
  simp [current]

theorem current_tie (h : s.frame.index < s.program.procedures.size) (c : LowerContext)
    (decl : NodeId) (r : Register) :
    (s.tie c decl r).current
      = { s.current with registers := s.current.registers.insert decl r } := by
  unfold tie
  exact current_onCurrent _ h

end Fields

end Lowering

namespace Lower

variable {c : LowerContext} {s s' : Lowering}

/-! ### Steps that cannot fail -/

theorem modifyCurrent_ok {f : Procedure → Procedure} {u : Unit} :
    modifyCurrent f s = .ok (u, s') ↔ s' = s.onCurrent f := by
  simp only [modifyCurrent, modifyProgram, bind_ok, get_ok, modify_ok, Lowering.onCurrent]
  constructor
  · rintro ⟨_, _, ⟨rfl, rfl⟩, rfl⟩
    rfl
  · rintro rfl
    exact ⟨s, s, ⟨rfl, rfl⟩, rfl⟩

theorem emit_ok {i : Instruction} {ty : Ty} {span : Span} {u : Unit} :
    emit i ty span s = .ok (u, s') ↔ s' = s.emitted i ty span :=
  modifyCurrent_ok

theorem copy_ok {out value : Register} {ty : Ty} {span : Span} {u : Unit} :
    copy out value ty span s = .ok (u, s')
      ↔ s' = s.emitted ⟨.copy, out, .register value, .none⟩ ty span :=
  emit_ok

theorem report_ok {p : LoweringProblem} {u : Unit} :
    report p s = .ok (u, s') ↔ s' = s.withProblem p := by
  simp [report, modify_ok, Lowering.withProblem]

theorem isBound_ok {r : Register} {b : Bool} :
    isBound r s = .ok (b, s') ↔ s.frame.bound.contains r = b ∧ s = s' := by
  simp only [isBound, bind_ok, get_ok, pure_ok]
  constructor
  · rintro ⟨_, _, ⟨rfl, rfl⟩, rfl, rfl⟩
    exact ⟨rfl, rfl⟩
  · rintro ⟨rfl, rfl⟩
    exact ⟨s, s, ⟨rfl, rfl⟩, rfl, rfl⟩

/-! ### Steps that may run into a limit -/

theorem misuse_ok {α : Type} {m : Misuse} {r : α × Lowering} : misuse m s = .ok r ↔ False :=
  throw_ok

theorem exhausted_ok {α : Type} {l : Limit} {r : α × Lowering} : exhausted l s = .ok r ↔ False :=
  throw_ok

theorem fresh_ok {span : Span} {r : Register} :
    fresh c span s = .ok (r, s')
      ↔ s.current.nextRegister ≤ c.registerLimit ∧ r = s.current.nextRegister
        ∧ s' = s.allocated := by
  simp only [fresh, bind_ok, get_ok]
  constructor
  · rintro ⟨_, _, ⟨rfl, rfl⟩, h⟩
    split at h
    · simp [exhausted_ok, bind_ok] at h
    · next hlimit =>
      simp only [bind_ok, modifyCurrent_ok, pure_ok] at h
      obtain ⟨_, _, rfl, rfl, rfl⟩ := h
      exact ⟨Nat.le_of_not_lt hlimit, rfl, rfl⟩
  · rintro ⟨hlimit, rfl, rfl⟩
    refine ⟨s, s, ⟨rfl, rfl⟩, ?_⟩
    rw [if_neg (Nat.not_lt.2 hlimit)]
    simp only [bind_ok, modifyCurrent_ok, pure_ok]
    exact ⟨⟨⟩, s.allocated, rfl, trivial, rfl⟩

theorem constant_ok {w : Word} {span : Span} {index : Nat}
    (h : constant w span s = .ok (index, s')) :
    index = s.program.constants.size ∧ s' = s.withConstant w := by
  simp only [constant, bind_ok, get_ok] at h
  obtain ⟨_, _, ⟨rfl, rfl⟩, h⟩ := h
  split at h
  · simp [exhausted_ok, bind_ok] at h
  · simp only [bind_ok, modifyProgram, modify_ok, pure_ok] at h
    obtain ⟨_, _, rfl, rfl, rfl⟩ := h
    exact ⟨rfl, rfl⟩

theorem addNative_ok {call : NativeCall} {span : Span} {index : Nat}
    (h : addNative call span s = .ok (index, s')) :
    index = s.program.natives.size ∧ s' = s.withNative call := by
  simp only [addNative, bind_ok, get_ok] at h
  obtain ⟨_, _, ⟨rfl, rfl⟩, h⟩ := h
  split at h
  · simp [exhausted_ok, bind_ok] at h
  · simp only [bind_ok, modifyProgram, modify_ok, pure_ok] at h
    obtain ⟨_, _, rfl, rfl, rfl⟩ := h
    exact ⟨rfl, rfl⟩

/-! ### Composed steps -/

theorem load_ok {w : Word} {ty : Ty} {span : Span} {r : Register}
    (h : load c w ty span s = .ok (r, s')) :
    r = s.current.nextRegister
      ∧ s' = (s.withConstant w).allocated.emitted
          ⟨.loadConstant, r, .constant s.program.constants.size, .none⟩ ty span := by
  simp only [load, bind_ok, fresh_ok, emit_ok, pure_ok] at h
  obtain ⟨index, _, hconst, out, _, ⟨-, rfl, rfl⟩, _, _, rfl, rfl, rfl⟩ := h
  obtain ⟨rfl, rfl⟩ := constant_ok hconst
  exact ⟨rfl, rfl⟩

/-- A conversion between two kinds is an instruction; all else is left as it is. -/
theorem convert_ok {value : Register} {source dest : Ty} {span : Span} {r : Register}
    (h : convert c value source dest span s = .ok (r, s')) :
    (∃ a b, Kind.ofTy? source = some a ∧ Kind.ofTy? dest = some b ∧ a ≠ b
        ∧ r = s.current.nextRegister
        ∧ s' = s.allocated.emitted ⟨.convert a b, r, .register value, .none⟩ dest span)
      ∨ ((∀ a b, Kind.ofTy? source = some a → Kind.ofTy? dest = some b → a = b)
        ∧ value = r ∧ s = s') := by
  unfold convert at h
  cases ha : Kind.ofTy? source with
  | none =>
    rw [ha] at h
    obtain ⟨rfl, rfl⟩ := pure_ok.1 h
    exact .inr ⟨by simp, rfl, rfl⟩
  | some a =>
    cases hb : Kind.ofTy? dest with
    | none =>
      rw [ha, hb] at h
      obtain ⟨rfl, rfl⟩ := pure_ok.1 h
      exact .inr ⟨by simp, rfl, rfl⟩
    | some b =>
      rw [ha, hb] at h
      -- Values of one kind are the same words.
      by_cases hab : a = b
      · simp only [if_pos hab] at h
        obtain ⟨rfl, rfl⟩ := pure_ok.1 h
        exact .inr ⟨by simpa using hab, rfl, rfl⟩
      · simp only [if_neg hab, bind_ok, fresh_ok, emit_ok, pure_ok] at h
        obtain ⟨_, _, ⟨-, rfl, rfl⟩, _, _, rfl, rfl, rfl⟩ := h
        exact .inl ⟨a, b, rfl, rfl, hab, rfl, rfl⟩

/-- The last part of `bind`, once the register is chosen. -/
theorem tie_ok {decl : NodeId} {register r : Register}
    (h : (do
        modify fun s =>
          { s with
            frame := { s.frame with bound := s.frame.bound.insert register }
            ownerOf := s.ownerOf.insert decl s.frame.index }
        modifyCurrent fun p => { p with registers := p.registers.insert decl register }
        if (← get).frame.index = 0 ∧ c.links.enclosingScope? c.tree decl = some c.root then
          if let some name := (c.tree.shape decl).declaredName? then
            modifyProgram fun p => { p with dataSymbols := p.dataSymbols.insert name register }
        return register : Lower Register) s = .ok (r, s')) :
    r = register ∧ s' = s.tie c decl register := by
  simp only [bind_ok, modify_ok, modifyCurrent_ok, get_ok] at h
  obtain ⟨_, _, rfl, _, _, rfl, _, _, ⟨rfl, rfl⟩, h⟩ := h
  -- Only the outermost scope of the program has names that are seen from outside.
  by_cases hroot : s.frame.index = 0 ∧ c.links.enclosingScope? c.tree decl = some c.root
  · rw [if_pos (by simpa using hroot)] at h
    cases hname : (c.tree.shape decl).declaredName? with
    | none =>
      rw [hname] at h
      obtain ⟨rfl, rfl⟩ := pure_ok.1 h
      exact ⟨rfl, by simp [Lowering.tie, Lowering.onCurrent, Lowering.symbolsWith, hname]⟩
    | some name =>
      simp only [hname, bind_ok, modifyProgram, modify_ok, pure_ok] at h
      obtain ⟨_, _, rfl, rfl, rfl⟩ := h
      exact ⟨rfl, by
        simp [Lowering.tie, Lowering.onCurrent, Lowering.symbolsWith, hroot, hname]⟩
  · rw [if_neg (by simpa using hroot)] at h
    obtain ⟨rfl, rfl⟩ := pure_ok.1 h
    exact ⟨rfl, by simp [Lowering.tie, Lowering.onCurrent, Lowering.symbolsWith, hroot]⟩

/-- A register that is tied already is copied first. -/
theorem bind_tie {decl : NodeId} {value : Register} {span : Span} {r : Register}
    (h : bind c decl value span s = .ok (r, s')) :
    (s.frame.bound.contains value = false ∧ value = r ∧ s' = s.tie c decl r)
      ∨ (s.frame.bound.contains value = true ∧ r = s.current.nextRegister
        ∧ s' = (s.allocated.emitted ⟨.copy, r, .register value, .none⟩ (c.typeOf decl)
            span).tie c decl r) := by
  unfold bind at h
  obtain ⟨b, _, hb, h⟩ := bind_ok.1 h
  obtain ⟨rfl, rfl⟩ := isBound_ok.1 hb
  cases hbound : s.frame.bound.contains value with
  | true =>
    simp only [hbound, if_true] at h
    obtain ⟨_, _, hfresh, h⟩ := bind_ok.1 h
    obtain ⟨-, rfl, rfl⟩ := fresh_ok.1 hfresh
    obtain ⟨_, _, hcopy, h⟩ := bind_ok.1 h
    obtain rfl := copy_ok.1 hcopy
    obtain ⟨_, _, hp, h⟩ := bind_ok.1 h
    obtain ⟨rfl, rfl⟩ := pure_ok.1 hp
    obtain ⟨rfl, rfl⟩ := tie_ok h
    exact .inr ⟨rfl, rfl, rfl⟩
  | false =>
    simp only [hbound] at h
    obtain ⟨_, _, hp, h⟩ := bind_ok.1 h
    obtain ⟨rfl, rfl⟩ := pure_ok.1 hp
    obtain ⟨rfl, rfl⟩ := tie_ok h
    exact .inl ⟨rfl, rfl, rfl⟩

end Lower

end MiddleEnd
