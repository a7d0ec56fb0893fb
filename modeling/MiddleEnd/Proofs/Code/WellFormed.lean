import MiddleEnd.Code.Program

/-!
# Well-formed programs

What the machine expects of the code it is given: operands of the right shape, registers inside the
frame of their own procedure, and indices inside the pools of the program.

## Main definitions

* `Register.InFrame` — a register that a procedure has given out.
* `Instruction.Fits` — an instruction as the machine expects it, one case per operation.
* `Program.Covered` — the pools of one program are within those of another one.
* `Procedure.WellFormed`, `Program.WellFormed` — every instruction fits and has a source span.

## Main results

* `Instruction.Fits.out_eq_none_iff` — which instructions write no register.
* `Instruction.Fits.mono` — code keeps fitting when pools and frames grow.
-/

namespace MiddleEnd

/-- A register below the next one to be given out, other than the sentinel. -/
def Register.InFrame (next r : Register) : Prop := 0 < r ∧ r < next

theorem Register.InFrame.mono {next next' r : Register} (h : InFrame next r) (hle : next ≤ next') :
    InFrame next' r :=
  ⟨h.1, Nat.lt_of_lt_of_le h.2 hle⟩

theorem Register.InFrame.ne_none {next r : Register} (h : InFrame next r) : r ≠ .none :=
  Nat.ne_of_gt h.1

/-- An instruction in a procedure of `p` whose registers are those below `next`. -/
inductive Instruction.Fits (p : Program) (next : Register) : Instruction → Prop
  /-- A copy between two registers of the frame. -/
  | copy {out r : Register} (hout : Register.InFrame next out) (hr : Register.InFrame next r) :
      Fits p next ⟨.copy, out, .register r, .none⟩
  /-- A load of a constant that is in the pool. -/
  | loadConstant {out : Register} {index : Nat} (hout : Register.InFrame next out)
      (hindex : index < p.constants.size) :
      Fits p next ⟨.loadConstant, out, .constant index, .none⟩
  /-- A call of a procedure of the program. -/
  | call {out : Register} {index : Nat} (hout : Register.InFrame next out)
      (hindex : index < p.procedures.size) : Fits p next ⟨.call, out, .procedure index, .none⟩
  /-- A return without a value. -/
  | retNone : Fits p next ⟨.ret, .none, .none, .none⟩
  /-- A return of the value in a register of the frame. -/
  | ret {r : Register} (hr : Register.InFrame next r) :
      Fits p next ⟨.ret, .none, .register r, .none⟩
  /-- A call of native code in the table, whose inputs are in registers of the frame.  It writes the
  register of its output, and none if there is no output. -/
  | callNative {index : Nat} {native : NativeCall} (hindex : p.natives[index]? = some native)
      (hinputs : ∀ slot ∈ native.inputs, Register.InFrame next slot.register)
      (houtput : ∀ slot, native.output = some slot → Register.InFrame next slot.register) :
      Fits p next
        ⟨.callNative, (native.output.map NativeSlot.register).getD .none, .native index, .none⟩
  /-- An operation on two registers of the frame. -/
  | binary {op : BinaryOp} {kind : Kind} {out a b : Register}
      (hout : Register.InFrame next out) (ha : Register.InFrame next a)
      (hb : Register.InFrame next b) :
      Fits p next ⟨.binary op kind, out, .register a, .register b⟩
  /-- A change of sign of a register of the frame. -/
  | negate {kind : Kind} {out r : Register} (hout : Register.InFrame next out)
      (hr : Register.InFrame next r) : Fits p next ⟨.negate kind, out, .register r, .none⟩
  /-- A conversion of a register of the frame. -/
  | convert {source target : Kind} {out r : Register} (hout : Register.InFrame next out)
      (hr : Register.InFrame next r) :
      Fits p next ⟨.convert source target, out, .register r, .none⟩

/-- The pools of one program are within those of another one. -/
structure Program.Covered (p p' : Program) : Prop where
  /-- The other pool of constants is no shorter. -/
  constants : p.constants.size ≤ p'.constants.size
  /-- The other program has no fewer procedures. -/
  procedures : p.procedures.size ≤ p'.procedures.size
  /-- The other table has the same native code at the same place. -/
  natives : ∀ (index : Nat) (native : NativeCall), p.natives[index]? = some native →
    p'.natives[index]? = some native

/-- A procedure whose instructions all fit it, with a source for each of them. -/
structure Procedure.WellFormed (program : Program) (p : Procedure) : Prop where
  /-- There is a source for each instruction. -/
  spans_size : p.spans.size = p.code.size
  /-- Every instruction has the operands that its opcode asks for, within the tables and the
  frame. -/
  fits : ∀ i ∈ p.code, i.Fits program p.nextRegister

/-- Every procedure is well formed, and there is one to start with. -/
structure Program.WellFormed (p : Program) : Prop where
  /-- There is a procedure to start with. -/
  start : 0 < p.procedures.size
  /-- Every procedure fits the tables of the program. -/
  procedures : ∀ (j : Nat) (q : Procedure), p.procedures[j]? = some q → q.WellFormed p

namespace Instruction

/-- A call of native code without an output. -/
def CallsSilent (p : Program) (i : Instruction) : Prop :=
  i.op = .callNative
    ∧ ∃ index native, i.left = .native index ∧ p.natives[index]? = some native
        ∧ native.output = none

variable {p p' : Program} {next next' : Register} {i : Instruction}

/-- An instruction that writes no register leaves the procedure or calls native code without an
output, and conversely. -/
theorem Fits.out_eq_none_iff (h : i.Fits p next) :
    i.out = .none ↔ i.op = .ret ∨ i.CallsSilent p := by
  cases h with
  | copy hout hr => simp [CallsSilent, hout.ne_none]
  | loadConstant hout hindex => simp [CallsSilent, hout.ne_none]
  | call hout hindex => simp [CallsSilent, hout.ne_none]
  | retNone => simp
  | ret hr => simp
  | @callNative index native hindex hinputs houtput =>
    cases hnative : native.output with
    | none => simp [CallsSilent, hindex, hnative]
    | some slot => simp [CallsSilent, hindex, hnative, (houtput slot hnative).ne_none]
  | binary hout ha hb => simp [CallsSilent, hout.ne_none]
  | negate hout hr => simp [CallsSilent, hout.ne_none]
  | convert hout hr => simp [CallsSilent, hout.ne_none]

/-- A register that a fitting instruction writes is in the frame. -/
theorem Fits.out_inFrame (h : i.Fits p next) (hout : i.out ≠ .none) :
    Register.InFrame next i.out := by
  cases h with
  | copy h _ | loadConstant h _ | call h _ | binary h _ _ | negate h _ | convert h _ => exact h
  | retNone | ret _ => exact (hout rfl).elim
  | @callNative index native hindex hinputs houtput =>
    cases hnative : native.output with
    | none => simp [hnative] at hout
    | some slot => simpa using houtput slot hnative

/-- Code keeps fitting when pools and frames grow. -/
theorem Fits.mono (h : i.Fits p next) (hp : p.Covered p') (hnext : next ≤ next') :
    i.Fits p' next' := by
  cases h with
  | copy hout hr => exact .copy (hout.mono hnext) (hr.mono hnext)
  | loadConstant hout hindex =>
    exact .loadConstant (hout.mono hnext) (Nat.lt_of_lt_of_le hindex hp.constants)
  | call hout hindex => exact .call (hout.mono hnext) (Nat.lt_of_lt_of_le hindex hp.procedures)
  | retNone => exact .retNone
  | ret hr => exact .ret (hr.mono hnext)
  | callNative hindex hinputs houtput =>
    exact .callNative (hp.natives _ _ hindex) (fun slot hslot => (hinputs slot hslot).mono hnext)
      fun slot hslot => (houtput slot hslot).mono hnext
  | binary hout ha hb => exact .binary (hout.mono hnext) (ha.mono hnext) (hb.mono hnext)
  | negate hout hr => exact .negate (hout.mono hnext) (hr.mono hnext)
  | convert hout hr => exact .convert (hout.mono hnext) (hr.mono hnext)

end Instruction

end MiddleEnd
