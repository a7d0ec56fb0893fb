import MiddleEnd.Proofs.Machine.Safe

/-!
# Effects of instructions

What an instruction can do that does not fail, one case per operation.

## Main definitions

* `Machine.calls` — the calls that a procedure can make with some number of calls left.
* `Machine.Performs` — an instruction with its effect and the state it leaves.

## Main results

* `Machine.execute_eq` — a procedure is run over the calls that it can make.
* `Machine.calls_safe` — the calls that a procedure can make are safe.
* `Machine.performs_of_effect`, `Machine.effect_of_performs` — **the effect of an instruction that
  does not fail**.
-/

namespace MiddleEnd.Machine

variable {σ α β : Type}

/-- The calls that a procedure can make with `depth` nested calls left. -/
def calls (m : Machine σ) : Nat → Option (Procedure → Run σ Word)
  | 0 => none
  | depth + 1 => some fun callee => nested do return (← m.execute depth callee).1

/-- A procedure is run over the calls that it can make. -/
theorem execute_eq (m : Machine σ) (depth : Nat) (p : Procedure) :
    m.execute depth p = m.runProcedure (m.calls depth) p := by
  cases depth <;> rfl

/-- The calls that a procedure of a well-formed program can make are safe. -/
theorem calls_safe {m : Machine σ} {Q : Nat → NativeFunction → Prop} (hQ : m.Trusts Q)
    (hm : m.program.WellFormed) (depth : Nat) :
    ∀ f, m.calls depth = some f → ∀ q, q.WellFormed m.program → Safe Q (f q) fun _ => True := by
  intro f hf q hq
  cases depth with
  | zero => cases hf
  | succ depth =>
    cases hf
    exact nested_safe (.bind (execute_safe hQ hm depth hq) fun _ _ => .pure trivial)

/-! ### Computations that end well -/

theorem run_bind_ok {x : Run σ α} {f : α → Run σ β} {s s' : MachineState σ} {b : β} :
    (x >>= f).run s = (.ok b, s')
      ↔ ∃ a s₁, x.run s = (.ok a, s₁) ∧ (f a).run s₁ = (.ok b, s') := by
  rw [run_bind]
  cases hx : x.run s with
  | mk outcome s₁ =>
    cases outcome with
    | ok a =>
      constructor
      · intro h
        exact ⟨a, s₁, rfl, h⟩
      · rintro ⟨_, _, heq, h⟩
        cases heq
        exact h
    | error e =>
      constructor
      · intro h
        cases h
      · rintro ⟨_, _, heq, -⟩
        cases heq

theorem run_pure_ok {a b : α} {s s' : MachineState σ} :
    (pure a : Run σ α).run s = (.ok b, s') ↔ a = b ∧ s = s' := by
  constructor
  · intro h
    cases h
    exact ⟨rfl, rfl⟩
  · rintro ⟨rfl, rfl⟩
    rfl

theorem run_modifyGet_ok {f : MachineState σ → α × MachineState σ} {a : α}
    {s s' : MachineState σ} : (modifyGet f : Run σ α).run s = (.ok a, s') ↔ f s = (a, s') := by
  show (Except.ok (f s).1, (f s).2) = (Except.ok a, s') ↔ _
  generalize f s = r
  obtain ⟨a', s₁⟩ := r
  constructor
  · intro h
    cases h
    rfl
  · intro h
    cases h
    rfl

theorem run_fail_ok {site : Site} {fault : Fault} {a : α} {s s' : MachineState σ} :
    (site.fail fault : Run σ α).run s = (.ok a, s') ↔ False := by
  refine ⟨fun h => ?_, False.elim⟩
  cases h

theorem run_locate_ok {site : Site} {r : Except Fault α} {a : α} {s s' : MachineState σ} :
    (site.locate r : Run σ α).run s = (.ok a, s') ↔ r = .ok a ∧ s = s' := by
  cases r with
  | ok b =>
    rw [Site.locate, run_pure_ok]
    simp
  | error fault =>
    rw [Site.locate, run_fail_ok]
    simp

/-- A call that ends well is not broken off. -/
theorem run_nested_ok {x : Run σ α} {a : α} {s s' : MachineState σ} :
    (nested x).run s = (.ok a, s') ↔ x.run s = (.ok a, s') := by
  rw [nested_run]
  cases x.run s with
  | mk outcome s₁ =>
    cases outcome with
    | ok b => exact Iff.rfl
    | error h =>
      cases h with
      | failure f => exact Iff.rfl
      | misuse why =>
        constructor
        · intro h
          cases h
        · intro h
          cases h

theorem mapError_ok_iff {ε ε' : Type} {x : Except ε α} {f : ε → ε'} {a : α} :
    x.mapError f = .ok a ↔ x = .ok a := by
  cases x with
  | ok b =>
    show Except.ok b = Except.ok a ↔ _
    rw [Except.ok.injEq, Except.ok.injEq]
  | error e =>
    constructor
    · intro h
      cases h
    · intro h
      cases h

/-! ### Registers -/

theorem read_register_ok {frame : RegisterFile} {r : Register} {w : Word} :
    frame.read (.register r) = .ok w ↔ frame[r]? = some w := by
  simp only [RegisterFile.read]
  split
  · next w' hw => simp [hw]
  · next hw => simp [hw]

theorem write_ok_iff {frame frame' : RegisterFile} {out : Register} {w : Word} :
    frame.write out w = .ok frame' ↔ out ≠ .none ∧ ∃ h : out < frame.size,
      frame' = frame.set out w h := by
  unfold RegisterFile.write
  by_cases hnone : out = .none
  · simp [hnone]
  · by_cases hlt : out < frame.size
    · simp [hnone, hlt, eq_comm]
    · simp [hnone, hlt]

/-! ### Instructions -/

section

variable (m : Machine σ) (call : Option (Procedure → Run σ Word)) (site : Site)
  (frame : RegisterFile) (s : MachineState σ)

/-- An instruction that does not fail, with its effect and the state it leaves. -/
inductive Performs : Instruction → Effect → MachineState σ → Prop
  /-- Nothing happens. -/
  | noop {out : Register} {left right : Operand} : Performs ⟨.noop, out, left, right⟩ .skip s
  /-- The value of the operand is written. -/
  | copy {out : Register} {left right : Operand} {w : Word} (h : frame.read left = .ok w) :
      Performs ⟨.copy, out, left, right⟩ (.write w) s
  /-- A word of the pool is written. -/
  | loadConstant {out : Register} {right : Operand} {index : Nat} {w : Word}
      (h : m.program.constants[index]? = some w) :
      Performs ⟨.loadConstant, out, .constant index, right⟩ (.write w) s
  /-- The procedure is run and gives a value. -/
  | call {out : Register} {right : Operand} {index : Nat} {callee : Procedure}
      {f : Procedure → Run σ Word} {w : Word} {s' : MachineState σ}
      (hcallee : m.program.procedures[index]? = some callee) (hf : call = some f)
      (h : (f callee).run s = (.ok w, s')) :
      Performs ⟨.call, out, .procedure index, right⟩ (.write w) s'
  /-- The procedure is left with zero. -/
  | retNone {out : Register} {right : Operand} : Performs ⟨.ret, out, .none, right⟩ (.leave 0) s
  /-- The procedure is left with the value of the operand. -/
  | ret {out : Register} {left right : Operand} {w : Word} (hleft : left ≠ .none)
      (h : frame.read left = .ok w) : Performs ⟨.ret, out, left, right⟩ (.leave w) s
  /-- Native code is called and gives a value. -/
  | native {out : Register} {right : Operand} {index : Nat} {w : Word} {s' : MachineState σ}
      (h : (m.callNative site frame index).run s = (.ok (some w), s')) :
      Performs ⟨.callNative, out, .native index, right⟩ (.write w) s'
  /-- Native code is called and gives none. -/
  | nativeSilent {out : Register} {right : Operand} {index : Nat} {s' : MachineState σ}
      (h : (m.callNative site frame index).run s = (.ok none, s')) :
      Performs ⟨.callNative, out, .native index, right⟩ .skip s'
  /-- Both operands are read and the operation has a result. -/
  | binary {op : BinaryOp} {kind : Kind} {out : Register} {left right : Operand} {a b w : Word}
      (ha : frame.read left = .ok a) (hb : frame.read right = .ok b)
      (h : (ArithOp.binary op).apply kind a b = .ok w) :
      Performs ⟨.binary op kind, out, left, right⟩ (.write w) s
  /-- The operand is read and its sign can be changed. -/
  | negate {kind : Kind} {out : Register} {left right : Operand} {a w : Word}
      (ha : frame.read left = .ok a) (h : kind.negate a = .ok w) :
      Performs ⟨.negate kind, out, left, right⟩ (.write w) s
  /-- The operand is read and converted. -/
  | convert {source target : Kind} {out : Register} {left right : Operand} {a : Word}
      (ha : frame.read left = .ok a) :
      Performs ⟨.convert source target, out, left, right⟩ (.write (source.convert target a)) s

end

variable {m : Machine σ} {call : Option (Procedure → Run σ Word)} {site : Site}
  {frame : RegisterFile} {s s' : MachineState σ} {i : Instruction} {e : Effect}

/-- **What an instruction that does not fail has done**, one case per operation. -/
theorem performs_of_effect (h : (m.effect call site frame i).run s = (.ok e, s')) :
    m.Performs call site frame s i e s' := by
  obtain ⟨op, out, left, right⟩ := i
  unfold effect at h
  cases op with
  | noop =>
    obtain ⟨rfl, rfl⟩ := run_pure_ok.1 h
    exact .noop
  | copy =>
    simp only [run_bind_ok, run_locate_ok, run_pure_ok] at h
    obtain ⟨w, _, ⟨hw, rfl⟩, rfl, rfl⟩ := h
    exact .copy hw
  | loadConstant =>
    cases left with
    | constant index =>
      simp only at h
      cases hw : m.program.constants[index]? with
      | none =>
        rw [hw] at h
        exact (run_fail_ok.1 h).elim
      | some w =>
        rw [hw] at h
        obtain ⟨rfl, rfl⟩ := run_pure_ok.1 h
        exact .loadConstant hw
    -- Operands of other sorts are misused, and so there is no effect.
    | _ => exact (run_fail_ok.1 h).elim
  | call =>
    cases left with
    | procedure index =>
      simp only at h
      cases hcallee : m.program.procedures[index]? with
      | none =>
        rw [hcallee] at h
        exact (run_fail_ok.1 h).elim
      -- The callee is there; at depth zero it is refused all the same.
      | some callee =>
        rw [hcallee] at h
        cases hf : call with
        | none =>
          rw [hf] at h
          exact (run_fail_ok.1 h).elim
        | some f =>
          rw [hf] at h
          simp only [run_bind_ok, run_pure_ok] at h
          obtain ⟨w, _, hw, rfl, rfl⟩ := h
          exact .call hcallee rfl hw
    | _ => exact (run_fail_ok.1 h).elim
  | ret =>
    cases left with
    | none =>
      obtain ⟨rfl, rfl⟩ := run_pure_ok.1 h
      exact .retNone
    | register | constant | native | procedure =>
      simp only [run_bind_ok, run_locate_ok, run_pure_ok] at h
      obtain ⟨w, _, ⟨hw, rfl⟩, rfl, rfl⟩ := h
      exact .ret (by simp) hw
  | callNative =>
    cases left with
    | native index =>
      simp only [run_bind_ok] at h
      obtain ⟨w, s₁, hw, h⟩ := h
      -- Native code writes its output, if it has one.
      cases w with
      | none =>
        obtain ⟨rfl, rfl⟩ := run_pure_ok.1 h
        exact .nativeSilent hw
      | some w =>
        obtain ⟨rfl, rfl⟩ := run_pure_ok.1 h
        exact .native hw
    | _ => exact (run_fail_ok.1 h).elim
  | binary op kind =>
    simp only [run_bind_ok, run_locate_ok, run_pure_ok, mapError_ok_iff] at h
    obtain ⟨a, _, ⟨ha, rfl⟩, b, _, ⟨hb, rfl⟩, w, _, ⟨hw, rfl⟩, rfl, rfl⟩ := h
    exact .binary ha hb hw
  | negate kind =>
    simp only [run_bind_ok, run_locate_ok, run_pure_ok, mapError_ok_iff] at h
    obtain ⟨a, _, ⟨ha, rfl⟩, w, _, ⟨hw, rfl⟩, rfl, rfl⟩ := h
    exact .negate ha hw
  | convert source target =>
    simp only [run_bind_ok, run_locate_ok, run_pure_ok] at h
    obtain ⟨a, _, ⟨ha, rfl⟩, rfl, rfl⟩ := h
    exact .convert ha

/-- What an instruction can do has the effect that the machine computes. -/
theorem effect_of_performs (h : m.Performs call site frame s i e s') :
    (m.effect call site frame i).run s = (.ok e, s') := by
  cases h with
  | noop => rfl
  | copy h | convert h =>
    simp only [effect, run_bind_ok, run_locate_ok, run_pure_ok]
    exact ⟨_, s, ⟨h, rfl⟩, rfl, rfl⟩
  | loadConstant h =>
    simp only [effect, h]
    rfl
  | call hcallee hf h =>
    simp only [effect, hcallee, hf, run_bind_ok, run_pure_ok]
    exact ⟨_, s', h, rfl, rfl⟩
  | retNone => rfl
  | @ret out left right w hleft h =>
    cases left with
    | none => exact (hleft rfl).elim
    | register | constant | native | procedure =>
      simp only [effect, run_bind_ok, run_locate_ok, run_pure_ok]
      exact ⟨w, s, ⟨h, rfl⟩, rfl, rfl⟩
  | native h =>
    simp only [effect, run_bind_ok]
    exact ⟨some _, s', h, rfl⟩
  | nativeSilent h =>
    simp only [effect, run_bind_ok]
    exact ⟨none, s', h, rfl⟩
  | binary ha hb h =>
    simp only [effect, run_bind_ok, run_locate_ok, run_pure_ok, mapError_ok_iff]
    exact ⟨_, s, ⟨ha, rfl⟩, _, s, ⟨hb, rfl⟩, _, s, ⟨h, rfl⟩, rfl, rfl⟩
  | negate ha h =>
    simp only [effect, run_bind_ok, run_locate_ok, run_pure_ok, mapError_ok_iff]
    exact ⟨_, s, ⟨ha, rfl⟩, _, s, ⟨h, rfl⟩, rfl, rfl⟩

/-! ### Instructions that fail -/

theorem effect_binary_error {op : BinaryOp} {kind : Kind} {out : Register} {left right : Operand}
    {a b : Word} {err : ArithError} (ha : frame.read left = .ok a) (hb : frame.read right = .ok b)
    (h : (ArithOp.binary op).apply kind a b = .error err) :
    (m.effect call site frame ⟨.binary op kind, out, left, right⟩).run s
      = (.error (.failure (site.failure (.arith err))), s) := by
  simp only [effect, ha, hb]
  show (site.locate (((ArithOp.binary op).apply kind a b).mapError Fault.arith)
    >>= fun w => (pure (.write w) : Run σ Effect)).run s = _
  rw [h]
  rfl

theorem effect_negate_error {kind : Kind} {out : Register} {left right : Operand} {a : Word}
    {err : ArithError} (ha : frame.read left = .ok a) (h : kind.negate a = .error err) :
    (m.effect call site frame ⟨.negate kind, out, left, right⟩).run s
      = (.error (.failure (site.failure (.arith err))), s) := by
  simp only [effect, ha]
  show (site.locate ((kind.negate a).mapError Fault.arith)
    >>= fun w => (pure (.write w) : Run σ Effect)).run s = _
  rw [h]
  rfl

/-- A call that may not be nested any more. -/
theorem effect_call_none {out : Register} {right : Operand} {index : Nat} {callee : Procedure}
    (hcallee : m.program.procedures[index]? = some callee) :
    (m.effect none site frame ⟨.call, out, .procedure index, right⟩).run s
      = (.error (.failure (site.failure (.callDepth m.maxCallDepth))), s) := by
  simp only [effect, hcallee]
  rfl

/-- A call whose callee fails. -/
theorem effect_call_error {out : Register} {right : Operand} {index : Nat} {callee : Procedure}
    {f : Procedure → Run σ Word} {failure : Failure}
    (hcallee : m.program.procedures[index]? = some callee)
    (h : (f callee).run s = (.error (.failure failure), s')) :
    (m.effect (some f) site frame ⟨.call, out, .procedure index, right⟩).run s
      = (.error (.failure failure), s') := by
  simp only [effect, hcallee]
  rw [run_bind, h]

/-! ### Returns -/

/-- A return leaves, and nothing else does. -/
theorem Performs.leaves_iff (h : m.Performs call site frame s i e s') :
    (∃ w, e = .leave w) ↔ i.op = .ret := by
  cases h <;> simp

end MiddleEnd.Machine
