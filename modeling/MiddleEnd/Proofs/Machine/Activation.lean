import MiddleEnd.Proofs.Machine.Effects
import Mathlib.Logic.Relation

/-!
# Activations

The run of one procedure, instruction by instruction.  The machine runs a list of instructions to
its end; here the same run is a chain of steps between points of the code, so that something can be
said about what is executed and what is not.

## Main definitions

* `Machine.Point` — an activation between two instructions.
* `Machine.Step` — one instruction that is executed without leaving or failing.
* `Machine.Reaches` — any number of them.
* `Machine.Ends` — the points where an activation ends well.
* `Machine.advance` — the points of an activation, computed.
* `Machine.Activated` — the activations in the history of a machine.
* `Machine.ending` — how an activation ends that has come to a point.

## Main results

* `Machine.execute_ending` — running a procedure is one activation of it.
* `Machine.Reaches.ending_eq` — steps do not change how an activation ends.
* `Machine.Reaches.through` — every position on the way is reached.
* `Machine.Reaches.pc_le_of_ret` — nothing behind a return is ever reached.
* `Machine.reaches_end` — an activation that ends well has come to its end or to a return.
* `Machine.crosses` — code without returns is left at its end, unless it fails.
-/

namespace MiddleEnd.Machine

variable {σ : Type}

/-- An activation between two instructions. -/
structure Point (σ : Type) where
  /-- The instruction that comes next. -/
  pc : Nat
  /-- The registers. -/
  frame : RegisterFile
  /-- The value written last. -/
  last : Word
  /-- What else changes while the machine runs. -/
  state : MachineState σ

/-- Where an activation begins. -/
def Point.start (p : Procedure) (s : MachineState σ) : Point σ := ⟨0, .zeroed p.frameSize, 0, s⟩

variable (m : Machine σ) (call : Option (Procedure → Run σ Word)) (p : Procedure)

/-- One instruction that is executed without leaving or failing. -/
inductive Step : Point σ → Point σ → Prop
  /-- An instruction that writes nothing. -/
  | skip {k : Point σ} {i : Instruction} {s : MachineState σ} (hi : p.code[k.pc]? = some i)
      (heffect : (m.effect call ⟨p, k.pc⟩ k.frame i).run k.state = (.ok .skip, s)) :
      Step k ⟨k.pc + 1, k.frame, k.last, s⟩
  /-- An instruction whose value goes to a register. -/
  | write {k : Point σ} {i : Instruction} {s : MachineState σ} {w : Word} {frame : RegisterFile}
      (hi : p.code[k.pc]? = some i)
      (heffect : (m.effect call ⟨p, k.pc⟩ k.frame i).run k.state = (.ok (.write w), s))
      (hframe : k.frame.write i.out w = .ok frame) : Step k ⟨k.pc + 1, frame, w, s⟩

/-- The points that an activation comes to after `k`. -/
def Reaches : Point σ → Point σ → Prop := Relation.ReflTransGen (m.Step call p)

/-- Where an activation ends well: behind its last instruction, or at a return. -/
inductive Ends : Point σ → Word → RegisterFile → MachineState σ → Prop
  /-- There is no instruction left, and the value written last counts. -/
  | falls {k : Point σ} (hpc : p.code.size ≤ k.pc) : Ends k k.last k.frame k.state
  /-- A return, with the value that it hands over. -/
  | leaves {k : Point σ} {i : Instruction} {w : Word} {s : MachineState σ}
      (hi : p.code[k.pc]? = some i)
      (h : m.Performs call ⟨p, k.pc⟩ k.frame k.state i (.leave w) s) : Ends k w k.frame s

/-- How an activation ends that has come to a point. -/
def ending (k : Point σ) : Except Halt (Word × RegisterFile) × MachineState σ :=
  (m.runFrom call p k.pc (p.code.toList.drop k.pc) k.frame k.last).run k.state

variable {m call p} {k k' : Point σ}

theorem runProcedure_ending (s : MachineState σ) :
    (m.runProcedure call p).run s = m.ending call p (.start p s) := rfl

/-- Running a procedure is one activation of it, over the calls that it can make. -/
theorem execute_ending (m : Machine σ) (depth : Nat) (p : Procedure) (s : MachineState σ) :
    (m.execute depth p).run s = m.ending (m.calls depth) p (.start p s) := by
  rw [execute_eq, runProcedure_ending]

/-! ### One instruction -/

/-- The end of an activation is that of its next instruction, and from there that of what
follows. -/
theorem ending_cons {i : Instruction} (hi : p.code[k.pc]? = some i) :
    m.ending call p k
      = match (m.effect call ⟨p, k.pc⟩ k.frame i).run k.state with
        | (.ok .skip, s) => m.ending call p ⟨k.pc + 1, k.frame, k.last, s⟩
        | (.ok (.leave w), s) => (.ok (w, k.frame), s)
        | (.ok (.write w), s) =>
          match k.frame.write i.out w with
          | .ok frame => m.ending call p ⟨k.pc + 1, frame, w, s⟩
          | .error fault => (.error (.failure (Site.failure ⟨p, k.pc⟩ fault)), s)
        | (.error h, s) => (.error h, s) := by
  -- What is left of the code starts with this instruction.
  have hdrop : p.code.toList.drop k.pc = i :: p.code.toList.drop (k.pc + 1) := by
    obtain ⟨hlt, rfl⟩ := Array.getElem?_eq_some_iff.1 hi
    rw [List.drop_eq_getElem_cons (by simpa using hlt), Array.getElem_toList]
  unfold ending
  rw [hdrop, runFrom, run_bind]
  cases (m.effect call ⟨p, k.pc⟩ k.frame i).run k.state with
  | mk outcome s =>
    cases outcome with
    | error h => rfl
    | ok e =>
      cases e with
      | skip => rfl
      | leave w => rfl
      | write w =>
        simp only [run_bind]
        cases k.frame.write i.out w <;> rfl

/-- An activation ends behind its last instruction, with the value written last. -/
theorem ending_of_size_le (hpc : p.code.size ≤ k.pc) :
    m.ending call p k = (.ok (k.last, k.frame), k.state) := by
  unfold ending
  rw [List.drop_eq_nil_of_le (by simpa using hpc)]
  rfl

variable (m call) in
/-- An instruction that is no return is passed, or the activation fails at it. -/
theorem step_or_error {i : Instruction} (hi : p.code[k.pc]? = some i) (hop : i.op ≠ .ret) :
    (∃ k', m.Step call p k k') ∨ ∃ h s, m.ending call p k = (.error h, s) := by
  have hending : m.ending call p k = _ := ending_cons hi
  cases heffect : (m.effect call ⟨p, k.pc⟩ k.frame i).run k.state with
  | mk outcome s =>
    rw [heffect] at hending
    cases outcome with
    | error h => exact .inr ⟨h, s, hending⟩
    | ok e =>
      cases e with
      | skip => exact .inl ⟨_, .skip hi heffect⟩
      | leave w => exact (hop ((performs_of_effect heffect).leaves_iff.1 ⟨w, rfl⟩)).elim
      | write w =>
        cases hframe : k.frame.write i.out w with
        | ok frame => exact .inl ⟨_, .write hi heffect hframe⟩
        | error fault =>
          simp only [hframe] at hending
          exact .inr ⟨_, s, hending⟩

namespace Step

theorem pc_eq (h : m.Step call p k k') : k'.pc = k.pc + 1 := by
  cases h <;> rfl

theorem ending_eq (h : m.Step call p k k') : m.ending call p k = m.ending call p k' := by
  cases h with
  | skip hi heffect => rw [ending_cons hi, heffect]
  | write hi heffect hframe =>
    rw [ending_cons hi, heffect]
    simp only [hframe]

/-- An executed instruction writes nothing, or its word is in the frame afterwards. -/
theorem performs (h : m.Step call p k k') {i : Instruction} (hi : p.code[k.pc]? = some i) :
    (∃ s, m.Performs call ⟨p, k.pc⟩ k.frame k.state i .skip s)
      ∨ ∃ w s, m.Performs call ⟨p, k.pc⟩ k.frame k.state i (.write w) s
          ∧ k'.frame[i.out]? = some w := by
  cases h with
  | skip hi' heffect =>
    obtain rfl := Option.some.inj (hi.symm.trans hi')
    exact .inl ⟨_, performs_of_effect heffect⟩
  | write hi' heffect hframe =>
    obtain rfl := Option.some.inj (hi.symm.trans hi')
    obtain ⟨-, hlt, rfl⟩ := write_ok_iff.1 hframe
    exact .inr ⟨_, _, performs_of_effect heffect, Array.getElem?_set_self hlt⟩

/-- Nothing is executed after a return. -/
theorem op_ne_ret (h : m.Step call p k k') {i : Instruction} (hi : p.code[k.pc]? = some i) :
    i.op ≠ .ret := by
  intro hop
  rcases h.performs hi with ⟨_, hperforms⟩ | ⟨_, _, hperforms, -⟩
  all_goals
    obtain ⟨w, hw⟩ := hperforms.leaves_iff.2 hop
    cases hw

end Step

/-! ### Any number of instructions -/

namespace Reaches

theorem refl (k : Point σ) : m.Reaches call p k k := Relation.ReflTransGen.refl

theorem single (h : m.Step call p k k') : m.Reaches call p k k' := Relation.ReflTransGen.single h

theorem trans {k'' : Point σ} (h : m.Reaches call p k k') (h' : m.Reaches call p k' k'') :
    m.Reaches call p k k'' :=
  Relation.ReflTransGen.trans h h'

theorem ending_eq (h : m.Reaches call p k k') : m.ending call p k = m.ending call p k' := by
  induction h with
  | refl => rfl
  | tail _ hstep ih => exact ih.trans hstep.ending_eq

theorem pc_le (h : m.Reaches call p k k') : k.pc ≤ k'.pc := by
  induction h with
  | refl => exact Nat.le_refl _
  | tail _ hstep ih =>
    rw [hstep.pc_eq]
    exact Nat.le_succ_of_le ih

/-- Nothing is executed where the next instruction stays the same. -/
theorem eq_of_pc (h : m.Reaches call p k k') (hpc : k'.pc ≤ k.pc) : k' = k := by
  cases h with
  | refl => rfl
  | tail hreach hstep =>
    have hle := pc_le hreach
    rw [hstep.pc_eq] at hpc
    omega

/-- Where one instruction is passed, one step has been made. -/
theorem step_of_pc (h : m.Reaches call p k k') (hpc : k'.pc = k.pc + 1) : m.Step call p k k' := by
  cases h with
  | refl => omega
  | tail hreach hstep =>
    rw [hstep.pc_eq] at hpc
    obtain rfl := eq_of_pc hreach (Nat.le_of_eq (Nat.succ.inj hpc))
    exact hstep

/-- Every position on the way is reached. -/
theorem through (h : m.Reaches call p k k') (pc : Nat) (hle : k.pc ≤ pc) (hle' : pc ≤ k'.pc) :
    ∃ k₁, m.Reaches call p k k₁ ∧ k₁.pc = pc ∧ m.Reaches call p k₁ k' := by
  induction h with
  | refl => exact ⟨k, .refl k, Nat.le_antisymm hle hle', .refl k⟩
  | @tail k₂ k₃ hreach hstep ih =>
    -- A position is either passed before the last step, or is where that step leads.
    rw [hstep.pc_eq] at hle'
    rcases Nat.lt_or_eq_of_le hle' with hlt | rfl
    · obtain ⟨k₁, hto, hpc, hfrom⟩ := ih (Nat.le_of_lt_succ hlt)
      exact ⟨k₁, hto, hpc, hfrom.trans (.single hstep)⟩
    · exact ⟨k₃, Reaches.trans hreach (.single hstep), hstep.pc_eq, .refl k₃⟩

/-- **Nothing behind a return is ever reached** from before it. -/
theorem pc_le_of_ret {pc : Nat} {i : Instruction} (hi : p.code[pc]? = some i) (hop : i.op = .ret)
    (hpc : k.pc ≤ pc) (h : m.Reaches call p k k') : k'.pc ≤ pc := by
  induction h with
  | refl => exact hpc
  | @tail k₁ k₂ _ hstep ih =>
    rw [hstep.pc_eq]
    refine Nat.lt_of_le_of_ne ih fun heq => ?_
    exact hstep.op_ne_ret (heq ▸ hi) hop

end Reaches

variable (m call) in
/-- **Code without returns is left at its end**, unless the activation fails in it. -/
theorem crosses {stop : Nat} (hstop : stop ≤ p.code.size) (hk : k.pc ≤ stop)
    (hcode : ∀ (pc : Nat) (i : Instruction), k.pc ≤ pc → pc < stop → p.code[pc]? = some i →
      i.op ≠ .ret) :
    (∃ k', m.Reaches call p k k' ∧ k'.pc = stop) ∨ ∃ h s, m.ending call p k = (.error h, s) := by
  -- Every step goes one instruction on, so the distance to the end is what decreases.
  induction hn : stop - k.pc generalizing k with
  | zero => exact .inl ⟨k, .refl k, by omega⟩
  | succ n ih =>
    have hlt : k.pc < p.code.size := by omega
    have hi := Array.getElem?_eq_getElem hlt
    rcases step_or_error m call hi (hcode k.pc _ (Nat.le_refl _) (by omega) hi)
      with ⟨k₁, hstep⟩ | herror
    · have hpc := hstep.pc_eq
      have hnext := ih (k := k₁) (by omega) (fun pc i hle => hcode pc i (by omega)) (by omega)
      rcases hnext with ⟨k', hreach, hk'⟩ | ⟨h, s, herror⟩
      · exact .inl ⟨k', (Reaches.single hstep).trans hreach, hk'⟩
      · exact .inr ⟨h, s, hstep.ending_eq.trans herror⟩
    · exact .inr herror

/-- An activation that ends well has come to its end or to a return. -/
theorem reaches_end {w : Word} {frame : RegisterFile} {s : MachineState σ}
    (h : m.ending call p k = (.ok (w, frame), s)) :
    ∃ k', m.Reaches call p k k' ∧ m.Ends call p k' w frame s := by
  -- By the number of instructions that are left.
  induction hn : p.code.size - k.pc generalizing k with
  | zero =>
    have hpc : p.code.size ≤ k.pc := by omega
    rw [ending_of_size_le hpc] at h
    cases h
    exact ⟨k, .refl k, .falls hpc⟩
  | succ n ih =>
    have hi := Array.getElem?_eq_getElem (show k.pc < p.code.size by omega)
    -- A step leaves one instruction less.
    have next {k₁ : Point σ} (hstep : m.Step call p k k₁) :
        ∃ k', m.Reaches call p k k' ∧ m.Ends call p k' w frame s := by
      have hpc := hstep.pc_eq
      obtain ⟨k', hreach, hend⟩ := ih (k := k₁) (hstep.ending_eq ▸ h) (by omega)
      exact ⟨k', (Reaches.single hstep).trans hreach, hend⟩
    rw [ending_cons hi] at h
    split at h
    · next heffect => exact next (.skip hi heffect)
    · next heffect =>
      cases h
      exact ⟨k, .refl k, .leaves hi (performs_of_effect heffect)⟩
    · next heffect =>
      split at h
      · next hframe => exact next (.write hi heffect hframe)
      · cases h
    · cases h

/-! ### Execution -/

section

variable (m call p)

/-- The next point, if the next instruction is executed without leaving or failing. -/
def next? (k : Point σ) : Option (Point σ) :=
  match p.code[k.pc]? with
  | none => none
  | some i =>
    match (m.effect call ⟨p, k.pc⟩ k.frame i).run k.state with
    | (.ok .skip, s) => some ⟨k.pc + 1, k.frame, k.last, s⟩
    | (.ok (.write w), s) =>
      match k.frame.write i.out w with
      | .ok frame => some ⟨k.pc + 1, frame, w, s⟩
      | .error _ => none
    | _ => none

/-- The point after some number of instructions. -/
def advance : Nat → Point σ → Option (Point σ)
  | 0, k => some k
  | n + 1, k => (next? m call p k).bind (advance n)

end

/-- The activations in the history of a machine, with the calls that may still be nested in them:
the procedures that it is asked to run, and those that are called from there. -/
inductive Activated (m : Machine σ) : Nat → Procedure → MachineState σ → Prop
  /-- The machine is asked to run a procedure. -/
  | entered {p : Procedure} {s : MachineState σ} {index : Nat} (h : m.Reachable s)
      (hp : m.program.procedures[index]? = some p) :
      Activated m (m.maxCallDepth - s.openCalls) p s
  /-- A call is reached in an activation in which calls may still be nested. -/
  | called {depth : Nat} {p callee : Procedure} {s : MachineState σ} {k : Point σ}
      {i : Instruction} {index : Nat} (h : Activated m (depth + 1) p s)
      (hk : m.Reaches (m.calls (depth + 1)) p (.start p s) k) (hi : p.code[k.pc]? = some i)
      (hop : i.op = .call) (hleft : i.left = .procedure index)
      (hcallee : m.program.procedures[index]? = some callee) : Activated m depth callee k.state

end MiddleEnd.Machine
