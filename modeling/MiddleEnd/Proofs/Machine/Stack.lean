import MiddleEnd.Proofs.Machine.Activation
import MiddleEnd.Proofs.Machine.Closed
import Mathlib.Logic.Function.Iterate

/-!
# The machine with its stack

The machine runs a procedure by recursion: a call is run to its end before the instruction behind it
is executed.  Here the same run is a sequence of single steps of a machine that keeps the procedures
it has entered on a stack and counts the open calls.  Such a sequence could go on for ever, so that
it says something that it does not; and the stack can be looked at on the way.

## Main definitions

* `Machine.StackFrame`, `Machine.Caller` — a procedure that has been entered, and one that waits for
  a call.
* `Machine.Config` — the machine between two steps.
* `Machine.next` — one step: an instruction, or a failure that passes a caller.
* `Machine.Leads` — some number of steps.
* `Machine.Calls` — the next instruction is a call.
* `Machine.begin` — where the run of a program begins.

## Main results

* `Machine.next_running_cases` — all that a step can be.
* `Machine.leads_finish` — a procedure that has been entered is left as running it says.
* `Machine.run_halts` — **every run comes to its end**, with the outcome that the machine gives.
* `Machine.run_eq_of_leads` — the steps of a run determine its outcome.
-/

namespace MiddleEnd

namespace MachineState

variable {σ : Type}

/-- One call less is open. -/
def closed (s : MachineState σ) : MachineState σ := { s with openCalls := s.openCalls - 1 }

end MachineState

namespace Machine

/-- A procedure that has been entered and not been left. -/
structure StackFrame where
  /-- Its code is executed. -/
  procedure : Procedure
  /-- The instruction that comes next, or the call that is waited for. -/
  pc : Nat
  /-- Its registers. -/
  registers : RegisterFile
  /-- The value written last. -/
  last : Word

/-- A procedure that waits for a call to write its register `out`. -/
structure Caller where
  /-- The procedure, at its call. -/
  frame : StackFrame
  /-- The register that gets the value. -/
  out : Register

/-- The machine between two steps.  All calls that are open are counted in its state, those of the
callers with those that have been broken off before. -/
inductive Config (σ : Type) where
  /-- The top of the stack is executed; the callers are given innermost first. -/
  | running (top : StackFrame) (callers : List Caller) (s : MachineState σ)
  /-- A failure is on its way through the callers. -/
  | failing (f : Failure) (callers : List Caller) (s : MachineState σ)
  /-- The run is over. -/
  | halted (outcome : Except Halt RunOutput) (s : MachineState σ)

namespace StackFrame

variable {σ : Type}

/-- A procedure that has just been entered. -/
def enter (p : Procedure) : StackFrame := ⟨p, 0, .zeroed p.frameSize, 0⟩

/-- Where the frame on top stands, as the place of a failure. -/
def site (top : StackFrame) : Site := ⟨top.procedure, top.pc⟩

/-- The procedure as an activation between two instructions. -/
def point (top : StackFrame) (s : MachineState σ) : Point σ := ⟨top.pc, top.registers, top.last, s⟩

/-- Behind the next instruction. -/
def skip (top : StackFrame) : StackFrame := { top with pc := top.pc + 1 }

/-- Behind the next instruction, which has written `w`. -/
def wrote (top : StackFrame) (registers : RegisterFile) (w : Word) : StackFrame :=
  ⟨top.procedure, top.pc + 1, registers, w⟩

end StackFrame

namespace Config

variable {σ : Type}

/-- The next instruction writes `w` to its output. -/
def resume (top : StackFrame) (out : Register) (w : Word) (callers : List Caller)
    (s : MachineState σ) : Config σ :=
  match top.registers.write out w with
  | .ok registers => .running (top.wrote registers w) callers s
  | .error fault => .failing (top.site.failure fault) callers s

/-- The top of the stack is left with the value `w`.  This closes the call that led to it. -/
def leave (w : Word) (registers : RegisterFile) : List Caller → MachineState σ → Config σ
  | [], s => .halted (.ok ⟨w, registers⟩) s
  | caller :: callers, s => resume caller.frame caller.out w callers s.closed

/-- What an instruction that is no call does to the top of the stack.  A misuse is not passed on: it
stops the machine as it is. -/
def after (top : StackFrame) (callers : List Caller) (i : Instruction) :
    Except Halt Effect × MachineState σ → Config σ
  | (.ok .skip, s) => .running top.skip callers s
  | (.ok (.write w), s) => resume top i.out w callers s
  | (.ok (.leave w), s) => leave w top.registers callers s
  | (.error (.failure f), s) => .failing f callers s
  | (.error (.misuse why), s) => .halted (.error (.misuse why)) s

/-- The top of the stack has come to its end. -/
def finish (callers : List Caller) :
    Except Halt (Word × RegisterFile) × MachineState σ → Config σ
  | (.ok (w, registers), s) => leave w registers callers s
  | (.error (.failure f), s) => .failing f callers s
  | (.error (.misuse why), s) => .halted (.error (.misuse why)) s

end Config

variable {σ : Type} (m : Machine σ)

/-- The procedure that an instruction calls, if it is a call that can be read. -/
def callee? (i : Instruction) : Option Procedure :=
  match i.op, i.left with
  | .call, .procedure index => m.program.procedures[index]?
  | _, _ => none

/-- One step.  A call is refused if as many calls are open as may be; a failure closes the calls
that it passes. -/
def next : Config σ → Config σ
  | .running top callers s =>
    match top.procedure.code[top.pc]? with
    | none => .leave top.last top.registers callers s
    | some i =>
      match m.callee? i with
      | none => .after top callers i ((m.effect none top.site top.registers i).run s)
      | some callee =>
        if m.maxCallDepth ≤ s.openCalls then
          .failing (top.site.failure (.callDepth m.maxCallDepth)) callers s
        else .running (.enter callee) (⟨top, i.out⟩ :: callers) s.opened
  | .failing f [] s => .halted (.error (.failure f)) s
  | .failing f (_ :: callers) s => .failing f callers s.closed
  | .halted outcome s => .halted outcome s

/-- Some number of steps leads from one configuration to another. -/
def Leads (c c' : Config σ) : Prop := ∃ n, m.next^[n] c = c'

/-- The next instruction of `top` calls `callee` for its register `out`. -/
def Calls (top : StackFrame) (out : Register) (callee : Procedure) : Prop :=
  ∃ i, top.procedure.code[top.pc]? = some i ∧ i.out = out ∧ m.callee? i = some callee

/-- Where the run of the program begins. -/
def begin (s : MachineState σ) : Config σ :=
  match m.program.procedures[0]? with
  | none => .halted (.error (.failure ⟨.malformed .noStart, "start", 0, .nowhere⟩)) s
  | some p => .running (.enter p) [] s

variable {m} {c c' c'' : Config σ} {top : StackFrame} {callers : List Caller}
  {s s' : MachineState σ} {i : Instruction} {callee : Procedure}

namespace Leads

theorem refl (c : Config σ) : m.Leads c c := ⟨0, rfl⟩

theorem single (h : m.next c = c') : m.Leads c c' := ⟨1, h⟩

theorem trans (h : m.Leads c c') (h' : m.Leads c' c'') : m.Leads c c'' := by
  obtain ⟨n, rfl⟩ := h
  obtain ⟨n', rfl⟩ := h'
  exact ⟨n' + n, Function.iterate_add_apply m.next n' n c⟩

end Leads

/-! ### One instruction -/

theorem callee?_eq_some (h : m.callee? i = some callee) :
    ∃ index, i.op = .call ∧ i.left = .procedure index
      ∧ m.program.procedures[index]? = some callee := by
  unfold callee? at h
  split at h
  · next index hop hleft => exact ⟨index, hop, hleft, h⟩
  · cases h

/-- Only an instruction that calls a procedure depends on the limit and on the calls that can be
made. -/
theorem effect_of_callee?_none' (h : m.callee? i = none) (limit : Nat)
    (call : Option (Procedure → Run σ Word)) (site : Site) (frame : RegisterFile) :
    Machine.effect { m with maxCallDepth := limit } call site frame i
      = m.effect none site frame i := by
  obtain ⟨op, out, left, right⟩ := i
  unfold callee? at h
  cases op with
  | call =>
    cases left with
    | procedure index =>
      simp only at h
      simp only [effect, h]
    | none | register | constant | native => rfl
  | noop | copy | loadConstant | ret | callNative | binary | negate | convert => rfl

theorem effect_of_callee?_none (h : m.callee? i = none) (call : Option (Procedure → Run σ Word))
    (site : Site) (frame : RegisterFile) :
    m.effect call site frame i = m.effect none site frame i :=
  effect_of_callee?_none' h m.maxCallDepth call site frame

theorem effect_of_callee?_zero (h : m.callee? i = some callee) (site : Site) (frame : RegisterFile)
    (s : MachineState σ) :
    (m.effect (m.calls 0) site frame i).run s
      = (.error (.failure (site.failure (.callDepth m.maxCallDepth))), s) := by
  obtain ⟨index, hop, hleft, hcallee⟩ := callee?_eq_some h
  obtain ⟨op, out, left, right⟩ := i
  obtain rfl : op = .call := hop
  obtain rfl : left = .procedure index := hleft
  exact effect_call_none hcallee

/-- A call that may be made gives what its callee gives. -/
theorem effect_of_callee?_succ (h : m.callee? i = some callee) (depth : Nat) (site : Site)
    (frame : RegisterFile) (s : MachineState σ) :
    (m.effect (m.calls (depth + 1)) site frame i).run s
      = match (m.execute depth callee).run s with
        | (.ok (w, _), s) => (.ok (.write w), s)
        | (.error (.failure f), s) => (.error (.failure f), s)
        | (.error (.misuse why), s) => (.error (.misuse why), s.opened) := by
  obtain ⟨index, hop, hleft, hcallee⟩ := callee?_eq_some h
  obtain ⟨op, out, left, right⟩ := i
  obtain rfl : op = .call := hop
  obtain rfl : left = .procedure index := hleft
  simp only [effect, calls, hcallee, run_bind, nested_run]
  generalize (m.execute depth callee).run s = r
  obtain ⟨outcome, s'⟩ := r
  cases outcome with
  | ok a => rfl
  | error e => cases e <;> rfl

/-! ### One step -/

theorem next_end (h : top.procedure.code[top.pc]? = none) :
    m.next (.running top callers s) = .leave top.last top.registers callers s := by
  simp only [next, h]

theorem next_after (hi : top.procedure.code[top.pc]? = some i) (h : m.callee? i = none) :
    m.next (.running top callers s)
      = .after top callers i ((m.effect none top.site top.registers i).run s) := by
  simp only [next, hi, h]

theorem next_enter {out : Register} (h : m.Calls top out callee)
    (hlimit : s.openCalls < m.maxCallDepth) :
    m.next (.running top callers s)
      = .running (.enter callee) (⟨top, out⟩ :: callers) s.opened := by
  obtain ⟨i, hi, rfl, hcallee⟩ := h
  simp only [next, hi, hcallee, if_neg (Nat.not_le.2 hlimit)]

theorem next_refuse {out : Register} (h : m.Calls top out callee)
    (hlimit : m.maxCallDepth ≤ s.openCalls) :
    m.next (.running top callers s)
      = .failing (top.site.failure (.callDepth m.maxCallDepth)) callers s := by
  obtain ⟨i, hi, rfl, hcallee⟩ := h
  simp only [next, hi, hcallee, if_pos hlimit]

/-- All that a step can be while the top of the stack is executed: its end, an instruction that
calls no procedure, a call that is refused, or one that is entered. -/
theorem next_running_cases (m : Machine σ) (top : StackFrame) (callers : List Caller)
    (s : MachineState σ) :
    (top.procedure.code[top.pc]? = none
      ∧ m.next (.running top callers s) = .leave top.last top.registers callers s)
    ∨ (∃ i, top.procedure.code[top.pc]? = some i ∧ m.callee? i = none
      ∧ m.next (.running top callers s)
        = .after top callers i ((m.effect none top.site top.registers i).run s))
    ∨ (∃ out callee, m.Calls top out callee ∧ m.maxCallDepth ≤ s.openCalls
      ∧ m.next (.running top callers s)
        = .failing (top.site.failure (.callDepth m.maxCallDepth)) callers s)
    ∨ (∃ out callee, m.Calls top out callee ∧ s.openCalls < m.maxCallDepth
      ∧ m.next (.running top callers s)
        = .running (.enter callee) (⟨top, out⟩ :: callers) s.opened) := by
  cases hi : top.procedure.code[top.pc]? with
  | none => exact .inl ⟨rfl, next_end hi⟩
  | some i =>
    cases hcallee : m.callee? i with
    | none => exact .inr (.inl ⟨i, rfl, hcallee, next_after hi hcallee⟩)
    | some callee =>
      have hcalls : m.Calls top i.out callee := ⟨i, hi, rfl, hcallee⟩
      by_cases hlimit : m.maxCallDepth ≤ s.openCalls
      · exact .inr (.inr (.inl ⟨i.out, callee, hcalls, hlimit, next_refuse hcalls hlimit⟩))
      · have hlimit := Nat.not_le.1 hlimit
        exact .inr (.inr (.inr ⟨i.out, callee, hcalls, hlimit, next_enter hcalls hlimit⟩))

/-! ### Runs with and without a stack -/

theorem nativeFunction_opened (m : Machine σ) (index : Nat) (call : NativeCall)
    (s : MachineState σ) :
    m.nativeFunction index call s.opened
      = ((m.nativeFunction index call s).1, (m.nativeFunction index call s).2.opened) := by
  unfold nativeFunction
  cases hf : s.functions[index]? with
  | some f => simp only [MachineState.opened, hf]
  | none =>
    simp only [MachineState.opened, hf]
    cases m.backend.compile s.backend call with
    | mk result backend =>
      cases result with
      | error e => rfl
      | ok f => by_cases hfits : f.fits call <;> simp [hfits]

/-- A run does not look at the calls that are open around it. -/
theorem execute_opened (m : Machine σ) (depth : Nat) (p : Procedure) (s : MachineState σ) :
    (m.execute depth p).run s.opened
      = (((m.execute depth p).run s).1, ((m.execute depth p).run s).2.opened) := by
  have hclosed : m.Closed (Respects fun s s' => s' = s.opened) := by
    refine closed_respects ?_ ?_ ?_
    · rintro index call - s _ rfl
      rw [nativeFunction_opened]
      exact ⟨rfl, rfl⟩
    · rintro e s _ rfl
      rfl
    · rintro s _ rfl
      rfl
  obtain ⟨houtcome, hstate⟩ := hclosed.execute depth p s s.opened rfl
  exact Prod.ext houtcome.symm hstate

/-- A step at an instruction, over the calls that running the procedure makes.  `callees` says the
same of the procedures that are called from here. -/
theorem leads_after {depth : Nat} (hdepth : m.maxCallDepth - s.openCalls = depth)
    (hi : top.procedure.code[top.pc]? = some i)
    (callees : ∀ callee depth', depth = depth' + 1 →
      m.Leads (.running (.enter callee) (⟨top, i.out⟩ :: callers) s.opened)
        (.finish (⟨top, i.out⟩ :: callers) ((m.execute depth' callee).run s.opened))) :
    m.Leads (.running top callers s)
      (.after top callers i ((m.effect (m.calls depth) top.site top.registers i).run s)) := by
  cases hcallee : m.callee? i with
  -- An instruction that calls nothing is one step.
  | none =>
    rw [effect_of_callee?_none hcallee]
    exact .single (next_after hi hcallee)
  | some callee =>
    have hcalls : m.Calls top i.out callee := ⟨i, hi, rfl, hcallee⟩
    cases depth with
    -- At the limit the call is refused.
    | zero =>
      rw [effect_of_callee?_zero hcallee]
      exact .single (next_refuse hcalls (by omega))
    | succ depth =>
      -- The procedure is entered, runs to its end, and its caller goes on.
      have henter : m.next (.running top callers s) = _ := next_enter hcalls (by omega)
      refine (Leads.single henter).trans ((callees callee depth rfl).trans ?_)
      rw [effect_of_callee?_succ hcallee, execute_opened]
      generalize (m.execute depth callee).run s = r
      obtain ⟨outcome, s'⟩ := r
      cases outcome with
      | ok a => exact .refl _
      | error e =>
        cases e with
        | failure f => exact .single rfl
        | misuse why => exact .refl _

/-- An instruction that is executed leaves no call open. -/
theorem effect_openCalls {depth : Nat} {site : Site} {frame : RegisterFile} {e : Effect}
    (h : (m.effect (m.calls depth) site frame i).run s = (.ok e, s')) :
    s'.openCalls = s.openCalls := by
  have hclosed := closed_keepsCalls m
  have hkept := hclosed.effect (hclosed.calls depth) site frame i s
  rw [h] at hkept
  rcases hkept with ⟨why, hwhy⟩ | hkept
  · cases hwhy
  · exact hkept

/-- The end of the top of the stack is that of its next instruction, and from there that of what
follows. -/
theorem ending_point {call : Option (Procedure → Run σ Word)}
    (hi : top.procedure.code[top.pc]? = some i) :
    m.ending call top.procedure (top.point s)
      = match (m.effect call top.site top.registers i).run s with
        | (.ok .skip, s) => m.ending call top.procedure (top.skip.point s)
        | (.ok (.leave w), s) => (.ok (w, top.registers), s)
        | (.ok (.write w), s) =>
          match top.registers.write i.out w with
          | .ok registers => m.ending call top.procedure ((top.wrote registers w).point s)
          | .error fault => (.error (.failure (top.site.failure fault)), s)
        | (.error h, s) => (.error h, s) :=
  ending_cons hi

/-- **A procedure that has been entered is left as running it says.** -/
theorem leads_finish {depth : Nat} (hdepth : m.maxCallDepth - s.openCalls = depth) :
    m.Leads (.running top callers s)
      (.finish callers (m.ending (m.calls depth) top.procedure (top.point s))) := by
  -- A call leaves one nested call less; within a procedure the rest of the code gets shorter.
  induction depth using Nat.strongRecOn generalizing top callers s with
  | ind depth ihDepth =>
  induction hn : top.procedure.code.size - top.pc generalizing top s with
  | zero =>
    have hpc : top.procedure.code.size ≤ top.pc := by omega
    rw [ending_of_size_le hpc]
    exact .single (next_end (Array.getElem?_eq_none hpc))
  | succ n ih =>
    have hi := Array.getElem?_eq_getElem (show top.pc < top.procedure.code.size by omega)
    generalize top.procedure.code[top.pc] = i at hi
    refine (leads_after hdepth hi fun callee depth' heq => ?_).trans ?_
    · rw [execute_ending]
      have hdepth' : m.maxCallDepth - s.opened.openCalls = depth' := by
        show m.maxCallDepth - (s.openCalls + 1) = depth'
        omega
      exact ihDepth depth' (by omega) hdepth'
    -- The instruction leaves no call open, so the bound goes on as it was.
    have hcalls {e : Effect} {s' : MachineState σ}
        (h : (m.effect (m.calls depth) top.site top.registers i).run s = (.ok e, s')) :
        m.maxCallDepth - s'.openCalls = depth := by
      rw [effect_openCalls h]
      exact hdepth
    rw [ending_point hi]
    generalize hr : (m.effect (m.calls depth) top.site top.registers i).run s = r
    obtain ⟨outcome, s'⟩ := r
    cases outcome with
    | error h => cases h <;> exact .refl _
    | ok e =>
      cases e with
      | skip => exact ih (hcalls hr) (show top.procedure.code.size - (top.pc + 1) = n by omega)
      | leave w => exact .refl _
      | write w =>
        simp only [Config.after, Config.resume]
        cases hwrite : top.registers.write i.out w with
        | error fault => exact .refl _
        | ok registers =>
          exact ih (hcalls hr)
            (show top.procedure.code.size - (top.pc + 1) = n by omega)

/-! ### Whole runs -/

/-- A procedure with nothing below it on the stack comes to the end that entering it has. -/
theorem enter_halts (m : Machine σ) (p : Procedure) (s : MachineState σ) :
    m.Leads (.running (.enter p) [] s)
      (.halted (((m.enter p).run s).1.map fun a => ⟨a.1, a.2⟩) ((m.enter p).run s).2) := by
  have hfinish : m.Leads (.running (.enter p) [] s) _ := leads_finish rfl
  refine hfinish.trans ?_
  rw [enter_run, execute_ending]
  show m.Leads (.finish [] (m.ending _ p (.start p s))) _
  generalize m.ending _ p (.start p s) = r
  obtain ⟨outcome, s'⟩ := r
  cases outcome with
  | ok a => exact .refl _
  | error h =>
    cases h with
    | failure f => exact .single rfl
    | misuse why => exact .refl _

/-- A program is run by entering its first procedure. -/
theorem run_run {p : Procedure} (hp : m.program.procedures[0]? = some p) (s : MachineState σ) :
    m.run.run s = (((m.enter p).run s).1.map fun a => ⟨a.1, a.2⟩, ((m.enter p).run s).2) := by
  simp only [run, hp]
  exact run_bind_pure (m.enter p) _ s

/-- **Every run comes to its end**, with the outcome that the machine gives. -/
theorem run_halts (m : Machine σ) (s : MachineState σ) :
    m.Leads (m.begin s) (.halted (m.run.run s).1 (m.run.run s).2) := by
  cases hp : m.program.procedures[0]? with
  | none =>
    simp only [begin, run, hp]
    exact .refl _
  | some p =>
    simp only [begin, hp]
    rw [run_run hp]
    exact enter_halts m p s

/-! ### The end of a run -/

theorem iterate_halted (m : Machine σ) (n : Nat) (outcome : Except Halt RunOutput)
    (s : MachineState σ) : m.next^[n] (.halted outcome s) = .halted outcome s :=
  Function.iterate_fixed rfl n

/-- A run comes to one end only. -/
theorem Leads.halted_eq {outcome outcome' : Except Halt RunOutput}
    (h : m.Leads c (.halted outcome s)) (h' : m.Leads c (.halted outcome' s')) :
    (outcome, s) = (outcome', s') := by
  obtain ⟨n, hn⟩ := h
  obtain ⟨n', hn'⟩ := h'
  -- Whichever end is reached first stays as it is until the other is.
  have hend : m.next^[n + n'] c = .halted outcome' s' := by
    rw [Function.iterate_add_apply, hn', iterate_halted]
  rw [Nat.add_comm, Function.iterate_add_apply, hn, iterate_halted] at hend
  cases hend
  rfl

/-- What steps lead to is what the machine gives. -/
theorem run_eq_of_leads {outcome : Except Halt RunOutput}
    (h : m.Leads (m.begin s) (.halted outcome s')) : m.run.run s = (outcome, s') :=
  (run_halts m s).halted_eq h

/-- A failure passes all callers. -/
theorem leads_of_failing (m : Machine σ) (f : Failure) (callers : List Caller)
    (s : MachineState σ) :
    ∃ s', m.Leads (.failing f callers s) (.halted (.error (.failure f)) s') := by
  induction callers generalizing s with
  | nil => exact ⟨s, .single rfl⟩
  | cons caller callers ih =>
    obtain ⟨s', hs'⟩ := ih s.closed
    exact ⟨s', (Leads.single rfl).trans hs'⟩

end Machine

end MiddleEnd
