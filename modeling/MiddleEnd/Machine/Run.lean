import MiddleEnd.Machine.Arith
import MiddleEnd.Machine.Native

/-!
# The register machine

Runs programs.  Every call gets a frame of zeroed registers.  Instructions are executed in order;
the value of a procedure is the value written last, unless it is left with a value of its own.
Native code is built when it is first called and kept from then on.

## Main definitions

* `Machine` — what does not change: the program, the backend and the limit on nested calls.
* `MachineState` — what does: the state of the backend, the functions built, the calls made of them.
* `Fault`, `Failure` — what goes wrong, and where; `Halt` — why a run has no result.
* `Machine.effect` — what an instruction does, over any way to run a procedure.
* `Machine.execute` — run a procedure with a bound on the calls nested in it.
* `Machine.evaluate`, `Machine.run` — run a procedure, or the start of the program.
-/

namespace MiddleEnd

/-- How an instruction can be malformed.  Code that comes from lowering has no such instruction; a
program that was put together by other means may have one. -/
inductive Malformed where
  /-- A load of something that is no constant. -/
  | loadOperand
  /-- A load from beyond the end of the pool. -/
  | constantRange
  /-- A call of something that is no procedure. -/
  | callOperand
  /-- A call of a procedure that the program does not have. -/
  | procedureRange
  /-- A native call of something that is no native code. -/
  | nativeOperand
  /-- A call of native code that the program does not have. -/
  | nativeRange
  /-- A register beyond the end of the frame. -/
  | registerRange
  /-- A register is wanted and the operand is none. -/
  | registerOperand
  /-- There is a value to write and no register to write it to. -/
  | noOutput
  /-- The procedure to be run does not exist. -/
  | noProcedure
  /-- The program to be run has no procedures. -/
  | noStart
  deriving DecidableEq, Repr

namespace Malformed

/-- What is said about the instruction when a run ends at it. -/
def message : Malformed → String
  | loadOperand => "LOAD_CONST needs a constant operand"
  | constantRange => "constant index out of range"
  | callOperand => "CALL needs a procedure operand"
  | procedureRange => "call to a missing procedure"
  | nativeOperand => "CALL_NATIVE needs a metadata operand"
  | nativeRange => "metadata index out of range"
  | registerRange => "register out of range"
  | registerOperand => "expected a register operand"
  | noOutput => "instruction writes no register"
  | noProcedure => "no such procedure"
  | noStart => "program has no start procedure"

end Malformed

/-- What goes wrong at an instruction.  A run that meets a fault ends with it, wherever it is. -/
inductive Fault where
  /-- An operation has no result. -/
  | arith (e : ArithError)
  /-- There is a call to make and the limit is reached. -/
  | callDepth (limit : Nat)
  /-- Native code cannot be called. -/
  | native (e : NativeError)
  /-- The instruction makes no sense. -/
  | malformed (m : Malformed)
  deriving DecidableEq, Repr

namespace Fault

/-- What is said about the fault, without its place. -/
def message : Fault → String
  | arith e => e.message
  | callDepth limit => s!"call depth exceeded the limit of {limit}"
  | native e => e.message
  | malformed m => "malformed instruction: " ++ m.message

end Fault

/-- A fault with the instruction that raised it, given by the procedure, the index in its code, and
the source. -/
structure Failure where
  /-- What went wrong. -/
  fault : Fault
  /-- The name of the procedure that was running. -/
  procedure : String
  /-- The index of the instruction in its code. -/
  pc : Nat
  /-- The source of the instruction, as far as it is known. -/
  span : Span
  deriving DecidableEq, Repr

namespace Failure

/-- What is said about a run that ends so. -/
def message (f : Failure) : String :=
  s!"{f.fault.message} (in `{f.procedure}` at instruction {f.pc})"

end Failure

/-- Why a run has no result: the program went wrong, or the host handed a backend what it should not
have. -/
inductive Halt where
  /-- The program went wrong. -/
  | failure (f : Failure)
  /-- A backend was handed what it should not have been. -/
  | misuse (m : Misuse)
  deriving DecidableEq, Repr

/-- A call of native code that has been made, with the words that went in and the one that came
back. -/
structure NativeEvent where
  /-- Which entry of the table of native code it was. -/
  index : Nat
  /-- The words that were handed over. -/
  args : List Word
  /-- The word that came back, from a function that has a result. -/
  result : Option Word
  deriving DecidableEq, Repr

/-- What a machine needs to run.  None of it changes during a run; what does is in
`MachineState`. -/
structure Machine (σ : Type) where
  /-- The code that is run. -/
  program : Program
  /-- What builds native functions for it. -/
  backend : Backend σ
  /-- Most calls that may be nested in one another. -/
  maxCallDepth : Nat

/-- What changes while a machine runs.  All of it outlives the run, so a later run of the same
machine finds the functions that are built and the calls that were made. -/
structure MachineState (σ : Type) where
  /-- The state of the backend. -/
  backend : σ
  /-- The native functions built so far, by index. -/
  functions : Std.TreeMap Nat NativeFunction
  /-- The calls of native functions, in order. -/
  events : Array NativeEvent
  /-- Calls of procedures that a misuse has broken off.  They are never left, and count against the
  limit from then on. -/
  openCalls : Nat

namespace MachineState

/-- The state of a machine that has not run yet. -/
def initial {σ : Type} (backend : σ) : MachineState σ := ⟨backend, ∅, #[], 0⟩

end MachineState

/-- A computation of the machine.  The state is kept when it ends with a halt, as what native code
has done cannot be taken back. -/
abbrev Run (σ : Type) := ExceptT Halt (StateM (MachineState σ))

/-- The registers of a frame.  The first one stands for no register and is never written. -/
abbrev RegisterFile := Array Word

namespace RegisterFile

/-- The frame that a call starts with. -/
def zeroed (size : Nat) : RegisterFile := Array.replicate size 0

/-- The word an operand stands for.  Only registers are read: a constant is loaded into a register
before it is used. -/
def read (frame : RegisterFile) : Operand → Except Fault Word
  | .register r =>
    match frame[r]? with
    | some w => .ok w
    | none => .error (.malformed .registerRange)
  | _ => .error (.malformed .registerOperand)

/-- The frame after a write; the register zero and those beyond the end cannot be written. -/
def write (frame : RegisterFile) (out : Register) (w : Word) : Except Fault RegisterFile :=
  if out = .none then .error (.malformed .noOutput)
  else if h : out < frame.size then .ok (frame.set out w h)
  else .error (.malformed .registerRange)

/-- The words that native code gets, in the order of its inputs. -/
def inputs (frame : RegisterFile) (call : NativeCall) : Except Fault (List Word) :=
  call.inputs.mapM fun slot => frame.read (.register slot.register)

end RegisterFile

/-- What an instruction does to the procedure it belongs to.  Its effects on the state of the
machine are not part of it. -/
inductive Effect where
  /-- Nothing; the next instruction follows. -/
  | skip
  /-- Write a value to the output register; the next instruction follows. -/
  | write (w : Word)
  /-- Leave the procedure with a value. -/
  | leave (w : Word)
  deriving DecidableEq, Repr

/-- Result of running the start of a program: its value, and its registers for those who ask for a
variable by name. -/
structure RunOutput where
  /-- The value the start was left with. -/
  value : Word
  /-- The frame of the start at its end. -/
  registers : RegisterFile
  deriving Repr

namespace RunOutput

/-- The value of a top-level name at the end, if the program has such a name. -/
def symbol? (o : RunOutput) (p : Program) (name : String) : Option Word := do
  o.registers[← p.dataSymbols[name]?]?

end RunOutput

namespace Machine

variable {σ : Type}

/-- An instruction as the place of a failure: its procedure and its index, from which the rest is
looked up when there is a failure to report. -/
structure Site where
  /-- The procedure that is running. -/
  procedure : Procedure
  /-- The index of the instruction in its code. -/
  pc : Nat

namespace Site

/-- The fault with its place.  An instruction whose source is not known stands `nowhere`. -/
def failure (s : Site) (fault : Fault) : Failure :=
  ⟨fault, s.procedure.name, s.pc, s.procedure.spans[s.pc]?.getD .nowhere⟩

/-- Raise a fault here. -/
def fail {α : Type} (s : Site) (fault : Fault) : Run σ α := throw (.failure (s.failure fault))

/-- Say where a fault was raised. -/
def locate {α : Type} (s : Site) : Except Fault α → Run σ α
  | .ok a => return a
  | .error fault => s.fail fault

end Site

/-- The native function with a given index, built unless that has been done.  What the backend
builds is kept only if it fits the code; after any other answer the backend is asked again next
time. -/
def nativeFunction (m : Machine σ) (index : Nat) (call : NativeCall) (s : MachineState σ) :
    Except Refusal NativeFunction × MachineState σ :=
  match s.functions[index]? with
  | some f => (.ok f, s)
  | none =>
    match m.backend.compile s.backend call with
    | (.error e, backend) => (.error e, { s with backend })
    | (.ok f, backend) =>
      if f.fits call then
        (.ok f, { s with backend, functions := s.functions.insert index f })
      else (.error (.error (f.mismatch call)), { s with backend })

/-- Call native code with the values in a frame.  The function is built before its inputs are read,
and only a call that takes place counts as an event. -/
def callNative (m : Machine σ) (site : Site) (frame : RegisterFile) (index : Nat) :
    Run σ (Option Word) := do
  match m.program.natives[index]? with
  | none => site.fail (.malformed .nativeRange)
  | some call =>
    match ← modifyGet (m.nativeFunction index call) with
    | .error (.misuse why) => throw (.misuse why)
    | .error (.error e) => site.fail (.native e)
    | .ok f =>
      let args ← site.locate (frame.inputs call)
      let result ← site.locate ((f.call args).mapError .native)
      modify fun s => { s with events := s.events.push ⟨index, args, result⟩ }
      return result

/-- What an instruction does.  `call` runs a procedure; it is missing where no further call may be
nested.  A call of a procedure that does not exist is malformed also there. -/
def effect (m : Machine σ) (call : Option (Procedure → Run σ Word)) (site : Site)
    (frame : RegisterFile) (i : Instruction) : Run σ Effect :=
  match i.op with
  | .noop => return .skip
  | .copy => return .write (← site.locate (frame.read i.left))
  | .loadConstant =>
    match i.left with
    | .constant index =>
      match m.program.constants[index]? with
      | some w => return .write w
      | none => site.fail (.malformed .constantRange)
    | _ => site.fail (.malformed .loadOperand)
  | .call =>
    match i.left with
    | .procedure index =>
      match m.program.procedures[index]?, call with
      | none, _ => site.fail (.malformed .procedureRange)
      | some _, none => site.fail (.callDepth m.maxCallDepth)
      | some callee, some call => return .write (← call callee)
    | _ => site.fail (.malformed .callOperand)
  | .ret =>
    match i.left with
    | .none => return .leave 0
    | operand => return .leave (← site.locate (frame.read operand))
  | .callNative =>
    match i.left with
    | .native index => do
      match ← m.callNative site frame index with
      | some w => return .write w
      | none => return .skip
    | _ => site.fail (.malformed .nativeOperand)
  | .binary op kind => do
    let a ← site.locate (frame.read i.left)
    let b ← site.locate (frame.read i.right)
    return .write (← site.locate (((ArithOp.binary op).apply kind a b).mapError .arith))
  | .negate kind => do
    let a ← site.locate (frame.read i.left)
    return .write (← site.locate ((kind.negate a).mapError .arith))
  | .convert source target =>
    return .write (source.convert target (← site.locate (frame.read i.left)))

/-- Execute instructions from `pc` on, with the value written last.  There are no jumps, so the
instructions left over are all that can still be executed. -/
def runFrom (m : Machine σ) (call : Option (Procedure → Run σ Word)) (p : Procedure) :
    Nat → List Instruction → RegisterFile → Word → Run σ (Word × RegisterFile)
  | _, [], frame, last => return (last, frame)
  | pc, i :: rest, frame, last => do
    match ← m.effect call ⟨p, pc⟩ frame i with
    | .skip => runFrom m call p (pc + 1) rest frame last
    | .leave w => return (w, frame)
    | .write w =>
      let frame ← Site.locate ⟨p, pc⟩ (frame.write i.out w)
      runFrom m call p (pc + 1) rest frame w

/-- Run a procedure in a fresh frame.  One that writes nothing and is not left with a value has the
value zero. -/
def runProcedure (m : Machine σ) (call : Option (Procedure → Run σ Word)) (p : Procedure) :
    Run σ (Word × RegisterFile) :=
  m.runFrom call p 0 p.code.toList (.zeroed p.frameSize) 0

/-- Make a call.  One that a misuse breaks off stays open; one that ends otherwise, with a value or
a failure, does not. -/
def nested {α : Type} (call : Run σ α) : Run σ α :=
  ExceptT.mk fun s =>
    match call.run s with
    | (.error (.misuse m), s) => (.error (.misuse m), { s with openCalls := s.openCalls + 1 })
    | outcome => outcome

/-- Run a procedure in which at most `depth` calls may be nested.  Procedures may call themselves
and one another; the depth is what bounds the recursion. -/
def execute (m : Machine σ) : Nat → Procedure → Run σ (Word × RegisterFile)
  | 0, p => m.runProcedure none p
  | depth + 1, p =>
    m.runProcedure (some fun callee => nested do return (← m.execute depth callee).1) p

/-- Run a procedure with as many nested calls as the limit leaves once the open calls are taken off
it. -/
def enter (m : Machine σ) (p : Procedure) : Run σ (Word × RegisterFile) := do
  m.execute (m.maxCallDepth - (← get).openCalls) p

/-- Run the procedure with a given index for its value.  Its registers are given up. -/
def evaluate (m : Machine σ) (index : Nat) : Run σ Word :=
  match m.program.procedures[index]? with
  | none => throw (.failure ⟨.malformed .noProcedure, (Operand.procedure index).text, 0, .nowhere⟩)
  | some p => do return (← m.enter p).1

/-- Run the start of the program, and keep its registers at the end beside its value. -/
def run (m : Machine σ) : Run σ RunOutput :=
  match m.program.procedures[0]? with
  | none => throw (.failure ⟨.malformed .noStart, "start", 0, .nowhere⟩)
  | some p => do
    let (value, registers) ← m.enter p
    return ⟨value, registers⟩

end Machine

end MiddleEnd
