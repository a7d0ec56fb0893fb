import MiddleEnd.Code.Word
import MiddleEnd.Source.Span
import MiddleEnd.Tree.Shape
import Std.Data.TreeMap

/-!
# Programs

Three-address code on registers.  A program is a list of procedures that share one pool of constants
and one table of native code.  Every procedure has registers of its own.  A register is given out
once: one that holds an intermediate value is written once, and one that belongs to a variable is
written again by copies and by native code.

## Main definitions

* `Opcode`, `Operand`, `Instruction` — the instructions.
* `NativeCall` — what a backend has to know to build one piece of native code.
* `Procedure`, `Program` — code with its pools and symbols.
* `Program.listing` — the written form of the code.
-/

namespace MiddleEnd

/-- Number of a register.  Register 0 stands for "no register". -/
abbrev Register := Nat

namespace Register

/-- The register that is written where there is nothing to write. -/
def none : Register := 0

/-- The highest register that code may use. -/
def maximum : Register := 0x7FFF

/-- The written form of a register. -/
def text (r : Register) : String := if r = 0 then "r_" else s!"r{r}"

end Register

/-- What an instruction does; `out` is the register it writes, `left` and `right` are its operands.
Arithmetic names the kind in which it reads its operands, since words do not know their kinds. -/
inductive Opcode where
  /-- Nothing happens. -/
  | noop
  /-- `out = left` -/
  | copy
  /-- `out = constants[left]` -/
  | loadConstant
  /-- `out = procedures[left]()` -/
  | call
  /-- Leave the procedure with `left`, or with zero if there is no operand. -/
  | ret
  /-- `out = natives[left]` -/
  | callNative
  /-- `out = left op right` -/
  | binary (op : BinaryOp) (kind : Kind)
  /-- `out = -left` -/
  | negate (kind : Kind)
  /-- `out = left`, read as one kind and written as another one -/
  | convert (source target : Kind)
  deriving DecidableEq, Repr

namespace Opcode

/-- What an operation is called in opcodes. -/
def mnemonic : BinaryOp → String
  | .add => "ADD"
  | .sub => "SUB"
  | .mul => "MUL"
  | .div => "DIV"

/-- The written form of an opcode: what it does and, for arithmetic, the kinds it works on. -/
def text : Opcode → String
  | noop => "NOOP"
  | copy => "COPY_VALUE"
  | loadConstant => "LOAD_CONST"
  | call => "CALL"
  | ret => "RETURN"
  | callNative => "CALL_NATIVE"
  | binary op kind => mnemonic op ++ "." ++ kind.name
  | negate kind => "NEG." ++ kind.name
  | convert source target => "CONVERT." ++ source.name ++ "." ++ target.name

/-- Every opcode there is. -/
def all : List Opcode :=
  [noop, copy, loadConstant, call, ret, callNative]
    ++ BinaryOp.all.flatMap (fun op => Kind.all.map (binary op))
    ++ Kind.all.map negate
    ++ Kind.all.flatMap (fun source => Kind.all.map (convert source))

/-- The opcode that has a written form. -/
def ofText? (s : String) : Option Opcode := all.find? (·.text == s)

end Opcode

/-- What an instruction works on: a register, or an index into one of the tables of its program. -/
inductive Operand where
  /-- There is no operand. -/
  | none
  /-- The word in a register of the frame. -/
  | register (r : Register)
  /-- A word of the pool of constants. -/
  | constant (index : Nat)
  /-- An entry of the table of native code. -/
  | native (index : Nat)
  /-- A procedure of the program. -/
  | procedure (index : Nat)
  deriving DecidableEq, Repr

namespace Operand

/-- The written form of an operand: a letter for the table and the index. -/
def text : Operand → String
  | none => "_"
  | register r => r.text
  | constant index => s!"c{index}"
  | native index => s!"m{index}"
  | procedure index => s!"p{index}"

end Operand

/-- An instruction: an opcode, the register it writes and the two operands it may use.  Which of
them count is up to the opcode. -/
structure Instruction where
  /-- What is done. -/
  op : Opcode
  /-- The register that is written; the register zero if there is none. -/
  out : Register
  /-- The first operand. -/
  left : Operand
  /-- The second operand, which only binary operations have. -/
  right : Operand
  deriving DecidableEq, Repr

namespace Instruction

/-- The written form of an instruction.  A second operand is written only if there is one. -/
def text (i : Instruction) : String :=
  i.op.text ++ " " ++ i.out.text ++ ", " ++ i.left.text
    ++ if i.right = .none then "" else ", " ++ i.right.text

end Instruction

/-- Most inputs that native code may have. -/
def maxNativeInputs : Nat := 6

/-- A value that native code reads or writes: the name and the place that the native code knows it
by, and the register that holds it. -/
structure NativeSlot where
  /-- The name it has in the native code. -/
  name : String
  /-- Byte offset in the native frame. -/
  offset : Nat
  /-- The register it is read from or written to. -/
  register : Register
  deriving DecidableEq, Repr

/-- Native code with the values it reads and the one it writes.  A backend is asked with this to
build a function. -/
structure NativeCall where
  /-- The text of the native code. -/
  source : String
  /-- What it reads, in the order in which it is handed over. -/
  inputs : List NativeSlot
  /-- What it writes, if its value is bound to a name. -/
  output : Option NativeSlot
  deriving DecidableEq, Repr

/-- The code of one procedure, with what is known about its registers.  The last three fields are
where the compiler stands while it appends instructions. -/
structure Procedure where
  /-- The name that the listing and the symbols show. -/
  name : String
  /-- The instructions in order. -/
  code : Array Instruction
  /-- Source of each instruction, as far as it is known. -/
  spans : Array Span
  /-- The register of each declaration. -/
  registers : Std.TreeMap NodeId Register
  /-- The next register to give out. -/
  nextRegister : Register
  /-- The register written last. -/
  lastRegister : Register
  /-- The type of the value written last. -/
  lastTy : Ty

namespace Procedure

/-- A procedure without code.  Its first register to give out is 1, and the value it has written
last has no register and the type `empty`. -/
def empty (name : String) : Procedure :=
  { name, code := #[], spans := #[], registers := ∅
    nextRegister := 1, lastRegister := .none, lastTy := .empty }

/-- Number of registers in a frame: those given out and the register zero, which stands for none. -/
def frameSize (p : Procedure) : Nat := p.nextRegister

/-- Append an instruction that comes from `span`.  Code and spans grow together, so an instruction
and its source have the same index. -/
def push (p : Procedure) (i : Instruction) (span : Span) : Procedure :=
  { p with code := p.code.push i, spans := p.spans.push span }

/-- A number right-aligned in four columns; a longer one takes the columns it needs. -/
def column (n : Nat) : String :=
  let digits := toString n
  String.ofList (List.replicate (4 - digits.length) ' ') ++ digits

/-- The written form: the name, then one line per instruction with its index in front. -/
def listing (p : Procedure) : String :=
  p.name ++ ":\n" ++ String.join
    (p.code.toList.zipIdx.map fun (i, pc) => "  " ++ column pc ++ "  " ++ i.text ++ "\n")

end Procedure

/-- A program: the code of its procedures with the tables that the operands of their instructions
refer to, and the symbols by which variables and procedures can be found. -/
structure Program where
  /-- The pool of constants, which all procedures share. -/
  constants : Array Word
  /-- The first procedure is the start of the program. -/
  procedures : Array Procedure
  /-- The native code that the procedures call. -/
  natives : Array NativeCall
  /-- Registers of the top-level variables and constants. -/
  dataSymbols : Std.TreeMap String Register
  /-- Procedures by name. -/
  textSymbols : Std.TreeMap String Nat

namespace Program

/-- The program whose start does nothing. -/
def empty : Program :=
  { constants := #[], procedures := #[.empty "start"], natives := #[]
    dataSymbols := ∅, textSymbols := ∅ }

/-- The written form: the procedures with an empty line between them. -/
def listing (p : Program) : String :=
  "\n".intercalate (p.procedures.toList.map Procedure.listing)

end Program

end MiddleEnd
