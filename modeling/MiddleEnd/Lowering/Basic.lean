import MiddleEnd.Code.Program
import MiddleEnd.Lowering.Limit
import MiddleEnd.Typing
import Std.Data.TreeSet

/-!
# Code under construction

The state of lowering and the steps that add to it.

## Main definitions

* `Lowering` — the program so far, with the procedure that is being lowered and the problems found.
* `Lower` — a computation on it; it may run into a limit.
* `Lower.fresh`, `Lower.emit`, `Lower.load`, `Lower.convert`, `Lower.bind` — give out a register,
  append an instruction, load a constant, convert a value, and tie a value to a declaration.
-/

namespace MiddleEnd

/-- Constructs without a lowering.  They are well typed, so it is lowering that has to refuse
them. -/
inductive Unsupported where
  /-- A value that is a text. -/
  | textValue
  /-- A value that is a structure or an enumeration. -/
  | shapeValue
  /-- A call of a procedure that is not known. -/
  | indirectCall
  deriving DecidableEq, Repr

namespace Unsupported

/-- What the construct is called in diagnostics. -/
def text : Unsupported → String
  | textValue => "text values"
  | shapeValue => "struct and enum values"
  | indirectCall => "indirect calls"

end Unsupported

/-- What lowering refuses.  It goes on after it, so that one report holds all that is refused. -/
inductive LoweringProblem where
  /-- A construct without a lowering. -/
  | unsupported (what : Unsupported) (span : Span)
  /-- A value of another procedure. -/
  | capture (ident decl : NodeId)
  /-- Native code with more inputs than a native function can have. -/
  | nativeInputs (id : NodeId) (count : Nat)
  deriving DecidableEq, Repr

namespace LoweringProblem

/-- The diagnostic for a problem. -/
def diagnostic (t : Tree) : LoweringProblem → Diagnostic
  | unsupported what span =>
    .error .unsupported (what.text ++ " cannot be lowered to bytecode")
      [.primary span "not supported here"] []
  | capture ident decl =>
    let name := (t.shape decl).declaredName?.getD ""
    .error .capture s!"cannot use `{name}` from an enclosing procedure"
      [.primary (t.span ident) "used here",
      .secondary (t.span decl) "declared in another procedure"]
      ["only constants bound to literals can be read across procedures"]
  | nativeInputs id count =>
    .error .nativeInputs
      s!"native block takes {count} inputs, at most {maxNativeInputs} are supported"
      [.primary (t.span id) "too many inputs"] []

end LoweringProblem

/-- The procedure that is being lowered, as far as it is not part of the program: where its code is,
what it returns, and which of its registers declarations own. -/
structure Frame where
  /-- Its place among the procedures of the program. -/
  index : Nat
  /-- Its declared result type, if it has one. -/
  result : Option Ty
  /-- The registers of it that are tied to declarations. -/
  bound : Std.TreeSet Register

/-- Code under construction: the program so far, where each procedure and each declaration is found
in it, and what has been refused. -/
structure Lowering where
  /-- The code so far. -/
  program : Program
  /-- The index of each procedure that has been met. -/
  procedureOf : Std.TreeMap NodeId Nat
  /-- The procedure that owns the register of each declaration. -/
  ownerOf : Std.TreeMap NodeId Nat
  /-- The procedure that instructions are appended to. -/
  frame : Frame
  /-- What has been refused, in order. -/
  problems : Array LoweringProblem

/-- Why lowering stops early.  Problems of the source do not stop it; a resource that has run out
does. -/
inductive Stop where
  /-- A resource ran out, which is reported. -/
  | limit (l : Limit)
  /-- The tree was not one that the caller may hand over. -/
  | misuse (m : Misuse)
  deriving DecidableEq, Repr

/-- A computation on code under construction. -/
abbrev Lower := StateT Lowering (Except Stop)

/-- What lowering reads: the tree with its links, what the passes before have found out about it,
and the limit on registers. -/
structure LowerContext where
  /-- The tree that is lowered. -/
  tree : Tree
  /-- The parents of its nodes. -/
  links : Links
  /-- The node whose statements become the start of the program. -/
  root : NodeId
  /-- The declarations of its names. -/
  resolution : Resolution
  /-- The types of its nodes and the values of its literals. -/
  typing : Typing
  /-- The highest register that may be given out. -/
  registerLimit : Nat

namespace LowerContext

/-- The type of a node. -/
def typeOf (c : LowerContext) (id : NodeId) : Ty := c.typing.typeOf id

/-- The source of a node. -/
def span (c : LowerContext) (id : NodeId) : Span := c.tree.span id

end LowerContext

namespace Lowering

/-- Nothing but the frame of the start, which has no code and no declared result. -/
def start : Lowering :=
  { program := .empty, procedureOf := ∅, ownerOf := ∅, frame := ⟨0, none, ∅⟩, problems := #[] }

/-- The procedure being lowered.  Its index is always one of the program, so the empty procedure is
never the answer. -/
def current (s : Lowering) : Procedure := s.program.procedures[s.frame.index]?.getD (.empty "")

end Lowering

namespace Lower

/-- Stop at a tree that the caller should not have handed over. -/
def misuse {α : Type} (m : Misuse) : Lower α := throw (.misuse m)

/-- Stop at a resource that has run out. -/
def exhausted {α : Type} (l : Limit) : Lower α := throw (.limit l)

/-- Refuse a construct and go on.  The refusal is put behind those found before it. -/
def report (p : LoweringProblem) : Lower Unit :=
  modify fun s => { s with problems := s.problems.push p }

/-- Change the program. -/
def modifyProgram (f : Program → Program) : Lower Unit :=
  modify fun s => { s with program := f s.program }

/-- Change the procedure being lowered. -/
def modifyCurrent (f : Procedure → Procedure) : Lower Unit := do
  let index := (← get).frame.index
  modifyProgram fun p => { p with procedures := p.procedures.modify index f }

/-- Append an instruction.  A value it writes is the last one of the procedure, with `ty` for its
type. -/
def emit (i : Instruction) (ty : Ty) (span : Span) : Lower Unit :=
  modifyCurrent fun p =>
    let p := p.push i span
    if i.out = .none then p else { p with lastRegister := i.out, lastTy := ty }

/-- Give out a register of the procedure being lowered.  Registers are numbered upward and never
taken back; above the limit lowering stops. -/
def fresh (c : LowerContext) (span : Span) : Lower Register := do
  let p := (← get).current
  if c.registerLimit < p.nextRegister then exhausted (.registers p.name c.registerLimit span)
  modifyCurrent fun p => { p with nextRegister := p.nextRegister + 1 }
  return p.nextRegister

/-- Append a copy of one register to another one. -/
def copy (out value : Register) (ty : Ty) (span : Span) : Lower Unit :=
  emit ⟨.copy, out, .register value, .none⟩ ty span

/-- Put a word into the pool, for its index.  Equal words are not shared: every load has an entry of
its own. -/
def constant (w : Word) (span : Span) : Lower Nat := do
  let index := (← get).program.constants.size
  if Limit.maxEntries < index then exhausted (.constants span)
  modifyProgram fun p => { p with constants := p.constants.push w }
  return index

/-- Load a word into a register of its own, from a new entry of the pool. -/
def load (c : LowerContext) (w : Word) (ty : Ty) (span : Span) : Lower Register := do
  let index ← constant w span
  let out ← fresh c span
  emit ⟨.loadConstant, out, .constant index, .none⟩ ty span
  return out

/-- Convert a value.  Types that are kept in one kind need no instruction, and neither do types that
are kept in none. -/
def convert (c : LowerContext) (value : Register) (source dest : Ty) (span : Span) :
    Lower Register :=
  match Kind.ofTy? source, Kind.ofTy? dest with
  | some a, some b =>
    if a = b then return value
    else do
      let out ← fresh c span
      emit ⟨.convert a b, out, .register value, .none⟩ dest span
      return out
  | _, _ => return value

/-- Whether a register is tied to a declaration of the procedure being lowered. -/
def isBound (r : Register) : Lower Bool := return (← get).frame.bound.contains r

/-- Tie a value to a declaration.  A register that belongs to another declaration is copied, so that
a store to the one leaves the other alone.  A declaration of the root scope becomes a symbol. -/
def bind (c : LowerContext) (decl : NodeId) (value : Register) (span : Span) : Lower Register := do
  let register ←
    if ← isBound value then do
      let out ← fresh c span
      copy out value (c.typeOf decl) span
      pure out
    else pure value
  modify fun s =>
    { s with
      frame := { s.frame with bound := s.frame.bound.insert register }
      ownerOf := s.ownerOf.insert decl s.frame.index }
  modifyCurrent fun p => { p with registers := p.registers.insert decl register }
  if (← get).frame.index = 0 ∧ c.links.enclosingScope? c.tree decl = some c.root then
    if let some name := (c.tree.shape decl).declaredName? then
      modifyProgram fun p => { p with dataSymbols := p.dataSymbols.insert name register }
  return register

end Lower

end MiddleEnd
