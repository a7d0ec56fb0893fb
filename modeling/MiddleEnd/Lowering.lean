import MiddleEnd.Lowering.Basic

/-!
# Lowering

Turns a checked tree into a program.  Every expression is lowered to the register that holds its
value, or to none if it has no value in a register.  Operands are converted to the kind of the
expression they belong to, so that an instruction reads words of one kind.

Each procedure gets code and registers of its own, and it is known before its body is lowered, so
that it can call itself.  Values of other procedures cannot be read, but a constant that is a
literal is loaded again.

## Main definitions

* `Lower.rule` — the code of each shape, over any way to lower the nodes it mentions.
* `Lower.node` — the code of a node.
* `Generated` — a program with the problems found; `Generated.ofTree` lowers a tree.

## Main results

* `Lower.node_eq` — a node is lowered by the rule for its shape, over the code of the nodes before
  it.
-/

namespace MiddleEnd

namespace LiteralValue

/-- The word that holds the value of a literal. -/
def word : LiteralValue → Word
  | integer n => UInt64.ofNat n
  | float bits => UInt64.ofNat bits
  | char c => UInt64.ofNat c.toNat

end LiteralValue

namespace Lower

section Rules

variable (c : LowerContext) (lower : NodeId → Lower (Option Register))

/-! ### Expressions -/

/-- Lower a node and convert its value to `ty`.  A node without a register has no operand either. -/
def operand (id : NodeId) (ty : Ty) : Lower (Option Register) := do
  match ← lower id with
  | none => return none
  | some value => return some (← convert c value (c.typeOf id) ty (c.span id))

/-- Load a literal that is used at `span`.  Texts have no place in registers, so they are
refused. -/
def literalRule (id : NodeId) (span : Span) : Literal → Lower (Option Register)
  | .text _ => do
    report (.unsupported .textValue span)
    return none
  | .number _ | .char _ =>
    match c.typing.literal? id with
    | none => misuse (.noValue id)
    | some v => return some (← load c v.word (c.typeOf id) span)

/-- The literal that a constant stands for, if its definition is one, perhaps in parentheses. -/
def literalConstant? (t : Tree) (decl : NodeId) : Option (NodeId × Literal) :=
  match t.shape decl with
  | .constant _ definition =>
    match t.shape (t.ungroup definition) with
    | .literal lit => some (t.ungroup definition, lit)
    | _ => none
  | _ => none

/-- Whether a declaration gives a name to a structure or an enumeration. -/
def declaresShape (t : Tree) (decl : NodeId) : Bool :=
  match t.shape decl with
  | .constant _ definition =>
    match t.shape (t.ungroup definition) with
    | .struct _ | .enum _ => true
    | _ => false
  | _ => false

/-- Read a declaration of another procedure, at `ident`.  A constant that is a literal is loaded
again here; the registers of another procedure are out of reach. -/
def outerRule (ident decl : NodeId) : Lower (Option Register) :=
  match literalConstant? c.tree decl with
  | some (id, lit) => literalRule c id (c.span ident) lit
  | none => do
    report (.capture ident decl)
    return none

/-- The register of a declaration, or the code that reads it from another procedure.  One whose
value had no register has none either; that has been reported before. -/
def identRule (id : NodeId) : Lower (Option Register) := do
  match c.resolution.declaration? id with
  | none => misuse (.unboundIdent id)
  | some decl =>
    if declaresShape c.tree decl then
      report (.unsupported .shapeValue (c.span id))
      return none
    if c.typeOf decl = .procedure then return none
    let s ← get
    match s.ownerOf[decl]? with
    | none => return none
    | some owner =>
      if owner ≠ s.frame.index then return ← outerRule c id decl
      match s.current.registers[decl]? with
      | some register => return some register
      | none => misuse (.noRegister decl)

/-- Compute the value of an arithmetic expression, both of whose operands are converted to its kind
first. -/
def binaryRule (id left op right : NodeId) : Lower (Option Register) := do
  match c.tree.shape op with
  | .binaryOp op =>
    let ty := c.typeOf id
    match Kind.ofTy? ty with
    | none => misuse (.noKind id)
    | some kind =>
      let a ← operand c lower left ty
      let b ← operand c lower right ty
      match a, b with
      | some a, some b =>
        let out ← fresh c (c.span id)
        emit ⟨.binary op kind, out, .register a, .register b⟩ ty (c.span id)
        return some out
      | _, _ => return none
  | _ => misuse (.noOperator id)

/-- The word of a negated integer literal, if its kind is signed and can hold it.  The least value
of a kind has a magnitude that the kind cannot hold, so the literal alone could not be loaded. -/
def negatedLiteral? (operand : NodeId) (ty : Ty) : Option Word :=
  let operand := c.tree.ungroup operand
  match Kind.ofTy? ty, c.tree.shape operand, c.typing.literal? operand with
  | some (.int k), .literal (.number _), some (.integer n) =>
    if k.isSigned ∧ k.lo ≤ -(n : Int) then some (Word.ofInt (-(n : Int))) else none
  | _, _, _ => none

/-- Compute the value of a signed expression.  A plus computes nothing, and a minus in front of a
literal is taken into the literal where its kind allows. -/
def signedRule (id op operandId : NodeId) : Lower (Option Register) := do
  let ty := c.typeOf id
  match c.tree.shape op with
  | .signOp .plus => operand c lower operandId ty
  | .signOp .minus =>
    match negatedLiteral? c operandId ty with
    | some w => return some (← load c w ty (c.span id))
    | none =>
      match ← operand c lower operandId ty with
      | none => return none
      | some value =>
        match Kind.ofTy? ty with
        | none => misuse (.noKind id)
        | some kind =>
          let out ← fresh c (c.span id)
          emit ⟨.negate kind, out, .register value, .none⟩ ty (c.span id)
          return some out
  | _ => misuse (.noSign id)

/-- Call a procedure.  A procedure written in place of the callee is lowered first. -/
def callRule (id callee : NodeId) : Lower (Option Register) := do
  let _ ← lower callee
  match c.resolution.procedureTarget? c.tree callee with
  | none =>
    report (.unsupported .indirectCall (c.span id))
    return none
  | some target =>
    match (← get).procedureOf[target]? with
    | none => misuse (.notLowered target)
    | some index =>
      let out ← fresh c (c.span id)
      emit ⟨.call, out, .procedure index, .none⟩ (c.typeOf id) (c.span id)
      return some out

/-- Convert the value of a cast to its target, from the type of the operand. -/
def castRule (id expr : NodeId) : Lower (Option Register) := do
  match ← lower expr with
  | none => return none
  | some value => return some (← convert c value (c.typeOf expr) (c.typeOf id) (c.span id))

/-! ### Native code -/

/-- The register that a store to `target` writes, if the procedure being lowered owns it.  Variables
of other procedures cannot be written, which is reported here. -/
def place (target : NodeId) : Lower (Option Register) := do
  let ident := c.tree.ungroup target
  match c.resolution.declaration? ident with
  | none => misuse (.unboundIdent ident)
  | some decl =>
    let s ← get
    match s.ownerOf[decl]? with
    | none => return none
    | some owner =>
      if owner ≠ s.frame.index then
        report (.capture ident decl)
        return none
      return s.current.registers[decl]?

/-- What a slot of native code is tied to. -/
def slotParts (id : NodeId) : Lower (NodeId × Nat) :=
  match c.tree.shape id with
  | .slot target offset => return (target, offset)
  | _ => misuse (.notSlot id)

/-- The name of the identifier that a slot is tied to. -/
def slotName (target : NodeId) : String :=
  match c.tree.shape (c.tree.ungroup target) with
  | .ident name => name
  | _ => ""

/-- The inputs of native code in order, unless one has no register; those after it are then not
lowered any more. -/
def nativeInputs : List NodeId → Lower (Option (List NativeSlot))
  | [] => return some []
  | input :: rest => do
    let (target, offset) ← slotParts c input
    match ← lower target with
    | none => return none
    | some register =>
      match ← nativeInputs rest with
      | none => return none
      | some slots => return some (⟨slotName c target, offset, register⟩ :: slots)

/-- The output of native code; the outer option says whether its register can be written, the inner
one whether there is an output at all. -/
def nativeOutput : Option NodeId → Lower (Option (Option NativeSlot))
  | none => return some none
  | some output => do
    let (target, offset) ← slotParts c output
    match ← place c target with
    | none => return none
    | some register => return some (some ⟨slotName c target, offset, register⟩)

/-- Add native code to the table. -/
def addNative (call : NativeCall) (span : Span) : Lower Nat := do
  let index := (← get).program.natives.size
  if Limit.maxEntries < index then exhausted (.natives span)
  modifyProgram fun p => { p with natives := p.natives.push call }
  return index

/-- Enter native code into the table and call it.  It has a value if it has an output, which is the
variable it writes. -/
def nativeRule (id : NodeId) (source : String) (inputs : List NodeId) (output : Option NodeId) :
    Lower (Option Register) := do
  if maxNativeInputs < inputs.length then
    report (.nativeInputs id inputs.length)
    return none
  match ← nativeInputs c lower inputs with
  | none => return none
  | some slots =>
    match ← nativeOutput c output with
    | none => return none
    | some slot =>
      let out := (slot.map NativeSlot.register).getD .none
      let index ← addNative ⟨source, slots, slot⟩ (c.span id)
      emit ⟨.callNative, out, .native index, .none⟩ ((output.map c.typeOf).getD .empty) (c.span id)
      return if out = .none then none else some out

/-! ### Declarations and statements -/

/-- Tie the value of a definition to a constant, in the kind of its type. -/
def constantRule (id definition : NodeId) : Lower (Option Register) := do
  match ← lower definition with
  | none => return none
  | some value =>
    let value ← convert c value (c.typeOf definition) (c.typeOf id) (c.span id)
    return some (← bind c id value (c.span id))

/-- A variable without an initial value starts at zero, as all registers do. -/
def varRule (id : NodeId) (init : Option NodeId) : Lower (Option Register) := do
  let ty := c.typeOf id
  match init with
  | some init =>
    match ← lower init with
    | none => return none
    | some value =>
      let value ← convert c value (c.typeOf init) ty (c.span id)
      return some (← bind c id value (c.span id))
  | none =>
    if ty = .text then
      report (.unsupported .textValue (c.span id))
      return none
    let value ← fresh c (c.span id)
    return some (← bind c id value (c.span id))

/-- Write a value to what `target` names, at `span`, unless the target is out of reach. -/
def store (target : NodeId) (value : Register) (span : Span) : Lower Unit := do
  if let some register ← place c target then
    copy register value (c.typeOf target) span

/-- Convert a value to the type of what is assigned, and write it there. -/
def assignRule (id target value : NodeId) : Lower Unit := do
  match ← lower value with
  | none => return
  | some register =>
    let converted ← convert c register (c.typeOf value) (c.typeOf target) (c.span value)
    store c target converted (c.span id)

/-- Lower a value of a parallel assignment to a register that no target writes: one that a
declaration owns is copied first. -/
def stage (value : NodeId) : Lower (Option Register) := do
  match ← lower value with
  | none => return none
  | some register =>
    if ← isBound register then
      let out ← fresh c (c.span value)
      copy out register (c.typeOf value) (c.span value)
      return some out
    return some register

/-- Evaluate all values before the first target is written, so that the targets change at once.  The
stores follow in order, and the last one counts for a target that is named twice. -/
def parallelRule (targets values : List NodeId) : Lower Unit := do
  let staged ← values.mapM (stage c lower)
  (targets.zip (values.zip staged)).forM fun (target, value, register) => do
    match register with
    | none => return
    | some register =>
      let converted ←
        convert c register (c.typeOf value) (c.typeOf target) (c.span target)
      store c target converted (c.span target)

/-- Leave the procedure with an operand. -/
def returnWith (operand : Operand) (span : Span) : Lower Unit :=
  emit ⟨.ret, .none, operand, .none⟩ .empty span

/-- Leave the procedure.  A value is converted to the declared result type; one without a register
is not returned at all. -/
def returnRule (id : NodeId) (value : Option NodeId) : Lower Unit := do
  match value with
  | none => returnWith .none (c.span id)
  | some value =>
    match ← lower value with
    | none => return
    | some register =>
      let register ←
        match (← get).frame.result with
        | some result => convert c register (c.typeOf value) result (c.span id)
        | none => pure register
      returnWith (.register register) (c.span id)

/-! ### Procedures -/

/-- The name of a procedure, and whether it is the name of a constant.  It is taken from the node
directly above; a procedure that stands elsewhere is named for its place in the source. -/
def procedureName (id : NodeId) : String × Bool :=
  match (c.links.parent? id).map c.tree.shape with
  | some (.constant name _) => (name, true)
  | some (.var name _ _) => (name, false)
  | _ => (s!"procedure@{(c.span id).start}", false)

/-- Begin the code of a procedure, for its index.  From here on the procedure can be called, and the
name of a constant is a symbol. -/
def openProcedure (id : NodeId) : Lower Nat := do
  let index := (← get).program.procedures.size
  if Limit.maxProcedures < index then exhausted (.procedures (c.span id))
  let (name, isConstant) := procedureName c id
  modifyProgram fun p =>
    { p with
      procedures := p.procedures.push (.empty name)
      textSymbols := if isConstant then p.textSymbols.insert name index else p.textSymbols }
  modify fun s => { s with procedureOf := s.procedureOf.insert id index }
  return index

/-- Convert the value written last to the declared result type, if there is such a value and its
type and the declared one both have kinds. -/
def convertLast (body : NodeId) (result : Ty) : Lower Unit := do
  let p := (← get).current
  if p.lastRegister ≠ .none then
    discard (convert c p.lastRegister p.lastTy result (c.span body))

/-- The code of a procedure, after which the procedure around it goes on where it stood. -/
def procedureRule (id : NodeId) (result : Option NodeId) (body : NodeId) : Lower Unit := do
  let index ← openProcedure c id
  let resultTy := result.map c.typeOf
  let outer := (← get).frame
  modify fun s => { s with frame := ⟨index, resultTy, ∅⟩ }
  let _ ← lower body
  if let some resultTy := resultTy then convertLast c body resultTy
  modify fun s => { s with frame := outer }

/-! ### All shapes -/

/-- The code of a node and the register of its value, over a way `lower` to lower the nodes it
mentions.  Statements have no register. -/
def rule (id : NodeId) : Lower (Option Register) :=
  match c.tree.shape id with
  | .module items | .block items => do
    items.forM fun item => discard (lower item)
    return none
  | .constant _ definition => constantRule c lower id definition
  | .var _ _ init => varRule c lower id init
  | .procedure result body => do procedureRule c lower id result body; return none
  | .struct _ | .enum _ | .field _ _ | .variant _ | .binaryOp _ | .signOp _ | .typeName _
  | .array _ _ => return none
  | .exprStmt expr => do let _ ← lower expr; return none
  | .assign target value => do assignRule c lower id target value; return none
  | .parallel targets values => do parallelRule c lower targets values; return none
  | .ret value => do returnRule c lower id value; return none
  | .literal lit => literalRule c id (c.span id) lit
  | .ident _ => identRule c id
  | .binary left op right => binaryRule c lower id left op right
  | .signed op operand => signedRule c lower id op operand
  | .group expr => lower expr
  | .call callee => callRule c lower id callee
  | .cast expr _ => castRule c lower id expr
  | .native source inputs output => nativeRule c lower id source inputs output
  | .slot target _ => lower target

end Rules

/-- The code of a node.  The nodes it mentions come before it, so the guard always holds. -/
def node (c : LowerContext) (id : NodeId) : Lower (Option Register) :=
  rule c (fun child => if _h : child < id then node c child else misuse (.notBefore child)) id
termination_by id

theorem node_eq (c : LowerContext) (id : NodeId) :
    node c id
      = rule c (fun child => if child < id then node c child else misuse (.notBefore child))
        id := by
  rw [node]
  rfl

end Lower

/-- A program with what lowering had to refuse.  What was refused has left gaps in the code. -/
structure Generated where
  /-- The code, which is complete only if there are no problems. -/
  program : Program
  /-- What was refused, in order. -/
  problems : List LoweringProblem

namespace Generated

/-- Whether anything was refused. -/
def hasErrors (g : Generated) : Bool := !g.problems.isEmpty

/-- What was refused, as it is reported. -/
def diagnostics (t : Tree) (g : Generated) : List Diagnostic := g.problems.map (·.diagnostic t)

/-- Lower the tree below `root`, whose statements become the start of the program.  The limit on
registers is never above the highest register there is. -/
def ofTree (t : Tree) (links : Links) (root : NodeId) (r : Resolution) (ty : Typing)
    (registerLimit : Nat) : Except Stop Generated := do
  let c : LowerContext := ⟨t, links, root, r, ty, min registerLimit Register.maximum⟩
  let (_, s) ← (Lower.node c root).run .start
  return ⟨s.program, s.problems.toList⟩

end Generated

end MiddleEnd
