import MiddleEnd.Resolution
import MiddleEnd.Typing.Problem
import MiddleEnd.Typing.Promotion

/-!
# Typing

Gives every node of a section a type.  Expressions are typed from their children, declarations from
their annotation or their initial value, statements are `empty` once their parts are checked.  The
type of a node is computed once and then looked up, also when it is reached through a name.  A rule
that finds no type for sound operands reports it; a rule that passes an error on is silent.

## Main definitions

* `Typing` — types, values of literals and problems.
* `Typing.Infer` — a computation on a typing under way.
* `Typing.rule` — the rule for each shape, over any way to type the nodes it mentions.
* `Typing.nodeWithin` — type a node once.
* `Typing.ofSection` — type a section.
-/

namespace MiddleEnd

/-- The value of a literal, as its spelling gives it.  It does not depend on the type in which the
literal is used. -/
inductive LiteralValue where
  /-- A number that was written without a point and an exponent. -/
  | integer (value : Nat)
  /-- A double, by its bit pattern. -/
  | float (bits : Nat)
  /-- A character. -/
  | char (c : Char)
  deriving DecidableEq, Repr

/-- How far the typing of a node has come.  A node goes through the three stages in order and never
back. -/
inductive Progress where
  /-- It has not begun. -/
  | waiting
  /-- The nodes it mentions are being typed. -/
  | active
  /-- It has a type. -/
  | done (ty : Ty)
  deriving DecidableEq, Repr, Inhabited

/-- Types and literal values of the nodes of a section, with the problems found on the way. -/
structure Typing where
  /-- How far each node of the tree has come. -/
  progress : Array Progress
  /-- The values of the literals that have one. -/
  literals : Std.TreeMap NodeId LiteralValue
  /-- What has been found, in order. -/
  problems : Array TypeProblem

namespace Typing

/-- How far a node has come. -/
def progressOf (ty : Typing) (id : NodeId) : Progress := ty.progress[id]?.getD .waiting

/-- The type of a node; a node outside the section is `uninferred`. -/
def typeOf (ty : Typing) (id : NodeId) : Ty :=
  match ty.progressOf id with
  | .done t => t
  | _ => .uninferred

/-- The value of a literal. -/
def literal? (ty : Typing) (id : NodeId) : Option LiteralValue := ty.literals[id]?

/-- Whether a problem was found. -/
def hasErrors (ty : Typing) : Bool := !ty.problems.isEmpty

/-- The problems as they are reported, in order. -/
def diagnostics (t : Tree) (ty : Typing) : List Diagnostic :=
  ty.problems.toList.map (·.diagnostic t)

/-- What the rules look up: the tree with its links, and what each name is declared by.  It stays
the same while a section is typed. -/
structure Context where
  /-- The tree whose nodes are typed. -/
  tree : Tree
  /-- The parents of its nodes. -/
  links : Links
  /-- The declarations of its names. -/
  resolution : Resolution

/-- A computation on a typing under way. -/
abbrev Infer := StateT Typing (Except Misuse)

/-- Report a problem. -/
def report (p : TypeProblem) : Infer Unit :=
  modify fun ty => { ty with problems := ty.problems.push p }

/-- Note how far a node has come. -/
def mark (id : NodeId) (p : Progress) : Infer Unit :=
  modify fun ty => { ty with progress := ty.progress.setIfInBounds id p }

/-- Note the value of a literal. -/
def record (id : NodeId) (v : LiteralValue) : Infer Unit :=
  modify fun ty => { ty with literals := ty.literals.insert id v }

/-- Report a problem and give the type of what has none, which no other rule reports again. -/
def refuse (p : TypeProblem) : Infer Ty := do
  report p
  return .uncastable

/-! ### Rules

Each rule takes a way `infer` to type the nodes that it mentions. -/

section Rules

variable (c : Context) (infer : NodeId → Infer Ty)

/-- The type of a literal.  Numbers are relaxed: how they are spelled decides only the family. -/
def literalRule (id : NodeId) : Literal → Infer Ty
  | .number spelling =>
    match Spelled.ofText spelling with
    | .ok (.decimal n) => do record id (.integer n); return .anyNumber
    | .ok (.octal n) => do record id (.integer n); return .anyUnsigned
    | .ok (.float bits) => do record id (.float bits); return .anyFloat
    | .error e => refuse (.badNumber id e)
  | .char ch => do record id (.char ch); return .char
  | .text _ => return .text

/-- The type that a name stands for.  Only builtin types have names. -/
def typeNameRule (id : NodeId) (name : String) : Infer Ty :=
  match Ty.ofName? name with
  | some ty => return ty
  | none => do
    report (.unknownType id name)
    return .unresolved

/-- Type an optional node. -/
def optionalRule : Option NodeId → Infer (Option Ty)
  | none => return none
  | some id => return some (← infer id)

/-- The declared type of a variable, or that of its initial value, which must be one that the
variable can hold. -/
def varRule (id : NodeId) (name : String) (ty init : Option NodeId) : Infer Ty := do
  let declared ← optionalRule infer ty
  let initial ← optionalRule infer init
  match declared, initial with
  | some dest, some source =>
    if !Ty.canAssign dest source then
      if let some init := init then report (.initializer name init dest source)
    return dest
  | some dest, none => return dest
  | none, some source => return source
  | none, none => refuse (.untyped id name)

/-- The type that the two operands of an operator promote to.  Operands without a common type are
reported, unless one of them has an error type already. -/
def binaryRule (id left op right : NodeId) : Infer Ty := do
  let leftTy ← infer left
  let _ ← infer op
  let rightTy ← infer right
  let ty := leftTy.promote rightTy
  if ty = .uncastable ∧ !leftTy.isError ∧ !rightTy.isError then
    report (.operands id left op right leftTy rightTy)
  return ty

/-- The type of an operand with a sign in front, which has to be a number. -/
def signedRule (id op operand : NodeId) : Infer Ty := do
  let _ ← infer op
  let operandTy ← infer operand
  match c.tree.shape op with
  | .signOp sign =>
    let ty := operandTy.withSign sign
    if ty = .uncastable ∧ !operandTy.isError then report (.signOperand id sign operandTy)
    return ty
  | _ => throw (.noSign id)

/-- The declared result type of the procedure that is called, or `empty` if it declares none or is
not known. -/
def callRule (id callee : NodeId) : Infer Ty := do
  let calleeTy ← infer callee
  if calleeTy.isError then return calleeTy
  if calleeTy ≠ .procedure then return ← refuse (.notCallable id calleeTy)
  match (c.resolution.procedureTarget? c.tree callee).map c.tree.shape with
  | some (.procedure (some result) _) => infer result
  | _ => return .empty

/-- The target of a cast, if the type of the operand can be cast to it.  An error type on either
side is passed on. -/
def castRule (id expr ty : NodeId) : Infer Ty := do
  let source ← infer expr
  let dest ← infer ty
  if source.isError then return source
  if dest.isError then return dest
  if !Ty.canCast source dest then return ← refuse (.cast id source dest)
  return dest

/-- Whether `target` names a variable.  Anything else is reported, except a name without a
declaration, which has been reported before. -/
def isWritable (target : NodeId) : Infer Bool := do
  let target := c.tree.ungroup target
  match c.tree.shape target with
  | .ident _ =>
    match c.resolution.declaration? target with
    | none => return false
    | some decl =>
      match c.tree.shape decl with
      | .var _ _ _ => return true
      | .constant name _ =>
        report (.constantStore target decl name)
        return false
      | _ => throw (.notDeclaration decl)
  | _ =>
    report (.notVariable target)
    return false

/-- The type of the output of native code, which must be a variable. -/
def nativeRule (inputs : List NodeId) (output : Option NodeId) : Infer Ty := do
  inputs.forM fun input => discard (infer input)
  match output with
  | none => return .empty
  | some output =>
    let ty ← infer output
    if let .slot target _ := c.tree.shape output then
      let _ ← isWritable c target
    return ty

/-- The type of what native code exchanges: a number or a character. -/
def slotRule (id target : NodeId) : Infer Ty := do
  let ty ← infer target
  if !ty.isError ∧ !ty.isNumeric ∧ ty ≠ .char then report (.nativeType id ty)
  return ty

/-- Check the store of `value` in `target`: the target must be a variable, and of a type that can
hold the value. -/
def storeRule (target value : NodeId) : Infer Unit := do
  let dest ← infer target
  let source ← infer value
  if ← isWritable c target then
    if dest = .procedure then report (.procedureStore target)
    else if !Ty.canAssign dest source then report (.store target value dest source)

/-- Check each target against its value, if there are as many of the one as of the other.  If not,
all of them are typed all the same. -/
def parallelRule (id : NodeId) (targets values : List NodeId) : Infer Unit :=
  if targets.length = values.length then
    (targets.zip values).forM fun (target, value) => storeRule c infer target value
  else do
    (targets ++ values).forM fun node => discard (infer node)
    report (.unbalanced id targets.length values.length)

/-- Check a value against the type that the procedure around it returns.  Outside of procedures
every value can be returned. -/
def returnRule (id : NodeId) (value : Option NodeId) : Infer Unit := do
  let valueTy ← optionalRule infer value
  match (c.links.enclosingProcedure? c.tree id).map c.tree.shape with
  | some (.procedure (some result) _) =>
    let resultTy ← infer result
    match value, valueTy with
    | some value, some valueTy =>
      if !Ty.canAssign resultTy valueTy then report (.returnType value result valueTy resultTy)
    | _, _ =>
      if resultTy ≠ .empty ∧ !resultTy.isError then report (.missingReturn id resultTy)
  | _ => return

/-- Type a node from the types of the nodes it mentions, a name from its declaration, and a
statement by checking its parts. -/
def rule (id : NodeId) : Infer Ty :=
  match c.tree.shape id with
  | .module _ | .block _ | .struct _ | .enum _ | .field _ _ | .variant _ | .binaryOp _
  | .signOp _ => return .empty
  | .constant _ definition => infer definition
  | .var name ty init => varRule infer id name ty init
  | .procedure _ _ => return .procedure
  | .exprStmt expr => do let _ ← infer expr; return .empty
  | .assign target value => do storeRule c infer target value; return .empty
  | .parallel targets values => do parallelRule c infer id targets values; return .empty
  | .ret value => do returnRule c infer id value; return .empty
  | .literal lit => literalRule id lit
  | .ident _ =>
    match c.resolution.declaration? id with
    | some decl => infer decl
    | none => return .unresolved
  | .binary left op right => binaryRule infer id left op right
  | .signed op operand => signedRule c infer id op operand
  | .group expr => infer expr
  | .call callee => callRule c infer id callee
  | .cast expr ty => castRule infer id expr ty
  | .native _ inputs output => nativeRule c infer inputs output
  | .slot target _ => slotRule infer id target
  | .typeName name => typeNameRule id name
  | .array _ _ => refuse (.arrayType id)

end Rules

/-! ### Each node once -/

/-- Type a node unless that has been done, with at most `depth` nodes open at a time.  A node that
is met again while it is open depends on itself. -/
def nodeWithin (c : Context) : Nat → NodeId → Infer Ty
  | 0, _ => return .uncastable
  | depth + 1, id => do
    match (← get).progressOf id with
    | .done ty => return ty
    | .active => refuse (.selfReference id)
    | .waiting =>
      mark id .active
      let ty ← rule c (nodeWithin c depth) id
      mark id (.done ty)
      return ty

/-- Type a node.  Open nodes are distinct, so there are never more of them than nodes. -/
def node (c : Context) (id : NodeId) : Infer Ty := nodeWithin c (c.tree.size + 1) id

/-- No node has been looked at. -/
def start (size : Nat) : Typing := ⟨Array.replicate size .waiting, ∅, #[]⟩

/-- Type the nodes of a section in order.  A node that an earlier one mentions has its type by the
time its turn comes. -/
def ofSection (t : Tree) (links : Links) (s : Section) (r : Resolution) : Except Misuse Typing := do
  let (_, ty) ← (s.nodes.toList.forM fun id => discard (node ⟨t, links, r⟩ id)).run (start t.size)
  return ty

end Typing

end MiddleEnd
