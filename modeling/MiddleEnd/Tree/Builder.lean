import MiddleEnd.Tree.Basic

/-!
# Building trees

One call per node.  A span set with `Build.setSpan` goes to the node that the next call is about;
leaves that such a call allocates on its way do not take it.  Without one a leaf lies `nowhere` and
an inner node covers its children.

## Main definitions

* `Builder` — the tree so far and the span set for the next node.
* `Build` — calls on a builder; a call that names a node outside the tree has no result.
* `Build.node` — allocate one node.
* `Build.setAside` — run calls that must not take the span that is set.
-/

namespace MiddleEnd

/-- A tree under construction, with the span that has been set for the node to come. -/
structure Builder where
  /-- The tree so far. -/
  tree : Tree
  /-- Span for the next node. -/
  pending : Option Span

namespace Builder

/-- Nothing built and no span set. -/
def empty : Builder := ⟨.empty, none⟩

end Builder

/-- Calls on a builder.  One that names a node outside the tree has no result, and neither has what
follows it. -/
abbrev Build := StateT Builder Option

namespace Build

/-- Use `span` for the next node. -/
def setSpan (span : Span) : Build Unit := modify fun b => { b with pending := some span }

/-- Append exactly the node given, whatever span is set. -/
def alloc (shape : Shape) (span : Span) : Build NodeId := fun ⟨tree, pending⟩ =>
  let id := tree.size
  (tree.push? shape span).map fun tree => (id, ⟨tree, pending⟩)

/-- Append a node with the span that is set, or else with `covered`.  The span is used up by it. -/
def node (shape : Shape) (covered : Span) : Build NodeId := fun ⟨tree, pending⟩ =>
  let id := tree.size
  (tree.push? shape (pending.getD covered)).map fun tree => (id, ⟨tree, none⟩)

/-- Append a leaf, which lies `nowhere` unless a span is set. -/
def leaf (shape : Shape) : Build NodeId := node shape .nowhere

/-- A node that covers the nodes `around`. -/
def covering (shape : Shape) (around : List NodeId) : Build NodeId := do
  let tree := (← get).tree
  node shape (.coverAll (around.map tree.span))

/-- Run `calls` with no span set, then set the span that was set before.  The nodes allocated on the
way thus leave it to the node that is built from them. -/
def setAside {α : Type} (calls : Build α) : Build α := do
  let pending := (← get).pending
  modify fun b => { b with pending := none }
  let a ← calls
  modify fun b => { b with pending }
  return a

/-! ### Leaves -/

/-- A number, given by its spelling. -/
def number (spelling : String) : Build NodeId := leaf (.literal (.number spelling))

/-- A character. -/
def char (c : Char) : Build NodeId := leaf (.literal (.char c))

/-- A text. -/
def text (contents : String) : Build NodeId := leaf (.literal (.text contents))

/-- An identifier. -/
def ident (name : String) : Build NodeId := leaf (.ident name)

/-- The name of a type. -/
def typeName (name : String) : Build NodeId := leaf (.typeName name)

/-! ### Expressions -/

/-- An arithmetic expression; its operator is a node of its own, between the operands. -/
def binary (left : NodeId) (op : BinaryOp) (right : NodeId) : Build NodeId := do
  let op ← setAside (leaf (.binaryOp op))
  covering (.binary left op right) [left, right]

/-- A signed expression; its sign is a node of its own, in front of the operand. -/
def signed (sign : Sign) (operand : NodeId) : Build NodeId := do
  let op ← setAside (leaf (.signOp sign))
  covering (.signed op operand) [operand]

/-- An expression in parentheses. -/
def group (expr : NodeId) : Build NodeId := covering (.group expr) [expr]

/-- A call. -/
def call (callee : NodeId) : Build NodeId := covering (.call callee) [callee]

/-- A cast of an expression to a type. -/
def cast (expr ty : NodeId) : Build NodeId := covering (.cast expr ty) [expr, ty]

/-- An identifier tied to an offset of a native frame. -/
def slot (name : String) (offset : Nat) : Build NodeId := do
  leaf (.slot (← ident name) offset)

/-- Native code with its inputs and its output, each an identifier and a frame offset.  It covers
nothing: its parts lie `nowhere`. -/
def native (source : String) (inputs : List (String × Nat)) (output : Option (String × Nat)) :
    Build NodeId := do
  let (inputs, output) ← setAside do
    let inputs ← inputs.mapM fun (name, offset) => slot name offset
    let output ← output.mapM fun (name, offset) => slot name offset
    return (inputs, output)
  leaf (.native source inputs output)

/-! ### Declarations and definitions -/

/-- A declaration of a constant. -/
def constant (name : String) (definition : NodeId) : Build NodeId :=
  covering (.constant name definition) [definition]

/-- A declaration of a variable, with a type, an initial value, or both. -/
def var (name : String) (ty init : Option NodeId) : Build NodeId :=
  covering (.var name ty init) (ty.toList ++ init.toList)

/-- A procedure, perhaps with a declared result type. -/
def procedure (result : Option NodeId) (body : NodeId) : Build NodeId :=
  covering (.procedure result body) (result.toList ++ [body])

/-- A structure with named fields; it covers the fields and each field covers its type. -/
def struct (fields : List (String × NodeId)) : Build NodeId := do
  let fields ← setAside (fields.mapM fun (name, ty) => covering (.field name ty) [ty])
  covering (.struct fields) fields

/-- An enumeration with named variants.  The variants cover nothing, and neither does it. -/
def enum (variants : List String) : Build NodeId := do
  let variants ← setAside (variants.mapM fun name => leaf (.variant name))
  leaf (.enum variants)

/-- An array type. -/
def array (elem len : NodeId) : Build NodeId := covering (.array elem len) [elem, len]

/-! ### Statements -/

/-- An expression in the place of a statement. -/
def exprStmt (expr : NodeId) : Build NodeId := covering (.exprStmt expr) [expr]

/-- A store to one target. -/
def assign (target value : NodeId) : Build NodeId :=
  covering (.assign target value) [target, value]

/-- A store to several targets at once. -/
def parallel (targets values : List NodeId) : Build NodeId :=
  covering (.parallel targets values) (targets ++ values)

/-- A return, perhaps with a value. -/
def ret (value : Option NodeId) : Build NodeId := covering (.ret value) value.toList

/-! ### Scopes -/

/-- A block of statements. -/
def block (stmts : List NodeId) : Build NodeId := covering (.block stmts) stmts

/-- The items of a source text. -/
def module (items : List NodeId) : Build NodeId := covering (.module items) items

end Build

end MiddleEnd
