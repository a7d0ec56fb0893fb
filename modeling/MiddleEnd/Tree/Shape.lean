/-!
# Shapes of syntax nodes

What a node of a syntax tree is, and which nodes hang below it.  Children are given by number, so
that one node may hang below several others.

## Main definitions

* `BinaryOp`, `Sign` — the arithmetic operators.
* `Literal` — literals; the value of a number is read from its spelling only when it is typed.
* `Shape` — the kinds of nodes with their children.
* `Shape.children` — the children in the order in which every pass visits them.
-/

namespace MiddleEnd

/-- Position of a node in its tree, in order of allocation. -/
abbrev NodeId := Nat

namespace NodeId

/-- The 32-bit number that stands for "no node" where a number is required. -/
def absentNumber : Nat := UInt32.size - 1

/-- The node with a given 32-bit number, unless that number stands for "no node". -/
def ofNumber? (n : Nat) : Option NodeId := if n = absentNumber then none else some n

/-- Written form of a possibly absent node. -/
def text : Option NodeId → String
  | some id => s!"NodeId({id})"
  | none => "NodeId::INVALID"

end NodeId

/-- Arithmetic operators with two operands. -/
inductive BinaryOp where
  /-- Addition. -/
  | add
  /-- Subtraction. -/
  | sub
  /-- Multiplication. -/
  | mul
  /-- Division. -/
  | div
  deriving DecidableEq, Repr

namespace BinaryOp

/-- How the operator is written. -/
def symbol : BinaryOp → String
  | add => "+"
  | sub => "-"
  | mul => "*"
  | div => "/"

/-- The four operators. -/
def all : List BinaryOp := [add, sub, mul, div]

/-- The operator that is written so. -/
def ofSymbol? (s : String) : Option BinaryOp := all.find? (·.symbol == s)

end BinaryOp

/-- Sign operators. -/
inductive Sign where
  /-- Keeps the value. -/
  | plus
  /-- Changes the sign. -/
  | minus
  deriving DecidableEq, Repr

namespace Sign

/-- How the sign is written. -/
def symbol : Sign → String
  | plus => "+"
  | minus => "-"

/-- Both signs. -/
def all : List Sign := [plus, minus]

/-- The sign that is written so. -/
def ofSymbol? (s : String) : Option Sign := all.find? (·.symbol == s)

end Sign

/-- A value written in the source.  A number is kept as it is spelled, since its value is read only
when it is typed. -/
inductive Literal where
  /-- A number as it is spelled, for instance `42`, `017` or `2.5e3`. -/
  | number (spelling : String)
  /-- A character. -/
  | char (c : Char)
  /-- A text, without its quotes. -/
  | text (contents : String)
  deriving DecidableEq, Repr

/-- What a node is, with the nodes it is made of.  Names are kept as texts, optional children as
options, and operators are nodes of their own. -/
inductive Shape where
  /-- The items of a source text. -/
  | module (items : List NodeId)
  /-- Statements with a scope of their own. -/
  | block (stmts : List NodeId)
  /-- `name :: definition` -/
  | constant (name : String) (definition : NodeId)
  /-- `name : ty = init`, with either part left out -/
  | var (name : String) (ty init : Option NodeId)
  /-- A procedure, with its declared result type if there is one. -/
  | procedure (result : Option NodeId) (body : NodeId)
  /-- A structure. -/
  | struct (fields : List NodeId)
  /-- A field of a structure. -/
  | field (name : String) (ty : NodeId)
  /-- An enumeration. -/
  | enum (variants : List NodeId)
  /-- A variant of an enumeration. -/
  | variant (name : String)
  /-- An expression in the place of a statement. -/
  | exprStmt (expr : NodeId)
  /-- A store to one target. -/
  | assign (target value : NodeId)
  /-- `a, b = b, a` -/
  | parallel (targets values : List NodeId)
  /-- A return. -/
  | ret (value : Option NodeId)
  /-- A literal. -/
  | literal (lit : Literal)
  /-- A name in the place of an expression. -/
  | ident (name : String)
  /-- An arithmetic expression with two operands. -/
  | binary (left op right : NodeId)
  /-- An expression with a sign in front. -/
  | signed (op operand : NodeId)
  /-- An expression in parentheses. -/
  | group (expr : NodeId)
  /-- A call, which takes no arguments. -/
  | call (callee : NodeId)
  /-- A cast to a type. -/
  | cast (expr ty : NodeId)
  /-- Native code that reads its `inputs` and writes its `output`. -/
  | native (source : String) (inputs : List NodeId) (output : Option NodeId)
  /-- Ties an identifier to a byte offset in the frame of native code. -/
  | slot (target : NodeId) (offset : Nat)
  /-- The operator of an arithmetic expression. -/
  | binaryOp (op : BinaryOp)
  /-- The sign of a signed expression. -/
  | signOp (op : Sign)
  /-- The name of a type. -/
  | typeName (name : String)
  /-- An array type. -/
  | array (elem len : NodeId)
  deriving DecidableEq, Repr

namespace Shape

/-- The nodes directly below, in visiting order. -/
def children : Shape → List NodeId
  | module items => items
  | block stmts => stmts
  | constant _ definition => [definition]
  | var _ ty init => ty.toList ++ init.toList
  | procedure result body => result.toList ++ [body]
  | struct fields => fields
  | field _ ty => [ty]
  | enum variants => variants
  | exprStmt expr => [expr]
  | assign target value => [target, value]
  | parallel targets values => targets ++ values
  | ret value => value.toList
  | binary left op right => [left, op, right]
  | signed op operand => [op, operand]
  | group expr => [expr]
  | call callee => [callee]
  | cast expr ty => [expr, ty]
  | native _ inputs output => inputs ++ output.toList
  | slot target _ => [target]
  | array elem len => [elem, len]
  | variant _ | literal _ | ident _ | binaryOp _ | signOp _ | typeName _ => []

/-- Whether the node opens a region in which names are declared: a block, or the items of a source
text. -/
def isScope : Shape → Bool
  | module _ | block _ => true
  | _ => false

/-- Whether the node is a procedure. -/
def isProcedure : Shape → Bool
  | procedure _ _ => true
  | _ => false

/-- The name that a declaration declares, which is that of a constant or of a variable. -/
def declaredName? : Shape → Option String
  | constant name _ => some name
  | var name _ _ => some name
  | _ => none

/-- Whether the node declares a name. -/
def isDeclaration (s : Shape) : Bool := s.declaredName?.isSome

end Shape

end MiddleEnd
