import MiddleEnd.Diagnostic.Basic
import MiddleEnd.Number.Spelling
import MiddleEnd.Tree.Basic
import MiddleEnd.Typing.Ty

/-!
# Type problems

What can be wrong with the types of a program, and how it is reported.

## Main definitions

* `TypeProblem` — the causes, with the nodes and types they are about.
* `TypeProblem.diagnostic` — the report of a cause.
-/

namespace MiddleEnd

/-- What is wrong with the type of a node, with the nodes and types that the report names. -/
inductive TypeProblem where
  /-- The type of a node depends on itself. -/
  | selfReference (id : NodeId)
  /-- Native code exchanges a value that is neither a number nor a character. -/
  | nativeType (slot : NodeId) (ty : Ty)
  /-- A type name that is not builtin. -/
  | unknownType (id : NodeId) (name : String)
  /-- An array type. -/
  | arrayType (id : NodeId)
  /-- A spelling that denotes no number. -/
  | badNumber (id : NodeId) (error : SpellingError)
  /-- A variable starts with a value of another type. -/
  | initializer (name : String) (init : NodeId) (dest source : Ty)
  /-- A variable has neither a type nor an initial value. -/
  | untyped (decl : NodeId) (name : String)
  /-- Operands that have no type in common. -/
  | operands (id left op right : NodeId) (leftTy rightTy : Ty)
  /-- A sign in front of something that is no number. -/
  | signOperand (id : NodeId) (sign : Sign) (ty : Ty)
  /-- A call of something that is no procedure. -/
  | notCallable (id : NodeId) (ty : Ty)
  /-- A cast between types that have nothing to do with one another. -/
  | cast (id : NodeId) (source dest : Ty)
  /-- A variable that holds a procedure is assigned. -/
  | procedureStore (target : NodeId)
  /-- A value of a type that the target cannot hold. -/
  | store (target value : NodeId) (dest source : Ty)
  /-- A parallel assignment with more targets than values, or fewer. -/
  | unbalanced (id : NodeId) (targets values : Nat)
  /-- Something other than a name is assigned. -/
  | notVariable (target : NodeId)
  /-- A constant is assigned. -/
  | constantStore (target decl : NodeId) (name : String)
  /-- Nothing is returned where a value is declared. -/
  | missingReturn (id : NodeId) (ty : Ty)
  /-- A value is returned that the declared type cannot hold. -/
  | returnType (value result : NodeId) (source dest : Ty)
  deriving DecidableEq, Repr

namespace TypeProblem

/-- Quote the name of a type. -/
def quoted (ty : Ty) : String := "`" ++ ty.name ++ "`"

/-- Label that says of what type a node is. -/
def thisIs (ty : Ty) : String := "this is " ++ quoted ty

/-- Whether one type is signed and the other one unsigned. -/
def mixesSignedness (a b : Ty) : Bool := a.isSigned && b.isUnsigned || a.isUnsigned && b.isSigned

/-- The operator of an arithmetic expression as it is written. -/
def operatorSymbol (t : Tree) (op : NodeId) : String :=
  match t.shape op with
  | .binaryOp op => op.symbol
  | _ => "?"

/-- The diagnostic for a problem.  Each of them is an error and has one primary place. -/
def diagnostic (t : Tree) : TypeProblem → Diagnostic
  | selfReference id =>
    .error .untyped "cannot infer a type for a self-referential definition"
      [.primary (t.span id) "depends on itself"] []
  | nativeType slot ty =>
    .error .nativeType ("native blocks cannot exchange " ++ quoted ty ++ " values")
      [.primary (t.span slot) "bound here"] []
  | unknownType id name =>
    .error .unknownType ("unknown type `" ++ name ++ "`")
      [.primary (t.span id) "not a builtin type"] []
  | arrayType id =>
    .error .unsupported "array types are not supported yet" [.primary (t.span id) "array type"] []
  | badNumber id error =>
    .error .badNumber error.message [.primary (t.span id) "in this literal"] []
  | initializer name init dest source =>
    .error .mismatch
      ("cannot initialize `" ++ name ++ "` of type " ++ quoted dest ++ " with " ++ quoted source)
      [.primary (t.span init) (thisIs source)] []
  | untyped decl name =>
    .error .untyped ("`" ++ name ++ "` needs a type or an initializer")
      [.primary (t.span decl) "declared here"] []
  | operands id left op right leftTy rightTy =>
    .error .mismatch
      ("cannot apply `" ++ operatorSymbol t op ++ "` to " ++ quoted leftTy ++ " and "
        ++ quoted rightTy)
      [.primary (t.span id) "incompatible operands", .secondary (t.span left) (thisIs leftTy),
        .secondary (t.span right) (thisIs rightTy)]
      (if mixesSignedness leftTy rightTy then
        ["signed and unsigned operands must be cast explicitly"]
      else [])
  | signOperand id sign ty =>
    .error .signOperand ("cannot apply unary `" ++ sign.symbol ++ "` to " ++ quoted ty)
      [.primary (t.span id) "not a numeric operand"] []
  | notCallable id ty =>
    .error .notCallable (quoted ty ++ " is not callable") [.primary (t.span id) "called here"] []
  | cast id source dest =>
    .error .cast ("cannot cast " ++ quoted source ++ " to " ++ quoted dest)
      [.primary (t.span id) "invalid cast"] []
  | procedureStore target =>
    .error .unsupported "procedure variables cannot be reassigned"
      [.primary (t.span target) "holds a procedure"] ["declare a new name for the other procedure"]
  | store target value dest source =>
    .error .mismatch ("cannot assign " ++ quoted source ++ " to a " ++ quoted dest ++ " slot")
      [.primary (t.span value) (thisIs source), .secondary (t.span target) (thisIs dest)] []
  | unbalanced id targets values =>
    .error .unbalanced s!"assignment has {targets} targets but {values} values"
      [.primary (t.span id) "unbalanced assignment"] []
  | notVariable target =>
    .error .unsupported "only plain variables can be assigned"
      [.primary (t.span target) "not a variable"] []
  | constantStore target decl name =>
    .error .constantStore ("cannot assign to constant `" ++ name ++ "`")
      [.primary (t.span target) "assignment to a constant",
        .secondary (t.span decl) "declared with `::` here"] []
  | missingReturn id ty =>
    .error .mismatch ("missing return value of type " ++ quoted ty)
      [.primary (t.span id) "returns nothing"] []
  | returnType value result source dest =>
    .error .mismatch
      ("cannot return " ++ quoted source ++ " from a procedure returning " ++ quoted dest)
      [.primary (t.span value) (thisIs source),
        .secondary (t.span result) "return type declared here"] []

end TypeProblem

end MiddleEnd
