import MiddleEnd.Code.Word
import MiddleEnd.Tree.Shape

/-!
# Arithmetic on words

Integer results are exact or refused: the operation is carried out on integers, and a result that
the kind cannot hold is an overflow.  Floats follow IEEE 754.

## Main definitions

* `ArithOp` — the four operators and negation.
* `ArithError` — why an operation has no result.
* `ArithOp.eval?` — the operation on integers.
* `ArithOp.apply` — the operation on two words of one kind.
-/

namespace MiddleEnd

/-- What the arithmetic instructions compute: one of the four operations, or a change of sign. -/
inductive ArithOp where
  /-- One of the four operations on two words. -/
  | binary (op : BinaryOp)
  /-- The change of sign, of one word. -/
  | negate
  deriving DecidableEq, Repr

/-- Why an operation on integers has no result.  An operation on floats always has one. -/
inductive ArithError where
  /-- The right side of a division is zero. -/
  | divisionByZero
  /-- The exact result is out of the range of the kind. -/
  | overflow (op : ArithOp) (kind : Kind)
  deriving DecidableEq, Repr

namespace ArithOp

/-- What the operation is called in messages. -/
def name : ArithOp → String
  | binary .add => "addition"
  | binary .sub => "subtraction"
  | binary .mul => "multiplication"
  | binary .div => "division"
  | negate => "negation"

/-- The operation on integers: division is toward zero and has no result by zero, negation ignores
the second operand. -/
def eval? : ArithOp → Int → Int → Option Int
  | binary .add, x, y => some (x + y)
  | binary .sub, x, y => some (x - y)
  | binary .mul, x, y => some (x * y)
  | binary .div, x, y => if y = 0 then none else some (x.tdiv y)
  | negate, x, _ => some (-x)

/-- The operation on integers: the exact result, if there is one and the kind can hold it.  A result
is never wrapped; wrapping is left to conversions. -/
def onInts (op : ArithOp) (k : IntKind) (a b : Word) : Except ArithError Word :=
  match op.eval? (k.value a) (k.value b) with
  | none => .error .divisionByZero
  | some v => if k.fits v then .ok (Word.ofInt v) else .error (.overflow op (.int k))

/-- The operation on floats in double precision. -/
def onDoubles (op : ArithOp) (x y : Float) : Float :=
  match op with
  | binary .add => x + y
  | binary .sub => x - y
  | binary .mul => x * y
  | binary .div => x / y
  | negate => -x

/-- The operation on floats in single precision. -/
def onSingles (op : ArithOp) (x y : Float32) : Float32 :=
  match op with
  | binary .add => x + y
  | binary .sub => x - y
  | binary .mul => x * y
  | binary .div => x / y
  | negate => -x

/-- The operation on words that are both read as `kind`.  The result is a canonical word of the same
kind, and only an operation on integers can have none. -/
def apply (op : ArithOp) (kind : Kind) (a b : Word) : Except ArithError Word :=
  match kind with
  | .int k => op.onInts k a b
  | .float .f32 =>
    .ok (op.onSingles (.ofBits a.toUInt32) (.ofBits b.toUInt32)).toBits.toUInt64
  | .float .f64 => .ok (op.onDoubles (.ofBits a) (.ofBits b)).toBits

end ArithOp

namespace ArithError

/-- What is said about the error when a run ends with it. -/
def message : ArithError → String
  | divisionByZero => "division by zero"
  | overflow op kind => "integer overflow in " ++ op.name ++ " of `" ++ kind.name ++ "` values"

end ArithError

/-- Negate a word read as `kind`. -/
def Kind.negate (kind : Kind) (a : Word) : Except ArithError Word := ArithOp.negate.apply kind a a

end MiddleEnd
