/-!
# Types

The types that nodes can have.  Next to the builtin types there are *relaxed* types of literals
whose width their use decides, and *error* types that pass through every rule unchanged.

## Main definitions

* `Ty` — the types.
* `Ty.families` — the families a type belongs to.
* `Ty.rank` — the order in which the wider of two numeric types is chosen.
* `Ty.ofName?`, `Ty.name` — builtin types by name, and the written form of every type.
-/

namespace MiddleEnd

/-- The types of nodes: those that programs name, those of procedures and statements, the relaxed
types of literals, and the error types. -/
inductive Ty where
  /-- A text. -/
  | text
  /-- A character. -/
  | char
  /-- A float in single precision. -/
  | float32
  /-- A float in double precision. -/
  | float64
  /-- A signed integer of one byte. -/
  | int8
  /-- A signed integer of two bytes. -/
  | int16
  /-- A signed integer of four bytes. -/
  | int32
  /-- A signed integer of eight bytes. -/
  | int64
  /-- The signed integer of the machine. -/
  | int
  /-- An unsigned integer of one byte. -/
  | uint8
  /-- An unsigned integer of two bytes. -/
  | uint16
  /-- An unsigned integer of four bytes. -/
  | uint32
  /-- An unsigned integer of eight bytes. -/
  | uint64
  /-- The unsigned integer of the machine. -/
  | uint
  /-- No value, as statements have. -/
  | empty
  /-- A value that is a procedure. -/
  | procedure
  /-- A decimal literal, which fits every numeric type. -/
  | anyNumber
  /-- A literal with a point or an exponent. -/
  | anyFloat
  /-- A literal with a sign in front. -/
  | anySigned
  /-- An octal literal. -/
  | anyUnsigned
  /-- A node that has not been looked at. -/
  | uninferred
  /-- A name that was not found. -/
  | unresolved
  /-- No rule gives a type. -/
  | uncastable
  deriving DecidableEq, Repr, Inhabited

/-- The families a type belongs to, which the rules for operators, stores and casts ask for in the
first place. -/
structure Families where
  /-- Numbers. -/
  numeric : Bool := false
  /-- Numbers with a fraction. -/
  float : Bool := false
  /-- Integers with a sign. -/
  signed : Bool := false
  /-- Integers without a sign. -/
  unsigned : Bool := false
  /-- Literals whose width their use decides. -/
  relaxed : Bool := false
  /-- Types of what has no type. -/
  error : Bool := false
  deriving DecidableEq, Repr

namespace Families

/-- One bit per family. -/
def bits (f : Families) : Nat :=
  f.numeric.toNat + 2 * f.float.toNat + 4 * f.signed.toNat + 8 * f.unsigned.toNat
    + 16 * f.relaxed.toNat + 32 * f.error.toNat

end Families

namespace Ty

/-- The families of each type. -/
def families : Ty → Families
  | text | char | empty | procedure => {}
  | float32 | float64 => { numeric := true, float := true }
  | int8 | int16 | int32 | int64 | int => { numeric := true, signed := true }
  | uint8 | uint16 | uint32 | uint64 | uint => { numeric := true, unsigned := true }
  | anyNumber => { numeric := true, relaxed := true }
  | anyFloat => { numeric := true, float := true, relaxed := true }
  | anySigned => { numeric := true, signed := true, relaxed := true }
  | anyUnsigned => { numeric := true, unsigned := true, relaxed := true }
  | uninferred | unresolved | uncastable => { error := true }

/-- Whether values of the type are numbers. -/
def isNumeric (t : Ty) : Bool := t.families.numeric

/-- Whether they are floats. -/
def isFloat (t : Ty) : Bool := t.families.float

/-- Whether they are integers with a sign.  A decimal literal has none of either kind. -/
def isSigned (t : Ty) : Bool := t.families.signed

/-- Whether they are integers without a sign. -/
def isUnsigned (t : Ty) : Bool := t.families.unsigned

/-- Whether the width of values is left open. -/
def isRelaxed (t : Ty) : Bool := t.families.relaxed

/-- Whether this is the type of something that has none. -/
def isError (t : Ty) : Bool := t.families.error

/-- An integer type of either signedness, relaxed ones included. -/
def isInteger (t : Ty) : Bool := t.isNumeric && !t.isFloat

/-- Place of a numeric type in the order of widths.  Relaxed types come before all others, and the
integers of the machine after them. -/
def rank : Ty → Nat
  | anyFloat | anySigned | anyUnsigned => 1
  | int8 | uint8 => 2
  | int16 | uint16 => 3
  | int32 | uint32 | float32 => 4
  | int64 | uint64 | float64 => 5
  | int | uint => 6
  | _ => 0

/-- The signed type as wide as an unsigned one; other types are kept. -/
def toSigned : Ty → Ty
  | uint8 => int8
  | uint16 => int16
  | uint32 => int32
  | uint64 => int64
  | uint => int
  | anyUnsigned | anyNumber => anySigned
  | other => other

/-- The written form, which programs use for the builtin types. -/
def name : Ty → String
  | text => "text"
  | char => "char"
  | float32 => "float32"
  | float64 => "float64"
  | int8 => "int8"
  | int16 => "int16"
  | int32 => "int32"
  | int64 => "int64"
  | int => "int"
  | uint8 => "uint8"
  | uint16 => "uint16"
  | uint32 => "uint32"
  | uint64 => "uint64"
  | uint => "uint"
  | empty => "empty"
  | procedure => "procedure"
  | anyNumber => "\x7bnumber\x7d"
  | anyFloat => "\x7bfloat\x7d"
  | anySigned => "\x7bsigned\x7d"
  | anyUnsigned => "\x7bunsigned\x7d"
  | uninferred => "<uninferred>"
  | unresolved => "<unresolved>"
  | uncastable => "<uncastable>"

/-- The types that a program can name. -/
def builtin : List Ty :=
  [text, char, float32, float64, int8, int16, int32, int64, int, uint8, uint16, uint32,
    uint64, uint, empty]

/-- Every type there is. -/
def all : List Ty :=
  builtin ++ [procedure, anyNumber, anyFloat, anySigned, anyUnsigned, uninferred, unresolved,
    uncastable]

/-- The builtin type with a given name. -/
def ofName? (s : String) : Option Ty := builtin.find? (·.name == s)

end Ty

end MiddleEnd
