import MiddleEnd.Number.Power
import MiddleEnd.Typing.Ty

/-!
# Number kinds

How the machine reads the words in its registers: as a signed or unsigned integer of some width, or
as a binary float.

## Main definitions

* `IntKind`, `FloatKind`, `Kind` — the kinds.
* `IntKind.lo`, `IntKind.hi` — least and greatest value of an integer kind.
* `Kind.ofTy?` — the kind in which values of a type are kept, if they are numbers.
-/

namespace MiddleEnd

/-- Width of an integer: the number of low bits of a word that hold it. -/
inductive Width where
  /-- One byte. -/
  | w8
  /-- Two bytes. -/
  | w16
  /-- Four bytes. -/
  | w32
  /-- Eight bytes, a whole word. -/
  | w64
  deriving DecidableEq, Repr

/-- The number of bits of a width. -/
def Width.bits : Width → Nat
  | w8 => 8
  | w16 => 16
  | w32 => 32
  | w64 => 64

/-- How a word is read as an integer: with or without a sign, and in how many bits.  The bits above
the width do not count. -/
structure IntKind where
  /-- Whether the highest bit counts as the sign, as in two's complement. -/
  isSigned : Bool
  /-- How many of the low bits of a word are read. -/
  width : Width
  deriving DecidableEq, Repr

namespace IntKind

/-- The number of bits that are read. -/
def bits (k : IntKind) : Nat := k.width.bits

/-- The number of values of the kind, which is what its arithmetic wraps by. -/
def modulus (k : IntKind) : Nat := twoPow k.bits

/-- The least value of the kind: zero, or the negative power of two that the sign allows. -/
def lo (k : IntKind) : Int := if k.isSigned then -(twoPow (k.bits - 1) : Int) else 0

/-- The greatest value of the kind. -/
def hi (k : IntKind) : Int := k.lo + k.modulus - 1

/-- Whether a value of the kind is equal to `v`, so that `v` can be kept without a loss. -/
def fits (k : IntKind) (v : Int) : Bool := k.lo ≤ v && v ≤ k.hi

end IntKind

/-- How a word is read as a float: as one of the two binary interchange formats. -/
inductive FloatKind where
  /-- Single precision, in the low half of a word. -/
  | f32
  /-- Double precision, in a whole word. -/
  | f64
  deriving DecidableEq, Repr

/-- The number of bits of a float. -/
def FloatKind.bits : FloatKind → Nat
  | f32 => 32
  | f64 => 64

/-- How the machine reads the word in a register: as an integer or as a float.  Instructions carry
the kinds they work on, since a word does not say of what kind it is. -/
inductive Kind where
  /-- Read as an integer. -/
  | int (kind : IntKind)
  /-- Read as a float. -/
  | float (kind : FloatKind)
  deriving DecidableEq, Repr

namespace Kind

/-- Signed integers of one byte. -/
def i8 : Kind := int ⟨true, .w8⟩
/-- Signed integers of two bytes. -/
def i16 : Kind := int ⟨true, .w16⟩
/-- Signed integers of four bytes. -/
def i32 : Kind := int ⟨true, .w32⟩
/-- Signed integers of eight bytes. -/
def i64 : Kind := int ⟨true, .w64⟩
/-- Unsigned integers of one byte. -/
def u8 : Kind := int ⟨false, .w8⟩
/-- Unsigned integers of two bytes. -/
def u16 : Kind := int ⟨false, .w16⟩
/-- Unsigned integers of four bytes. -/
def u32 : Kind := int ⟨false, .w32⟩
/-- Unsigned integers of eight bytes. -/
def u64 : Kind := int ⟨false, .w64⟩
/-- Floats in single precision. -/
def f32 : Kind := float .f32
/-- Floats in double precision. -/
def f64 : Kind := float .f64

/-- The ten kinds there are, integers first. -/
def all : List Kind := [i8, i16, i32, i64, u8, u16, u32, u64, f32, f64]

/-- The number of low bits of a word that a value of the kind is kept in. -/
def bits : Kind → Nat
  | int k => k.bits
  | float k => k.bits

/-- Whether values of the kind are floats. -/
def isFloat : Kind → Bool
  | int _ => false
  | float _ => true

/-- Whether values of the kind are integers with a sign.  A float is neither signed nor unsigned. -/
def isSigned : Kind → Bool
  | int k => k.isSigned
  | float _ => false

/-- Whether values of the kind are integers without a sign. -/
def isUnsigned : Kind → Bool
  | int k => !k.isSigned
  | float _ => false

/-- The name of a kind in opcodes: a letter for the family and the width in bits. -/
def name (k : Kind) : String :=
  (if k.isFloat then "f" else if k.isSigned then "i" else "u") ++ toString k.bits

/-- The kind that has a name. -/
def ofName? (s : String) : Option Kind := all.find? (·.name == s)

/-- The kind in which values of a type are kept.  Relaxed types take the widest kind of their
family, a character is its code point, and the integers of the machine have 64 bits. -/
def ofTy? : Ty → Option Kind
  | .int8 => i8
  | .int16 => i16
  | .int32 => i32
  | .int64 | .int | .anyNumber | .anySigned => i64
  | .uint8 => u8
  | .uint16 => u16
  | .uint32 | .char => u32
  | .uint64 | .uint | .anyUnsigned => u64
  | .float32 => f32
  | .float64 | .anyFloat => f64
  | .text | .empty | .procedure | .uninferred | .unresolved | .uncastable => none

end Kind

end MiddleEnd
