import MiddleEnd.Number.Power

/-!
# Binary floating-point formats

The finite numbers of a format are the multiples of powers of two whose significand fits the
precision.  A number is stored as a sign bit above a magnitude, and magnitudes are ordered as the
natural numbers that store them.

## Main definitions

* `BinaryFormat` — precision and width of the exponent; `binary32` and `binary64`.
* `BinaryFormat.decode` — the value of a bit pattern, exactly.
* `BinaryFormat.nearest` — the magnitude nearest to a fraction; of two equally near ones the even
  one.
* `BinaryFormat.encode` — the bit pattern of a value.
* `BinaryValue.truncate` — the integer part of a value.
-/

namespace MiddleEnd

/-- A value without rounding: `± significand * 2 ^ exponent`, infinite, or not a number.  One number
has several such forms. -/
inductive BinaryValue where
  /-- Not a number. -/
  | nan
  /-- Beyond every number, on one of the two sides. -/
  | infinite (negative : Bool)
  /-- A number.  Zero comes with either sign. -/
  | finite (negative : Bool) (significand : Nat) (exponent : Int)
  deriving DecidableEq, Repr

namespace BinaryValue

/-- The integer `n`; zero is not negative. -/
def ofInt (n : Int) : BinaryValue := finite (n < 0) n.natAbs 0

/-- `n` with its sign given apart. -/
def applySign (negative : Bool) (n : Nat) : Int := if negative then -(n : Int) else n

/-- The part before the point, clamped to `lo ≤ · ≤ hi`; 0 for what is not a number. -/
def truncate (lo hi : Int) : BinaryValue → Int
  | nan => 0
  | infinite negative => if negative then lo else hi
  | finite negative m e =>
    let (num, den) := scaled 2 m e
    max lo (min hi (applySign negative (num / den)))

end BinaryValue

/-- `num / den` rounded to a natural number, a half to the even neighbour. -/
def roundHalfEven (num den : Nat) : Nat :=
  let q := num / den
  let r := num % den
  if 2 * r < den then q
  else if den < 2 * r then q + 1
  else q + q % 2

/-- The greatest `e` with `2 ^ e ≤ num / den`, for positive `num` and `den`. -/
def floorLog2 (num den : Nat) : Int :=
  let e : Int := (num.log2 : Int) - den.log2
  let reaches := if 0 ≤ e then den * twoPow e.toNat ≤ num else den ≤ num * twoPow (-e).toNat
  if reaches then e else e - 1

/-- A binary interchange format, given by the widths of its two fields.  Everything else about it
follows from them. -/
structure BinaryFormat where
  /-- Bits of a significand, the leading one included. -/
  precision : Nat
  /-- Bits of the exponent field. -/
  exponentBits : Nat
  deriving DecidableEq, Repr

namespace BinaryFormat

/-- Single precision. -/
def binary32 : BinaryFormat := ⟨24, 8⟩

/-- Double precision. -/
def binary64 : BinaryFormat := ⟨53, 11⟩

/-- Significands that share one exponent field. -/
def block (f : BinaryFormat) : Nat := twoPow (f.precision - 1)

/-- Exponent of the least positive number. -/
def minExponent (f : BinaryFormat) : Int := 3 - twoPow (f.exponentBits - 1) - f.precision

/-- The magnitude that stores infinity; greater ones are no numbers. -/
def infinity (f : BinaryFormat) : Nat := (twoPow f.exponentBits - 1) * f.block

/-- Bit patterns without a sign bit. -/
def signBit (f : BinaryFormat) : Nat := twoPow f.exponentBits * f.block

/-- The value of a bit pattern. -/
def decode (f : BinaryFormat) (bits : Nat) : BinaryValue :=
  let negative := bits / f.signBit % 2 = 1
  let magnitude := bits % f.signBit
  let field := magnitude / f.block
  if f.infinity < magnitude then .nan
  else if magnitude = f.infinity then .infinite negative
  else if field = 0 then .finite negative magnitude f.minExponent
  else .finite negative (magnitude % f.block + f.block) (f.minExponent + (field - 1))

/-- The magnitude nearest to `num / den`, for positive `den`.  The exponent is chosen so that the
rounded significand fits; significand and exponent field then add up to the magnitude, a carry out
of the significand included. -/
def nearest (f : BinaryFormat) (num den : Nat) : Nat :=
  if num = 0 then 0
  else
    let e := max (floorLog2 num den - (f.precision - 1)) f.minExponent
    let significand :=
      if 0 ≤ e then roundHalfEven num (den * twoPow e.toNat)
      else roundHalfEven (num * twoPow (-e).toNat) den
    min f.infinity ((e - f.minExponent).toNat * f.block + significand)

/-- The bit pattern that stands for results that are no number. -/
def quietNan (f : BinaryFormat) : Nat := f.infinity + f.block / 2

/-- The bit pattern of a value, rounded to nearest. -/
def encode (f : BinaryFormat) : BinaryValue → Nat
  | .nan => f.quietNan
  | .infinite negative => negative.toNat * f.signBit + f.infinity
  | .finite negative m e =>
    let (num, den) := scaled 2 m e
    negative.toNat * f.signBit + f.nearest num den

/-- Whether a bit pattern is that of a number or an infinity. -/
def isNumber (f : BinaryFormat) (bits : Nat) : Bool := bits % f.signBit ≤ f.infinity

end BinaryFormat

end MiddleEnd
