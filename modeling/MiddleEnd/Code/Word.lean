import MiddleEnd.Code.Kind
import MiddleEnd.Number.Binary

/-!
# Words

A register holds 64 bits.  A word does not know its kind: a kind reads a value from its low bits,
and writes a value as its *canonical* word, with signed integers sign-extended, all else
zero-extended.

## Main definitions

* `Word` — 64 bits.
* `IntKind.value` — the integer that a kind reads from a word; upper bits do not count.
* `IntKind.wrap` — the value of a kind that is congruent to an integer.
* `Word.ofInt` — the two's complement of an integer.
* `FloatKind.value`, `FloatKind.word` — floats in words.
* `Kind.convert` — the word of one kind for the value that another kind reads.
-/

namespace MiddleEnd

/-- What a register holds: 64 bits, which a kind gives their meaning. -/
abbrev Word := UInt64

namespace Word

/-- The 64 low bits of the two's complement of an integer, which is how a negative value is kept in
a word. -/
def ofInt (v : Int) : Word := UInt64.ofNat (v % (UInt64.size : Int)).toNat

/-- The 16 hexadecimal digits of a word. -/
def digits (w : Word) : String :=
  let digits := Nat.toDigits 16 w.toNat
  String.ofList (List.replicate (16 - digits.length) '0' ++ digits)

/-- Hexadecimal form of a word. -/
def text (w : Word) : String := "0x" ++ w.digits

/-- Form of a word that names what it is. -/
def debugText (w : Word) : String := "Word(" ++ w.text ++ ")"

end Word

namespace IntKind

/-- The value of the kind that is congruent to `v` modulo the number of its values. -/
def wrap (k : IntKind) (v : Int) : Int :=
  if k.isSigned then v.bmod k.modulus else v % k.modulus

/-- The integer in the low bits of a word, with a sign if the kind has one.  The bits above the
width of the kind may hold anything. -/
def value (k : IntKind) (w : Word) : Int := k.wrap w.toNat

/-- The canonical word of an integer, which is wrapped first. -/
def word (k : IntKind) (v : Int) : Word := Word.ofInt (k.wrap v)

end IntKind

namespace FloatKind

/-- The interchange format of a float kind. -/
def format : FloatKind → BinaryFormat
  | f32 => .binary32
  | f64 => .binary64

/-- The number in the low bits of a word. -/
def value (k : FloatKind) (w : Word) : BinaryValue := k.format.decode (w.toNat % twoPow k.bits)

/-- The canonical word of a number, rounded to nearest. -/
def word (k : FloatKind) (v : BinaryValue) : Word := UInt64.ofNat (k.format.encode v)

/-- Whether the low bits of a word are a number or an infinity. -/
def isNumber (k : FloatKind) (w : Word) : Bool := k.format.isNumber (w.toNat % twoPow k.bits)

end FloatKind

namespace Kind

/-- Convert a value from kind to kind: integers wrap, floats lose their fraction and are clamped,
and what a float cannot hold is rounded to nearest.  Every word has a result. -/
def convert (source target : Kind) (w : Word) : Word :=
  match source, target with
  | int a, int b => b.word (a.value w)
  | int a, float b => b.word (.ofInt (a.value w))
  | float a, int b => b.word ((a.value w).truncate b.lo b.hi)
  | float a, float b => b.word (a.value w)

end Kind

end MiddleEnd
