import MiddleEnd.Number.Binary

/-!
# Spelling of numbers

Reads the value of a number from its spelling.  Underscores may stand anywhere.  A point or an
exponent makes a float, a leading `0` with more digits an octal integer, anything else is decimal.

## Main definitions

* `Spelled` — what a spelling denotes; `SpellingError` — why it denotes nothing.
* `readNatural` — an unsigned integer below a bound in a given radix.
* `readFloat` — a decimal fraction with an optional exponent, rounded to the nearest double.
* `Spelled.ofText` — the number that a text spells.
-/

namespace MiddleEnd

/-- The number a spelling denotes, and which of the three ways of writing it is. -/
inductive Spelled where
  /-- A natural number written in decimal. -/
  | decimal (value : Nat)
  /-- A natural number written in octal. -/
  | octal (value : Nat)
  /-- A double, by its bit pattern. -/
  | float (bits : Nat)
  deriving DecidableEq, Repr

/-- Why a spelling denotes no number. -/
inductive SpellingError where
  /-- Nothing is left once the underscores are gone. -/
  | noDigits
  /-- A character that is no digit in the radix. -/
  | badDigit (radix : Nat)
  /-- A point or an exponent in the wrong place. -/
  | badFloat
  /-- More than 64 bits hold. -/
  | tooLarge
  deriving DecidableEq, Repr

namespace SpellingError

/-- What a diagnostic says about the error. -/
def message : SpellingError → String
  | noDigits => "numeric literal has no digits"
  | badDigit radix =>
    if radix = 8 then "invalid digit in octal literal" else "invalid digit in numeric literal"
  | badFloat => "malformed floating-point literal"
  | tooLarge => "numeric literal does not fit in 64 bits"

end SpellingError

/-! ### Integers -/

/-- Value of an ASCII digit below `radix`. -/
def digit? (radix : Nat) (c : Char) : Option Nat :=
  if c.isDigit && c.toNat - '0'.toNat < radix then some (c.toNat - '0'.toNat) else none

/-- Continue a numeral whose digits so far have the value `acc`.  The first digit that is no digit
or that takes the value to 64 bits or more decides the error. -/
def readDigits (radix : Nat) : List Char → Nat → Except SpellingError Nat
  | [], acc => .ok acc
  | c :: cs, acc =>
    match digit? radix c with
    | none => .error (.badDigit radix)
    | some d =>
      if acc * radix + d < UInt64.size then readDigits radix cs (acc * radix + d)
      else .error .tooLarge

/-- A numeral of at least one digit, with an optional plus sign in front. -/
def readNatural (radix : Nat) : List Char → Except SpellingError Nat
  | [] => .error (.badDigit radix)
  | [c] => readDigits radix [c] 0
  | '+' :: cs => readDigits radix cs 0
  | cs => readDigits radix cs 0

/-! ### Floats -/

/-- Digits that begin a text, and the rest of it. -/
def takeDigits (cs : List Char) : List Char × List Char := cs.span Char.isDigit

/-- Value of a list of decimal digits. -/
def decimalValue (digits : List Char) : Nat :=
  digits.foldl (fun acc c => acc * 10 + (c.toNat - '0'.toNat)) 0

/-- Value of the digits of an exponent.  Once it has 17 bits no sensible fraction makes up
for it, and further digits are dropped. -/
def exponentValue (digits : List Char) : Nat :=
  digits.foldl (fun acc c => if acc < UInt16.size then acc * 10 + (c.toNat - '0'.toNat) else acc) 0

/-- Whether a sign in front is a minus, and what follows the sign. -/
def takeSign : List Char → Bool × List Char
  | '-' :: cs => (true, cs)
  | '+' :: cs => (false, cs)
  | cs => (false, cs)

/-- What follows the significand: nothing, or an exponent up to the end. -/
def readExponent : List Char → Option Int
  | [] => some 0
  | c :: cs =>
    if c = 'e' ∨ c = 'E' then
      let (negative, cs) := takeSign cs
      let (digits, rest) := takeDigits cs
      if digits.isEmpty || !rest.isEmpty then none
      else some (BinaryValue.applySign negative (exponentValue digits))
    else none

/-- The double nearest to `significand * 10 ^ exponent`.  Values outside the range of exponents
that a double can show need no power of ten. -/
def decimalMagnitude (significand : Nat) (exponent : Int) : Nat :=
  if significand = 0 then 0
  else if 0 ≤ exponent ∧ 1024 ≤ 3 * exponent + significand.log2 then BinaryFormat.binary64.infinity
  else if exponent < 0 ∧ significand.log2 + 1 + 3 * exponent ≤ -1075 then 0
  else
    let (num, den) := scaled 10 significand exponent
    BinaryFormat.binary64.nearest num den

/-- A decimal fraction: a sign, digits with a point before, among or after them, an exponent. -/
def readFloat (cs : List Char) : Except SpellingError Nat :=
  let (negative, cs) := takeSign cs
  let (whole, rest) := takeDigits cs
  let (fraction, rest) :=
    match rest with
    | '.' :: rest => takeDigits rest
    | rest => ([], rest)
  if whole.isEmpty && fraction.isEmpty then .error .badFloat
  else
    match readExponent rest with
    | none => .error .badFloat
    | some exponent =>
      let magnitude :=
        decimalMagnitude (decimalValue (whole ++ fraction)) (exponent - fraction.length)
      if magnitude = BinaryFormat.binary64.infinity then .error .tooLarge
      else .ok (negative.toNat * BinaryFormat.binary64.signBit + magnitude)

/-! ### Numbers -/

/-- Whether a character marks a float. -/
def isFloatMark (c : Char) : Bool := c == '.' || c == 'e' || c == 'E'

namespace Spelled

/-- The number spelled by characters without underscores. -/
def ofDigits (cs : List Char) : Except SpellingError Spelled :=
  if cs.isEmpty then .error .noDigits
  else if cs.any isFloatMark then (readFloat cs).map float
  else
    match cs with
    | '0' :: c :: rest => (readNatural 8 (c :: rest)).map octal
    | cs => (readNatural 10 cs).map decimal

/-- The number that a text spells; underscores count for nothing. -/
def ofText (text : String) : Except SpellingError Spelled :=
  ofDigits (text.toList.filter (· != '_'))

end Spelled

end MiddleEnd
