import Std.Data.HashMap

/-!
# Numbered names

A table that numbers texts by first occurrence, so that equal texts have equal numbers.  Numbers are
words of 32 bits: once all of them are given out, there is none for a new text.

## Main definitions

* `Names` — the table; it starts with the empty text as number 0.
* `Names.intern` — number of a text, which is added at the end if it is new.
* `Names.intern?` — the same, unless the text is new and the table full.
* `Names.find?` — number of a text that is already there.
* `Names.text` — text with a given number; a number that was never given out reads as the empty
  text.
-/

namespace MiddleEnd

/-- Texts numbered by first occurrence.  The two fields say the same from both sides, as
`Names.intern` extends them together. -/
structure Names where
  /-- The text of each number. -/
  texts : Array String
  /-- The number of each text. -/
  numbers : Std.HashMap String Nat

namespace Names

/-- Number of a text, if it has one. -/
def find? (t : Names) (s : String) : Option Nat := t.numbers[s]?

/-- Number of `s`, and the table that knows it.  A text that has a number keeps it and leaves the
table as it is. -/
def intern (t : Names) (s : String) : Nat × Names :=
  match t.find? s with
  | some n => (n, t)
  | none => (t.texts.size, ⟨t.texts.push s, t.numbers.insert s t.texts.size⟩)

/-- How many texts can be numbered. -/
def capacity : Nat := UInt32.size

/-- Number of `s`, unless it is new and all numbers are given out. -/
def intern? (t : Names) (s : String) : Option (Nat × Names) :=
  if (t.find? s).isSome || t.texts.size < capacity then some (t.intern s) else none

/-- The table that holds only the empty text. -/
def initial : Names := (Names.intern ⟨#[], ∅⟩ "").2

/-- Text of a number.  One that was never given out reads as the empty text. -/
def text (t : Names) (n : Nat) : String := t.texts[n]?.getD ""

/-- How many texts have a number. -/
def size (t : Names) : Nat := t.texts.size

/-- Whether no text has a number, which is never so for a table that starts as `initial` does. -/
def isEmpty (t : Names) : Bool := t.texts.isEmpty

end Names

end MiddleEnd
