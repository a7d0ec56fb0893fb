/-!
# Lines and columns

Positions of byte offsets in a source text, as one-based lines and columns.  Columns count
characters, not bytes.

## Main definitions

* `LineTable` — the lines of a text, each with the byte offset at which it starts.
* `LineTable.lineOf` — the line that holds an offset; offsets past the end belong to the last line.
* `LineTable.position` — line and column of an offset.  An offset inside a character has no column
  of its own and is placed at column 1.
-/

namespace MiddleEnd

/-- One line of a text, its newline included.  Only the last line of a text has none. -/
structure Line where
  /-- Byte offset of the first character. -/
  start : Nat
  /-- The characters of the line in order. -/
  chars : List Char
  deriving Repr

/-- A one-based place in a text. -/
structure Position where
  /-- Number of the line, counted from 1. -/
  line : Nat
  /-- Number of the character in its line, counted from 1. -/
  column : Nat
  deriving DecidableEq, Repr

/-- The lines of a text, in order.  There is always at least one, and a newline at the end of the
text begins another one. -/
structure LineTable where
  /-- The lines in the order of the text. -/
  lines : List Line
  /-- Bytes in the whole text. -/
  size : Nat
  deriving Repr

/-- How many characters fill the first `bytes` bytes of `chars`; `none` if that cuts a character
or reaches past the end. -/
def charsWithin? : List Char → Nat → Option Nat
  | _, 0 => some 0
  | [], _ + 1 => none
  | c :: cs, n + 1 =>
    if c.utf8Size ≤ n + 1 then (charsWithin? cs (n + 1 - c.utf8Size)).map (· + 1) else none

namespace LineTable

/-- Lines of `chars` when the first of them starts at byte `start`. -/
def linesFrom (start : Nat) : List Char → List Line
  | [] => [⟨start, []⟩]
  | c :: cs =>
    if c = '\n' then ⟨start, [c]⟩ :: linesFrom (start + 1) cs
    else
      match linesFrom (start + c.utf8Size) cs with
      | [] => [⟨start, [c]⟩]
      | l :: ls => ⟨start, c :: l.chars⟩ :: ls

/-- The table of a text. -/
def ofText (source : String) : LineTable :=
  ⟨linesFrom 0 source.toList, source.utf8ByteSize⟩

/-- How many lines the text has, the one after a last newline included. -/
def lineCount (t : LineTable) : Nat := t.lines.length

/-- One-based number of the line that holds `offset`: the number of lines that start at or
before it. -/
def lineOf (t : LineTable) (offset : Nat) : Nat :=
  t.lines.countP (·.start ≤ offset)

/-- Line and column of `offset`.  An offset past the end stands for the end of the text, and one
inside a character for the start of its line. -/
def position (t : LineTable) (offset : Nat) : Position :=
  let line := t.lineOf offset
  match t.lines[line - 1]? with
  | none => ⟨line, 1⟩
  | some l => ⟨line, (charsWithin? l.chars (min offset t.size - l.start)).getD 0 + 1⟩

end LineTable

end MiddleEnd
