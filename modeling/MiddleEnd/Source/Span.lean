/-!
# Source spans

Half-open ranges of byte offsets in a source text.

## Main definitions

* `Span` — a range `start..stop`; `Span.nowhere`, the range `0..0`, marks nodes with no source text.
* `Span.cover` — the smallest span around two spans, where a side that is `nowhere` counts for
  nothing.
* `Span.coverAll` — the smallest span around a list of spans.

## Main results

* `Span.cover_nowhere`, `Span.nowhere_cover` — `nowhere` is neutral for `cover`.
-/

namespace MiddleEnd

/-- A half-open range of byte offsets.  Nothing keeps a span from ending before it starts; such a
span has no length. -/
structure Span where
  /-- Offset of the first byte. -/
  start : Nat
  /-- Offset of the first byte that is not in it any more. -/
  stop : Nat
  deriving DecidableEq, Repr, Inhabited

namespace Span

/-- The span of a node that stands for no source text. -/
def nowhere : Span := ⟨0, 0⟩

/-- Whether the span stands for no source text. -/
def isNowhere (s : Span) : Bool := s == nowhere

/-- Whether the span ends where it starts. -/
def isEmpty (s : Span) : Bool := s.start == s.stop

/-- Number of bytes in the span; one that ends before it starts has no length. -/
def length? (s : Span) : Option Nat := if s.start ≤ s.stop then some (s.stop - s.start) else none

/-- The smallest span around both sides; a side that is `nowhere` is ignored. -/
def cover (a b : Span) : Span :=
  if a = nowhere then b
  else if b = nowhere then a
  else ⟨min a.start b.start, max a.stop b.stop⟩

/-- The smallest span around all of `spans`, or `nowhere`. -/
def coverAll (spans : List Span) : Span := spans.foldl cover nowhere

/-- The written form `start..stop`. -/
def text (s : Span) : String := s!"{s.start}..{s.stop}"

@[simp] theorem nowhere_cover (a : Span) : nowhere.cover a = a := by
  simp [cover]

@[simp] theorem cover_nowhere (a : Span) : a.cover nowhere = a := by
  by_cases h : a = nowhere <;> simp [cover, h]

end Span

end MiddleEnd
