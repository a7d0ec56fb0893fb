import MiddleEnd.Tree.Shape
import MiddleEnd.Typing.Ty

/-!
# Promotion

How types combine under operators, stores and casts.  Every rule passes an error type on unchanged,
so that an error is reported where it arises and nowhere else.

## Main definitions

* `Ty.promote` — the type of an arithmetic expression.
* `Ty.withSign` — the type of a signed expression.
* `Ty.canAssign` — whether a value may be stored in a slot.
* `Ty.canCast` — whether a value may be cast.
-/

namespace MiddleEnd.Ty

/-- The one of higher rank, the first of two equals. -/
def wider (a b : Ty) : Ty := if a.rank < b.rank then b else a

/-- The type of `left op right`.  A float absorbs integers; signed and unsigned types do not mix;
a decimal literal takes the type of the other side. -/
def promote (left right : Ty) : Ty :=
  if left.isError then left
  else if right.isError then right
  else if !left.isNumeric || !right.isNumeric then uncastable
  else if left.isFloat then if right.isFloat then wider left right else left
  else if right.isFloat then right
  else if left = anyNumber then right
  else if right = anyNumber then left
  else if left.isSigned == right.isSigned then wider left right
  else uncastable

/-- The type of a signed expression.  An unsigned operand becomes signed, whatever the sign. -/
def withSign (_sign : Sign) (operand : Ty) : Ty :=
  if operand.isError then operand
  else if operand.isNumeric then operand.toSigned
  else uncastable

/-- Whether a value of type `source` may be stored in a slot of type `dest`.  A store may narrow,
but it keeps fractions and signedness.  Error types are let through, since what has one has been
reported. -/
def canAssign (dest source : Ty) : Bool :=
  if dest.isError || source.isError || dest == source then true
  else if !dest.isNumeric || !source.isNumeric then false
  else if source.isFloat && !dest.isFloat then false
  else promote dest source != uncastable

/-- Whether a cast exists: between numeric types, and between `char` and integers. -/
def canCast (source dest : Ty) : Bool :=
  if source.isError || dest.isError || source == dest then true
  else if source == char then dest.isInteger
  else if dest == char then source.isInteger
  else source.isNumeric && dest.isNumeric

end MiddleEnd.Ty
