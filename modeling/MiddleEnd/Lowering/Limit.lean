import MiddleEnd.Diagnostic.Basic

/-!
# Limits of generated code

Registers, procedures, constants and native code are numbered with few bits.  Lowering stops at the
first number that does not fit.

## Main definitions

* `Limit` — the resource that ran out and the place that asked for it.
* `Limit.diagnostic` — its report.
-/

namespace MiddleEnd

/-- The resource that ran out, and the place that asked for more of it.  Only registers have a limit
that can be set. -/
inductive Limit where
  /-- The registers of a procedure. -/
  | registers (procedure : String) (limit : Nat) (span : Span)
  /-- The numbers of procedures. -/
  | procedures (span : Span)
  /-- The numbers of constants. -/
  | constants (span : Span)
  /-- The numbers of native code. -/
  | natives (span : Span)
  deriving DecidableEq, Repr

namespace Limit

/-- The highest number of a procedure. -/
def maxProcedures : Nat := UInt16.size - 1

/-- The highest number of a constant or of a piece of native code. -/
def maxEntries : Nat := UInt32.size - 1

/-- The place that asked for more. -/
def span : Limit → Span
  | registers _ _ span | procedures span | constants span | natives span => span

/-- The headline of the report. -/
def message : Limit → String
  | registers procedure limit _ => s!"procedure `{procedure}` needs more than {limit} registers"
  | procedures _ => s!"program needs more than {maxProcedures} procedures"
  | constants _ => s!"constant pool exceeded {maxEntries} entries"
  | natives _ => s!"metadata table exceeded {maxEntries} entries"

/-- The cause that the report names. -/
def cause : Limit → Cause
  | registers _ _ _ => .registers
  | procedures _ | constants _ | natives _ => .indexSpace

/-- What may help against it. -/
def notes : Limit → List String
  | registers _ _ _ => ["registers are never reused; split the procedure"]
  | procedures _ | constants _ | natives _ => []

/-- The report, which is an error. -/
def diagnostic (l : Limit) : Diagnostic :=
  .error l.cause l.message [.primary l.span "while generating this"] l.notes

end Limit

end MiddleEnd
