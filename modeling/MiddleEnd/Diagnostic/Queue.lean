import MiddleEnd.Diagnostic.Basic
import MiddleEnd.Misuse
import MiddleEnd.Source.LineTable

/-!
# Diagnostic queue

Collects the diagnostics of all passes, leaves out repeated errors, stops taking errors at a limit
and hands everything out in source order.

## Main definitions

* `Queue` — what has been taken, in order of arrival, and whether the limit has kept an error out.
* `Queue.add` — offer a diagnostic at a position.
* `Queue.flush` — hand out all that is held, sorted by position, and start over.
* `ErrorReported` — token that an error has been offered.
-/

namespace MiddleEnd

/-- The settings of a queue.  Both of them are about errors: warnings and notes are always taken. -/
structure QueueConfig where
  /-- Errors taken before further ones are refused; 0 for no limit. -/
  errorLimit : Nat := 10
  /-- Whether errors of one cause on one line are taken once. -/
  deduplicate : Bool := true
  deriving DecidableEq, Repr

namespace QueueConfig

/-- Take everything: no limit on errors, and repeated errors are kept. -/
def unlimited : QueueConfig := ⟨0, false⟩

end QueueConfig

/-- Token that an error has been reported.  Who holds one may go on without a result, since the
report will say what was wrong. -/
inductive ErrorReported where
  /-- The one token. -/
  | reported
  deriving DecidableEq, Repr

namespace ErrorReported

/-- A token for a positive number of errors. -/
def ofCount? (count : Nat) : Option ErrorReported := if count = 0 then none else some reported

/-- The written form of the token. -/
def text : ErrorReported → String
  | reported => "error(s) emitted"

end ErrorReported

/-- A diagnostic with its place in the source, which is worked out when the diagnostic is offered
and not again when the report is sorted. -/
structure Placed where
  /-- What is reported. -/
  diagnostic : Diagnostic
  /-- Where it belongs in a report. -/
  position : Position
  deriving DecidableEq, Repr

namespace Placed

/-- Whether it is an error, which the limit and the check for repetitions count. -/
def isError (p : Placed) : Bool := p.diagnostic.isError

/-- Whether `p` stands no later in the source than `q`: on an earlier line, or on the same line and
in no later column. -/
def atOrBefore (p q : Placed) : Bool :=
  p.position.line < q.position.line
    || p.position.line == q.position.line && p.position.column ≤ q.position.column

/-- Whether both are errors of one cause on one line.  Messages and columns may differ. -/
def repeats (p q : Placed) : Bool :=
  p.isError && q.isError && p.position.line == q.position.line
    && p.diagnostic.cause == q.diagnostic.cause

end Placed

/-- The diagnostics that wait to be handed out, with the settings they were taken under.  All passes
over one program offer their diagnostics to the same queue. -/
structure Queue where
  /-- What is taken. -/
  config : QueueConfig
  /-- What has been taken since the last flush, in order of arrival. -/
  held : Array Placed
  /-- Whether an error was refused because of the limit since the last flush. -/
  overflowed : Bool
  deriving Repr

namespace Queue

/-- The queue that has taken nothing yet. -/
def empty (config : QueueConfig) : Queue := ⟨config, #[], false⟩

/-- Number of errors held. -/
def errorCount (q : Queue) : Nat := q.held.countP (·.isError)

/-- Whether as many errors are held as the settings allow.  A limit of zero is never reached. -/
def limitReached (q : Queue) : Bool :=
  0 < q.config.errorLimit && q.config.errorLimit ≤ q.errorCount

/-- Whether an equal error on the same line is held already. -/
def holdsRepeatOf (q : Queue) (p : Placed) : Bool := q.held.any (·.repeats p)

/-- Offer a diagnostic; says whether it was taken.  Only errors are refused: at the limit, which is
then marked as exceeded, or as a repetition.  The limit is asked first, so a repetition offered at
the limit marks it too. -/
def add (q : Queue) (p : Placed) : Bool × Queue :=
  if p.isError && q.limitReached then (false, { q with overflowed := true })
  else if q.config.deduplicate && q.holdsRepeatOf p then (false, q)
  else (true, { q with held := q.held.push p })

/-- Offer a diagnostic at the start of its primary place, or at the start of the text if it is about
no place. -/
def addFrom (q : Queue) (lines : LineTable) (d : Diagnostic) : Bool × Queue :=
  q.add ⟨d, (d.primarySpan?.map fun s => lines.position s.start).getD ⟨1, 1⟩⟩

/-- Offer an error and get the token for it, whether the queue takes it or not.  There is no token
for anything else. -/
def emit (q : Queue) (p : Placed) : Except Misuse (ErrorReported × Queue) :=
  if p.isError then .ok (.reported, (q.add p).2) else .error .notError

/-- A token if an error is held. -/
def errors? (q : Queue) : Option ErrorReported := ErrorReported.ofCount? q.errorCount

/-- What is held, in order of arrival. -/
def diagnostics (q : Queue) : List Diagnostic := q.held.toList.map Placed.diagnostic

/-- Everything held in source order, equal positions in order of arrival, and the queue that has
taken nothing, under the same settings. -/
def flush (q : Queue) : List Diagnostic × Queue :=
  ((q.held.toList.mergeSort Placed.atOrBefore).map Placed.diagnostic, empty q.config)

end Queue

end MiddleEnd
