import MiddleEnd.Source.Span

/-!
# Diagnostics

What the passes have to say about a program, and its written form.

## Main definitions

* `Cause` — the numbered causes; the first digit of a number names the phase that reports it.
* `Diagnostic` — a cause with its message, the places it is about and further notes.
* `Diagnostic.text` — the written form: a headline, a line per place, a line per note.
-/

namespace MiddleEnd

/-- The cause of a diagnostic.  Each one has a number of its own, and a number is never used for two
causes, so that a report can be looked up by it. -/
inductive Cause where
  /-- No visible declaration for an identifier. -/
  | unknownName
  /-- Unknown type name. -/
  | unknownType
  /-- Types that cannot be combined. -/
  | mismatch
  /-- Sign in front of something that is no number. -/
  | signOperand
  /-- Cast between unrelated types. -/
  | cast
  /-- Declaration without a type. -/
  | untyped
  /-- Assignment to a constant. -/
  | constantStore
  /-- Parallel assignment with unequal sides. -/
  | unbalanced
  /-- Call of something that is no procedure. -/
  | notCallable
  /-- Malformed or oversized number. -/
  | badNumber
  /-- Construct without a lowering. -/
  | unsupported
  /-- Value of another procedure. -/
  | capture
  /-- Native code with a value it cannot exchange. -/
  | nativeType
  /-- Native code with too many inputs. -/
  | nativeInputs
  /-- Registers of a procedure used up. -/
  | registers
  /-- Procedures, constants or metadata used up. -/
  | indexSpace
  /-- Errors left out of the report. -/
  | tooManyErrors
  deriving DecidableEq, Repr

namespace Cause

/-- The number of a cause, under which it is documented. -/
def text : Cause → String
  | unknownName => "E2001"
  | unknownType => "E2002"
  | mismatch => "E3001"
  | signOperand => "E3002"
  | cast => "E3003"
  | untyped => "E3004"
  | constantStore => "E3005"
  | unbalanced => "E3006"
  | notCallable => "E3007"
  | badNumber => "E3008"
  | unsupported => "E3009"
  | capture => "E3010"
  | nativeType => "E4001"
  | nativeInputs => "E4002"
  | registers => "E5001"
  | indexSpace => "E5002"
  | tooManyErrors => "E9002"

/-- Every cause there is, in the order of the numbers. -/
def all : List Cause :=
  [unknownName, unknownType, mismatch, signOperand, cast, untyped, constantStore, unbalanced,
    notCallable, badNumber, unsupported, capture, nativeType, nativeInputs, registers, indexSpace,
    tooManyErrors]

/-- The cause that has a number. -/
def ofText? (s : String) : Option Cause := all.find? (·.text == s)

/-- Whether name resolution reports it. -/
def isResolution : Cause → Bool
  | unknownName | unknownType => true
  | _ => false

/-- Whether it is about types. -/
def isTyping : Cause → Bool
  | mismatch | signOperand | cast | untyped | constantStore | unbalanced | notCallable | badNumber
  | unsupported | capture => true
  | _ => false

/-- Whether it is about a limit of the generated code. -/
def isLimit : Cause → Bool
  | registers | indexSpace => true
  | _ => false

end Cause

/-- How much a diagnostic matters: only an error keeps a program from being made. -/
inductive Severity where
  /-- The program is wrong. -/
  | error
  /-- The program is likely not what was meant. -/
  | warning
  /-- There is something to know about the program. -/
  | note
  deriving DecidableEq, Repr

namespace Severity

/-- The word that opens the headline. -/
def text : Severity → String
  | error => "error"
  | warning => "warning"
  | note => "note"

end Severity

/-- A place in the source with a short explanation.  A diagnostic has any number of them; those it
is about come with an arrow when it is written. -/
structure Label where
  /-- Where it is. -/
  span : Span
  /-- What is to be said about it. -/
  message : String
  /-- Whether this is the place the diagnostic is about, and not only related to it. -/
  isPrimary : Bool
  deriving DecidableEq, Repr

namespace Label

/-- A place that a diagnostic is about. -/
def primary (span : Span) (message : String) : Label := ⟨span, message, true⟩

/-- A place that has to do with what a diagnostic is about. -/
def secondary (span : Span) (message : String) : Label := ⟨span, message, false⟩

/-- The line below the headline; only a primary place has an arrow. -/
def text (l : Label) : String :=
  let marker := if l.isPrimary then "-->" else "   "
  "\n  " ++ marker ++ " " ++ l.span.text ++ ": " ++ l.message

end Label

/-- One finding about a program: what was found, how bad it is, the places it is about, and what
else helps to understand it. -/
structure Diagnostic where
  /-- What was found. -/
  cause : Cause
  /-- How bad it is. -/
  severity : Severity
  /-- The headline. -/
  message : String
  /-- The places it is about and those related to it. -/
  labels : List Label
  /-- What else helps to understand it. -/
  notes : List String
  deriving DecidableEq, Repr

namespace Diagnostic

/-- An error with its message, its places and its notes. -/
def error (cause : Cause) (message : String) (labels : List Label) (notes : List String) :
    Diagnostic :=
  ⟨cause, .error, message, labels, notes⟩

/-- Whether a diagnostic is an error. -/
def isError (d : Diagnostic) : Bool := d.severity == .error

/-- The first place the diagnostic is about, which decides where in a report it stands. -/
def primarySpan? (d : Diagnostic) : Option Span := (d.labels.find? (·.isPrimary)).map Label.span

/-- The written form: a headline, a line for each place and a line for each note. -/
def text (d : Diagnostic) : String :=
  d.severity.text ++ " [" ++ d.cause.text ++ "]: " ++ d.message
    ++ String.join (d.labels.map Label.text)
    ++ String.join (d.notes.map ("\n  = note: " ++ ·))

/-- The last line of a report from which a limit of `limit` errors has kept further errors.  It
names the setting that lets more of them through. -/
def tooManyErrors (limit : Nat) (span : Span) : Diagnostic :=
  error .tooManyErrors s!"aborting after {limit} errors"
    [.primary span "error limit reached here"]
    ["raise `DiagnosticConfig::error_limit` to see more"]

end Diagnostic

end MiddleEnd
