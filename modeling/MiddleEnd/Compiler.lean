import MiddleEnd.Diagnostic.Queue
import MiddleEnd.Lowering
import MiddleEnd.Machine.Run

/-!
# Compiling and running

The passes in order over one tree: list it, resolve its names, type it, and, if all is well, lower
it.  All diagnostics go through one queue and come out sorted by position.

## Main definitions

* `CompilerConfig` — the settings of all passes.
* `compile` — a program, or everything that is wrong.
* `compileAndRun` — compile a tree and run the program.
-/

namespace MiddleEnd

/-- The settings of all passes, and of the machine that runs the code.  They decide what is reported
and what is refused, and never what code a program gets. -/
structure CompilerConfig where
  /-- Which diagnostics are taken. -/
  queue : QueueConfig := {}
  /-- The highest register that a procedure may use. -/
  registerLimit : Nat := Register.maximum
  /-- How many calls may be open at once when the program runs. -/
  maxCallDepth : Nat := 256
  deriving DecidableEq, Repr

namespace CompilerConfig

/-- Every diagnostic is reported. -/
def unlimited : CompilerConfig := { queue := .unlimited }

end CompilerConfig

/-- A program with the diagnostics that do not stand in its way.  There is none unless every pass
has ended without an error. -/
structure Compiled where
  /-- The code, which is complete. -/
  program : Program
  /-- What was reported all the same, in source order. -/
  diagnostics : List Diagnostic

/-- Why there is no program: because of what is reported about the source, or because a contract was
broken. -/
inductive CompileError where
  /-- The source is at fault: everything reported, in source order. -/
  | reported (diagnostics : List Diagnostic)
  /-- The tree was not one that a caller may hand over. -/
  | misuse (m : Misuse)
  deriving DecidableEq, Repr

namespace CompileError

/-- How a failed compilation is announced: by the number of diagnostics. -/
def message (diagnostics : List Diagnostic) : String :=
  s!"compilation failed with {diagnostics.length} diagnostic(s)"

end CompileError

/-- Offer diagnostics in order, each one at the start of its primary place. -/
def Queue.addAll (q : Queue) (lines : LineTable) (ds : List Diagnostic) : Queue :=
  ds.foldl (fun q d => (q.addFrom lines d).2) q

/-- Everything held in source order, and a last line about the root if errors were left out. -/
def Queue.finish (q : Queue) (rootSpan : Span) : List Diagnostic :=
  q.flush.1 ++ if q.overflowed then [.tooManyErrors q.config.errorLimit rootSpan] else []

/-- Stop if an error is held, with the report of everything found up to here. -/
def Queue.checkpoint (q : Queue) (rootSpan : Span) : Except CompileError Unit :=
  if q.errors?.isSome then .error (.reported (q.finish rootSpan)) else .ok ()

/-- Compile the tree below `root`.  The source serves to place diagnostics only.  Names and types
are both worked out before the first stop, so that a report holds the errors of both; lowering
begins only if there are none. -/
def compile (t : Tree) (links : Links) (root : NodeId) (source : String) (config : CompilerConfig) :
    Except CompileError Compiled := do
  let rootSpan := t.span root
  let lines := LineTable.ofText source
  let (s, links) := Section.ofTree t links root none
  let r ← (Resolution.ofSection t links s none).mapError .misuse
  let ty ← (Typing.ofSection t links s r).mapError .misuse
  let q := ((Queue.empty config.queue).addAll lines (r.diagnostics t)).addAll lines
    (ty.diagnostics t)
  q.checkpoint rootSpan
  match Generated.ofTree t links root r ty config.registerLimit with
  | .error (.misuse m) => throw (.misuse m)
  | .error (.limit l) =>
    (q.addAll lines [l.diagnostic]).checkpoint rootSpan
    throw (.misuse .unreportedLimit)
  | .ok g =>
    let q := q.addAll lines (g.diagnostics t)
    q.checkpoint rootSpan
    return ⟨g.program, q.finish rootSpan⟩

/-- Why a run has no result: the program could not be made, or it was made and the machine stopped
before its end. -/
inductive RunError where
  /-- There is no program. -/
  | compile (e : CompileError)
  /-- There is one, and the machine stopped before its end. -/
  | halt (h : Halt)
  deriving DecidableEq, Repr

/-- A finished run. -/
structure Execution where
  /-- The code that was run. -/
  program : Program
  /-- What the machine has left of it. -/
  output : RunOutput

/-- Compile the tree below `root` and run the program on a new machine.  The machine starts from the
state given, which is left as it was if there is no program. -/
def compileAndRun {σ : Type} (t : Tree) (links : Links) (root : NodeId) (source : String)
    (config : CompilerConfig) (backend : Backend σ) (s : MachineState σ) :
    Except RunError Execution × MachineState σ :=
  match compile t links root source config with
  | .error e => (.error (.compile e), s)
  | .ok compiled =>
    let machine : Machine σ := ⟨compiled.program, backend, config.maxCallDepth⟩
    match machine.run s with
    | (.ok output, s) => (.ok ⟨compiled.program, output⟩, s)
    | (.error h, s) => (.error (.halt h), s)

end MiddleEnd
