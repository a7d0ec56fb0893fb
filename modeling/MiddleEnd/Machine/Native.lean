import MiddleEnd.Code.Program
import MiddleEnd.Misuse

/-!
# Native functions

The machine does not build native code itself.  A backend turns the description of native code into
a function on words, and the machine calls it with the values of its inputs.

## Main definitions

* `NativeFunction` — a function of up to six words, with or without a result.
* `NativeFunction.fits` — whether a function can serve a piece of native code.
* `NativeFunction.call` — call a function, unless the number of arguments is wrong.
* `Refusal` — why a backend has built no function.
* `Backend` — builds functions; it may keep a state and answer differently each time.
-/

namespace MiddleEnd

/-- A function on words.  What it does besides computing its result is not the machine's affair, and
its result depends on its arguments alone. -/
structure NativeFunction where
  /-- How many words the function takes. -/
  arity : Nat
  /-- The result from the arguments; `none` for a function that has no result. -/
  result : Option (List Word → Word)
  /-- A function takes no more words than native code may have inputs. -/
  arity_le : arity ≤ maxNativeInputs

/-- Why native code cannot be called: nobody builds it, it was turned down, or what was built does
not match it. -/
inductive NativeError where
  /-- The host has no backend. -/
  | unavailable (source : String)
  /-- The backend does not accept the code. -/
  | rejected (reason : String)
  /-- The function that was built takes or returns something else than the code does. -/
  | shapeMismatch (inputs : Nat) (output : Bool) (arity : Nat) (returns : Bool)
  deriving DecidableEq, Repr

namespace NativeError

/-- The written form of a truth value. -/
def flag (b : Bool) : String := if b then "true" else "false"

/-- What is said about the error when a run ends with it. -/
def message : NativeError → String
  | unavailable source => "no native backend available for block `" ++ source ++ "`"
  | rejected reason => "native backend rejected the block: " ++ reason
  | shapeMismatch inputs output arity returns =>
    s!"native block has {inputs} inputs (output: {flag output}) but its function takes "
      ++ s!"{arity} (output: {flag returns})"

end NativeError

namespace NativeFunction

/-- Whether the function has a result. -/
def returns (f : NativeFunction) : Bool := f.result.isSome

/-- Whether the function has as many arguments as the code has inputs, and a result exactly if the
code has an output. -/
def fits (f : NativeFunction) (call : NativeCall) : Bool :=
  f.arity == call.inputs.length && f.returns == call.output.isSome

/-- The error for a function that does not fit. -/
def mismatch (f : NativeFunction) (call : NativeCall) : NativeError :=
  .shapeMismatch call.inputs.length call.output.isSome f.arity f.returns

/-- Call the function.  A list of arguments of the wrong length is refused, never cut or filled
up. -/
def call (f : NativeFunction) (args : List Word) : Except NativeError (Option Word) :=
  if args.length = f.arity then .ok (f.result.map fun result => result args)
  else .error (.shapeMismatch args.length f.returns f.arity f.returns)

end NativeFunction

/-- Why there is no function for a piece of native code: an error of the program, or a request that
should not have been made. -/
inductive Refusal where
  /-- The code cannot be built; the run ends with this error. -/
  | error (e : NativeError)
  /-- The backend should not have been asked. -/
  | misuse (m : Misuse)
  deriving DecidableEq, Repr

/-- Builds native functions.  A backend may keep a state, so it need not give the same answer to a
request that is made again. -/
structure Backend (σ : Type) where
  /-- The answer to a request, and the state the backend is in afterwards. -/
  compile : σ → NativeCall → Except Refusal NativeFunction × σ

namespace Backend

/-- The answer of a host that cannot build native code.  It expects no more inputs than a native
function can have. -/
def refuse (call : NativeCall) : Refusal :=
  if call.inputs.length ≤ maxNativeInputs then .error (.unavailable call.source)
  else .misuse (.nativeInputs call.inputs.length)

/-- The backend of a host that cannot build native code. -/
def unavailable (σ : Type) : Backend σ := ⟨fun s call => (.error (refuse call), s)⟩

end Backend

end MiddleEnd
