import MiddleEnd.Proofs.Lowering.Implements
import MiddleEnd.Proofs.Machine.Reuse

/-!
# Native functions are built once and called as they should be

A machine asks its backend for a native function when the code is first called, and keeps a function
that fits.  Here this is followed through all that is ever asked of a machine, step by step: which
steps ask the backend, what a native function gets, and what a call of native code changes.  The
backend may answer differently each time, refuse, or build functions of any shape.

## Main definitions

* `Machine.Moves`, `Machine.Later` — the steps of a machine that is asked again and again.
* `Machine.History` — the configurations that any requests lead to.
* `Machine.Invokes`, `Machine.Asks` — the next step calls native code, or asks the backend for its
  function.
* `Machine.Fitting` — a function fits the native code with a given index.
* `Machine.Served` — what a step comes to that calls native code.
* `Machine.Framed` — frames belong to procedures of the program and have their sizes.
* `Machine.Writes` — what a call of native code makes of the registers.

## Main results

* `Machine.later_serveAll` — requests are served by such steps.
* `Machine.next_served` — with functions that fit, none of them refuses what it gets.
* `Machine.History.fitting` — all functions that are kept fit their code.
* `Machine.next_of_not_asks` — a step that does not ask the backend does not depend on it.
* `Machine.not_asks_again` — nothing is asked for again that has been built.
* `Machine.Served.writes` — what native code changes in well-formed programs.
* `Machine.natives_served` — **native functions are built once and called as they should be**.
-/

namespace MiddleEnd

namespace Machine

variable {σ α β : Type} {m : Machine σ}

/-! ### Histories -/

namespace Config

/-- What changes while a machine runs, at one point of the run. -/
def state : Config σ → MachineState σ
  | .running _ _ s => s
  | .failing _ _ s => s
  | .halted _ s => s

end Config

/-- One step, or the next request after the end of one. -/
inductive Moves (m : Machine σ) : Config σ → Config σ → Prop
  /-- A step of a run. -/
  | step (c : Config σ) : Moves m c (m.next c)
  /-- The next request after one that has been answered. -/
  | request (outcome : Except Halt RunOutput) (s : MachineState σ) (request : Request) :
      Moves m (.halted outcome s) (request.begin m s)

/-- What comes later, after any steps and requests. -/
def Later (m : Machine σ) : Config σ → Config σ → Prop := Relation.ReflTransGen m.Moves

/-- All that any requests to a new machine lead to. -/
def History (m : Machine σ) (backend : σ) (c : Config σ) : Prop :=
  ∃ request : Request, m.Later (request.begin m (.initial backend)) c

theorem Leads.later {c c' : Config σ} (h : m.Leads c c') : m.Later c c' := by
  obtain ⟨n, rfl⟩ := h
  induction n with
  | zero => exact .refl
  | succ n ih =>
    rw [Function.iterate_succ_apply']
    exact .tail ih (.step _)

/-- **Requests are served by steps of the history**, up to the state that they leave. -/
theorem later_serveAll (m : Machine σ) (request : Request) (requests : List Request)
    (s : MachineState σ) :
    ∃ outcome, m.Later (request.begin m s)
      (.halted outcome (m.serveAll (request :: requests) s).2) := by
  induction requests generalizing request s with
  | nil =>
    obtain ⟨outcome, hleads, -⟩ := serve_halts m request s
    exact ⟨outcome, hleads.later⟩
  | cons next rest ih =>
    obtain ⟨outcome, hleads, -⟩ := serve_halts m request s
    obtain ⟨outcome', hlater⟩ := ih next ((m.serve request).run s).2
    exact ⟨outcome', hleads.later.trans (.head (.request outcome _ next) hlater)⟩

/-! ### Calls of native code -/

/-- The native code that an instruction calls, with its index, if it is a call that can be read. -/
def native? (m : Machine σ) (i : Instruction) : Option (Nat × NativeCall) :=
  match i.op, i.left with
  | .callNative, .native index => (m.program.natives[index]?).map (index, ·)
  | _, _ => none

/-- The next instruction of `top` calls the native code with a given index for its register
`out`. -/
def CallsNative (m : Machine σ) (top : StackFrame) (out : Register) (index : Nat)
    (call : NativeCall) : Prop :=
  ∃ i, top.procedure.code[top.pc]? = some i ∧ i.out = out ∧ m.native? i = some (index, call)

/-- The next step calls the native code with a given index. -/
def Invokes (m : Machine σ) (c : Config σ) (index : Nat) (call : NativeCall) : Prop :=
  ∃ top callers s out, c = .running top callers s ∧ m.CallsNative top out index call

/-- The next step asks the backend for the function of the native code with a given index. -/
def Asks (m : Machine σ) (c : Config σ) (index : Nat) (call : NativeCall) : Prop :=
  m.Invokes c index call ∧ c.state.functions[index]? = none

variable {c c' : Config σ} {top : StackFrame} {callers : List Caller} {s s' : MachineState σ}
  {i : Instruction} {out : Register} {index : Nat} {call : NativeCall} {f : NativeFunction}

theorem native?_eq_some (h : m.native? i = some (index, call)) :
    i.op = .callNative ∧ i.left = .native index ∧ m.program.natives[index]? = some call := by
  unfold native? at h
  split at h
  · next index' hop hleft =>
    obtain ⟨call', hcall, heq⟩ := Option.map_eq_some_iff.1 h
    obtain ⟨rfl, rfl⟩ := Prod.mk.inj heq
    exact ⟨hop, hleft, hcall⟩
  · cases h

theorem callee?_of_native? (h : m.native? i = some (index, call)) : m.callee? i = none := by
  obtain ⟨hop, -, -⟩ := native?_eq_some h
  simp only [callee?, hop]

theorem CallsNative.lookup (h : m.CallsNative top out index call) :
    m.program.natives[index]? = some call := by
  obtain ⟨i, -, -, hnative⟩ := h
  exact (native?_eq_some hnative).2.2

theorem locate_bind_run (site : Site) (r : Except Fault α) (k : α → Run σ β) (s : MachineState σ) :
    (site.locate r >>= k).run s
      = match r with
        | .ok a => (k a).run s
        | .error fault => (.error (.failure (site.failure fault)), s) := by
  rw [run_bind]
  cases r <;> rfl

/-- Native code is called with the function that is there or is built now, if its inputs can be
read. -/
theorem callNative_run (site : Site) (frame : RegisterFile)
    (hcall : m.program.natives[index]? = some call) (s : MachineState σ) :
    (m.callNative site frame index).run s
      = match m.nativeFunction index call s with
        | (.error e, s) => (.error (site.refused e), s)
        | (.ok f, s) =>
          match frame.inputs call with
          | .error fault => (.error (.failure (site.failure fault)), s)
          | .ok args =>
            match f.call args with
            | .error e => (.error (.failure (site.failure (.native e))), s)
            | .ok result => (.ok result, s.logged ⟨index, args, result⟩) := by
  rw [callNative_eq m site frame hcall, run_bind, built_run]
  cases m.nativeFunction index call s with
  | mk built s =>
    -- With the function at hand the inputs are read and the call is made.
    cases built with
    | error e => rfl
    | ok f =>
      show (site.locate (frame.inputs call) >>= _).run s = _
      rw [locate_bind_run]
      cases frame.inputs call with
      | error fault => rfl
      | ok args =>
        show (site.locate ((f.call args).mapError .native) >>= _).run s = _
        rw [locate_bind_run]
        cases hresult : f.call args <;> simp only [hresult] <;> rfl

/-- A call of native code that can be read is made by `callNative`. -/
theorem effect_native_run (h : m.native? i = some (index, call)) (site : Site)
    (frame : RegisterFile) (s : MachineState σ) :
    (m.effect none site frame i).run s
      = match (m.callNative site frame index).run s with
        | (.ok none, s) => (.ok .skip, s)
        | (.ok (some w), s) => (.ok (.write w), s)
        | (.error e, s) => (.error e, s) := by
  obtain ⟨hop, hleft, -⟩ := native?_eq_some h
  obtain ⟨op, out, left, right⟩ := i
  obtain rfl : op = .callNative := hop
  obtain rfl : left = .native index := hleft
  simp only [effect, run_bind]
  cases (m.callNative site frame index).run s with
  | mk outcome s =>
    cases outcome with
    | error e => rfl
    | ok result => cases result <;> rfl

/-- **A step that calls native code**, whatever its function is. -/
theorem next_native (h : m.CallsNative top out index call) :
    m.next (.running top callers s)
      = match m.nativeFunction index call s with
        | (.error (.misuse why), s) => .halted (.error (.misuse why)) s
        | (.error (.error e), s) => .failing (top.site.failure (.native e)) callers s
        | (.ok f, s) =>
          match top.registers.inputs call with
          | .error fault => .failing (top.site.failure fault) callers s
          | .ok args =>
            match f.call args with
            | .error e => .failing (top.site.failure (.native e)) callers s
            | .ok none => .running top.skip callers (s.logged ⟨index, args, none⟩)
            | .ok (some w) => .resume top out w callers (s.logged ⟨index, args, some w⟩) := by
  obtain ⟨i, hi, rfl, hnative⟩ := h
  rw [next_after hi (callee?_of_native? hnative), effect_native_run hnative,
    callNative_run _ _ (native?_eq_some hnative).2.2]
  cases m.nativeFunction index call s with
  | mk built s =>
    cases built with
    -- The backend refuses, or it answers with something of another shape.
    | error e => cases e <;> rfl
    -- The function is there; the inputs, the call and the register of the output follow.
    | ok f =>
      cases top.registers.inputs call with
      | error fault => rfl
      | ok args =>
        cases hresult : f.call args with
        | error e => simp only [hresult]; rfl
        | ok result => cases result <;> simp only [hresult] <;> rfl

/-! ### Functions that fit -/

/-- The function fits the native code with a given index. -/
def Fitting (m : Machine σ) (index : Nat) (f : NativeFunction) : Prop :=
  ∃ call, m.program.natives[index]? = some call ∧ f.fits call = true

theorem trusts_fitting (m : Machine σ) : m.Trusts m.Fitting where
  built _ call hcall _ _ _ _ hfits := ⟨call, hcall, hfits⟩
  fits index call hcall f := by
    rintro ⟨call', hcall', hfits⟩
    obtain rfl := Option.some.inj (hcall.symm.trans hcall')
    exact hfits

/-- What native code gets are the words of its inputs, in their order. -/
theorem inputs_eq_ok_iff {frame : RegisterFile} {args : List Word} :
    frame.inputs call = .ok args
      ↔ args.map some = call.inputs.map fun slot => frame[slot.register]? := by
  unfold RegisterFile.inputs
  generalize call.inputs = inputs
  induction inputs generalizing args with
  | nil => cases args <;> simp [pure, Except.pure]
  | cons slot rest ih =>
    rw [List.mapM_cons]
    cases hw : frame[slot.register]? with
    | none =>
      have hread : frame.read (.register slot.register) = .error (.malformed .registerRange) := by
        simp [RegisterFile.read, hw]
      rw [hread]
      cases args <;> simp [hw, bind, Except.bind]
    | some w =>
      rw [read_register_ok.2 hw]
      generalize rest.mapM (fun slot => frame.read (.register slot.register)) = read at ih
      cases args with
      | nil => cases read <;> simp [bind, Except.bind, pure, Except.pure]
      | cons w' args =>
        simp only [List.map_cons, hw, List.cons.injEq, Option.some.injEq, ← ih]
        cases read <;> simp [bind, Except.bind, pure, Except.pure, eq_comm]

/-- A function that fits does not refuse what native code gets. -/
theorem call_of_fits {frame : RegisterFile} {args : List Word} (hfits : f.fits call = true)
    (hargs : frame.inputs call = .ok args) :
    f.call args = .ok (f.result.map fun result => result args) := by
  have hlength := congrArg List.length (inputs_eq_ok_iff.1 hargs)
  simp only [List.length_map] at hlength
  simp only [NativeFunction.fits, Bool.and_eq_true, beq_iff_eq] at hfits
  rw [NativeFunction.call, if_pos (hlength.trans hfits.1.symm)]

/-- What a step comes to that calls native code: the backend does not give a function that fits, or
the registers of its inputs do not exist, or the function is called with the words in them. -/
inductive Served (m : Machine σ) (top : StackFrame) (callers : List Caller) (s : MachineState σ)
    (out : Register) (index : Nat) (call : NativeCall) : Config σ → Prop
  /-- The backend should not have been asked, and the run is over. -/
  | misuse {why : Misuse} {s' : MachineState σ}
      (hbuilt : m.nativeFunction index call s = (.error (.misuse why), s')) :
      Served m top callers s out index call (.halted (.error (.misuse why)) s')
  /-- The backend gives no function that fits, which is a failure. -/
  | refused {e : NativeError} {s' : MachineState σ}
      (hbuilt : m.nativeFunction index call s = (.error (.error e), s')) :
      Served m top callers s out index call (.failing (top.site.failure (.native e)) callers s')
  /-- An input has no register, which is a failure. -/
  | unread {f : NativeFunction} {s' : MachineState σ} {fault : Fault}
      (hbuilt : m.nativeFunction index call s = (.ok f, s'))
      (hargs : top.registers.inputs call = .error fault) :
      Served m top callers s out index call (.failing (top.site.failure fault) callers s')
  /-- The function is called and has no result. -/
  | silent {f : NativeFunction} {s' : MachineState σ} {args : List Word}
      (hbuilt : m.nativeFunction index call s = (.ok f, s'))
      (hargs : args.map some = call.inputs.map fun slot => top.registers[slot.register]?)
      (hcall : f.call args = .ok none) (houtput : call.output = none) :
      Served m top callers s out index call
        (.running top.skip callers (s'.logged ⟨index, args, none⟩))
  /-- The function is called, and its result is on the way to a register. -/
  | value {f : NativeFunction} {s' : MachineState σ} {args : List Word} {w : Word}
      {slot : NativeSlot} (hbuilt : m.nativeFunction index call s = (.ok f, s'))
      (hargs : args.map some = call.inputs.map fun slot => top.registers[slot.register]?)
      (hcall : f.call args = .ok (some w)) (houtput : call.output = some slot) :
      Served m top callers s out index call
        (.resume top out w callers (s'.logged ⟨index, args, some w⟩))

theorem next_served (hs : Cached m.Fitting s) (h : m.CallsNative top out index call) :
    m.Served top callers s out index call (m.next (.running top callers s)) := by
  have hfitting := (nativeFunction_cached m.trusts_fitting h.lookup hs).2
  rw [next_native h]
  cases hbuilt : m.nativeFunction index call s with
  | mk built s' =>
    rw [hbuilt] at hfitting
    cases built with
    | error e =>
      cases e with
      | misuse why => exact .misuse hbuilt
      | error e => exact .refused hbuilt
    | ok f =>
      have hfits := m.trusts_fitting.fits index call h.lookup f (hfitting f rfl)
      cases hargs : top.registers.inputs call with
      | error fault => exact .unread hbuilt hargs
      -- A function that fits takes the inputs and gives a value exactly if there is an output.
      | ok args =>
        have hwords := inputs_eq_ok_iff.1 hargs
        have hcall := call_of_fits hfits hargs
        have hreturns : f.result.isSome = call.output.isSome := by
          simpa [NativeFunction.returns] using (Bool.and_eq_true_iff.1 hfits).2
        simp only [hcall]
        cases hresult : f.result with
        | none =>
          rw [hresult] at hcall hreturns
          exact .silent hbuilt hwords hcall (by simpa using hreturns.symm)
        | some result =>
          rw [hresult] at hcall hreturns
          obtain ⟨slot, houtput⟩ := Option.isSome_iff_exists.1 hreturns.symm
          exact .value hbuilt hwords hcall houtput

/-! ### All other steps -/

theorem native?_eq_none (hop : i.op = .callNative) (hleft : i.left = .native index)
    (h : m.native? i = none) : m.program.natives[index]? = none := by
  simpa only [native?, hop, hleft, Option.map_eq_none_iff] using h

/-- Only an instruction that calls native code depends on the backend. -/
theorem effect_backend (h : m.native? i = none) (backend : Backend σ) (site : Site)
    (frame : RegisterFile) :
    Machine.effect { m with backend } none site frame i = m.effect none site frame i := by
  obtain ⟨op, out, left, right⟩ := i
  cases op with
  | callNative =>
    cases left with
    | native index => simp only [effect, callNative, native?_eq_none rfl rfl h]
    | none | register | constant | procedure => rfl
  | noop | copy | loadConstant | ret | call | binary | negate | convert => rfl

theorem locate_bind_state {site : Site} {r : Except Fault α} {k : α → Run σ β}
    (hk : ∀ a s, ((k a).run s).2 = s) (s : MachineState σ) :
    ((site.locate r >>= k).run s).2 = s := by
  rw [locate_bind_run]
  cases r with
  | ok a => exact hk a s
  | error fault => rfl

/-- Only calls change the state. -/
theorem effect_state (h : m.native? i = none) (site : Site) (frame : RegisterFile)
    (s : MachineState σ) : ((m.effect none site frame i).run s).2 = s := by
  obtain ⟨op, out, left, right⟩ := i
  cases op with
  | noop => rfl
  | copy | convert => exact locate_bind_state (fun _ _ => rfl) s
  | loadConstant =>
    cases left with
    | constant index =>
      simp only [effect]
      cases m.program.constants[index]? <;> rfl
    | none | register | native | procedure => rfl
  | call =>
    cases left with
    | procedure index =>
      simp only [effect]
      cases m.program.procedures[index]? <;> rfl
    | none | register | constant | native => rfl
  | ret =>
    cases left with
    | none => rfl
    | register | constant | native | procedure => exact locate_bind_state (fun _ _ => rfl) s
  | callNative =>
    cases left with
    | native index =>
      simp only [effect, callNative, native?_eq_none rfl rfl h]
      rfl
    | none | register | constant | procedure => rfl
  | binary op kind =>
    exact locate_bind_state (fun _ => locate_bind_state fun _ =>
      locate_bind_state fun _ _ => rfl) s
  | negate kind => exact locate_bind_state (fun _ => locate_bind_state fun _ _ => rfl) s

namespace Config

variable {σ : Type} {top : StackFrame} {callers : List Caller} {s : MachineState σ}

theorem state_resume (out : Register) (w : Word) : (resume top out w callers s).state = s := by
  unfold resume
  split <;> rfl

theorem state_leave (w : Word) (registers : RegisterFile) :
    ∃ n, (leave w registers callers s).state = { s with openCalls := n } := by
  cases callers with
  | nil => exact ⟨_, rfl⟩
  | cons caller callers => exact ⟨_, state_resume _ _⟩

theorem state_after (i : Instruction) (r : Except Halt Effect) :
    ∃ n, (after top callers i (r, s)).state = { s with openCalls := n } := by
  cases r with
  | error h => cases h <;> exact ⟨_, rfl⟩
  | ok e =>
    cases e with
    | skip => exact ⟨_, rfl⟩
    | write w => exact ⟨_, state_resume _ _⟩
    | leave w => exact state_leave _ _

end Config

/-- A step that calls no native code depends on nothing but the program, and keeps all that the
machine keeps. -/
theorem next_silent (h : ∀ index call, ¬m.Invokes c index call) (backend : Backend σ) :
    Machine.next { m with backend } c = m.next c
      ∧ ∃ n, (m.next c).state = { c.state with openCalls := n } := by
  cases c with
  | failing f callers s => cases callers <;> exact ⟨rfl, _, rfl⟩
  | halted outcome s => exact ⟨rfl, _, rfl⟩
  | running top callers s =>
    rcases m.next_running_cases top callers s with ⟨hi, hnext⟩ | ⟨i, hi, hcallee, hnext⟩
      | ⟨out, callee, hcalls, hlimit, hnext⟩ | ⟨out, callee, hcalls, hlimit, hnext⟩
    · rw [hnext, next_end hi]
      exact ⟨rfl, Config.state_leave _ _⟩
    · -- An instruction without native code has the same effect with any backend.
      have hnative : m.native? i = none := by
        cases hnative : m.native? i with
        | none => rfl
        | some r => exact (h r.1 r.2 ⟨top, callers, s, i.out, rfl, i, hi, rfl, hnative⟩).elim
      have hstate := effect_state hnative top.site top.registers s
      rw [hnext, next_after (m := { m with backend }) hi hcallee, effect_backend hnative]
      generalize (m.effect none top.site top.registers i).run s = r at hstate
      obtain ⟨outcome, s'⟩ := r
      obtain rfl : s' = s := hstate
      exact ⟨rfl, Config.state_after _ _⟩
    · rw [hnext, next_refuse (m := { m with backend }) hcalls hlimit]
      exact ⟨rfl, _, rfl⟩
    · rw [hnext, next_enter (m := { m with backend }) hcalls hlimit]
      exact ⟨rfl, _, rfl⟩

/-! ### What the machine keeps -/

/-- A step that calls native code leaves the backend and the functions as getting the function
does. -/
theorem next_native_kept (h : m.CallsNative top out index call) :
    (m.next (.running top callers s)).state.backend = (m.nativeFunction index call s).2.backend
      ∧ (m.next (.running top callers s)).state.functions
        = (m.nativeFunction index call s).2.functions := by
  rw [next_native h]
  cases m.nativeFunction index call s with
  | mk built s' =>
    cases built with
    | error e => cases e <;> exact ⟨rfl, rfl⟩
    | ok f =>
      cases top.registers.inputs call with
      | error fault => exact ⟨rfl, rfl⟩
      | ok args =>
        cases hresult : f.call args with
        | error e => simp only [hresult]; exact ⟨rfl, rfl⟩
        | ok result =>
          cases result with
          | none => simp only [hresult]; exact ⟨rfl, rfl⟩
          | some w => simp only [hresult, Config.state_resume]; exact ⟨rfl, rfl⟩

theorem nativeFunction_of_built (m : Machine σ) (call : NativeCall)
    (hf : s.functions[index]? = some f) : m.nativeFunction index call s = (.ok f, s) := by
  simp only [nativeFunction, hf]

/-- A function that is not there is asked for once. -/
theorem nativeFunction_backend (hnone : s.functions[index]? = none) :
    (m.nativeFunction index call s).2.backend = (m.backend.compile s.backend call).2 := by
  simp only [nativeFunction, hnone]
  cases m.backend.compile s.backend call with
  | mk result backend =>
    cases result with
    | error e => rfl
    | ok f => by_cases hfits : f.fits call = true <;> simp [hfits]

/-- A function that fits is kept. -/
theorem nativeFunction_keeps (hnone : s.functions[index]? = none)
    (hbuilt : (m.backend.compile s.backend call).1 = .ok f) (hfits : f.fits call = true) :
    (m.nativeFunction index call s).2.functions[index]? = some f := by
  simp only [nativeFunction, hnone]
  generalize m.backend.compile s.backend call = r at hbuilt
  obtain ⟨result, backend⟩ := r
  obtain rfl : result = .ok f := hbuilt
  simp [hfits]

/-- Functions that are there stay. -/
theorem nativeFunction_mono (index' : Nat) (hf : s.functions[index]? = some f) :
    (m.nativeFunction index' call s).2.functions[index]? = some f := by
  cases hf' : s.functions[index']? with
  | some f' => rw [nativeFunction_of_built m call hf']; exact hf
  | none =>
    have hne : index' ≠ index := by
      rintro rfl
      cases hf.symm.trans hf'
    simp only [nativeFunction, hf']
    cases m.backend.compile s.backend call with
    | mk result backend =>
      cases result with
      | error e => exact hf
      | ok g =>
        by_cases hfits : g.fits call = true
        · simpa [hfits, Std.TreeMap.getElem?_insert, hne] using hf
        · simpa [hfits] using hf

namespace Request

theorem state_begin (request : Request) (m : Machine σ) (s : MachineState σ) :
    (request.begin m s).state = s := by
  cases request with
  | run =>
    simp only [begin, Machine.begin]
    split <;> rfl
  | evaluate index =>
    simp only [begin]
    split <;> rfl

end Request

/-- A move changes the functions by getting one, or not at all. -/
theorem Moves.functions (h : m.Moves c c') :
    c'.state.functions = c.state.functions
      ∨ ∃ index call, m.program.natives[index]? = some call
        ∧ c'.state.functions = (m.nativeFunction index call c.state).2.functions := by
  cases h with
  | request outcome s request =>
    rw [Request.state_begin]
    exact .inl rfl
  | step =>
    by_cases hinvokes : ∃ index call, m.Invokes c index call
    · obtain ⟨index, call, top, callers, s, out, rfl, hcalls⟩ := hinvokes
      exact .inr ⟨index, call, hcalls.lookup, (next_native_kept hcalls).2⟩
    · have hsilent := fun index call hinv => hinvokes ⟨index, call, hinv⟩
      obtain ⟨-, n, hstate⟩ := next_silent hsilent m.backend
      rw [hstate]
      exact .inl rfl

theorem Later.function_stays (h : m.Later c c') (hf : c.state.functions[index]? = some f) :
    c'.state.functions[index]? = some f := by
  induction h with
  | refl => exact hf
  | tail _ hmove ih =>
    rcases hmove.functions with hkept | ⟨index', call, -, hbuilt⟩
    · rw [hkept]
      exact ih
    · rw [hbuilt]
      exact nativeFunction_mono index' ih

/-- **All functions that are kept fit their code**, whatever the backend has built. -/
theorem History.fitting {backend : σ} (h : m.History backend c) : Cached m.Fitting c.state := by
  obtain ⟨request, hlater⟩ := h
  induction hlater with
  | refl =>
    rw [Request.state_begin]
    intro index f hf
    simp [MachineState.initial] at hf
  | tail _ hmove ih =>
    intro index f hf
    rcases hmove.functions with hkept | ⟨index', call, hcall, hbuilt⟩
    · rw [hkept] at hf
      exact ih index f hf
    · rw [hbuilt] at hf
      exact (nativeFunction_cached m.trusts_fitting hcall ih).1 index f hf

/-! ### What the backend is asked -/

/-- **Any other step does not depend on the backend**, and does not change its state. -/
theorem next_of_not_asks (h : ∀ index call, ¬m.Asks c index call) (backend : Backend σ) :
    Machine.next { m with backend } c = m.next c
      ∧ (m.next c).state.backend = c.state.backend := by
  by_cases hinvokes : ∃ index call, m.Invokes c index call
  · obtain ⟨index, call, hinvokes⟩ := hinvokes
    cases hf : c.state.functions[index]? with
    | none => exact (h index call ⟨hinvokes, hf⟩).elim
    | some f =>
      obtain ⟨top, callers, s, out, rfl, hcalls⟩ := hinvokes
      have hf : s.functions[index]? = some f := hf
      refine ⟨?_, ?_⟩
      · rw [next_native hcalls, next_native (m := { m with backend }) hcalls,
          nativeFunction_of_built m call hf, nativeFunction_of_built { m with backend } call hf]
      · rw [(next_native_kept hcalls).1, nativeFunction_of_built m call hf]
        rfl
  · have hsilent := fun index call hinv => hinvokes ⟨index, call, hinv⟩
    obtain ⟨heq, n, hstate⟩ := next_silent hsilent backend
    exact ⟨heq, by rw [hstate]⟩

/-- A step that asks the backend asks it once. -/
theorem Asks.backend (h : m.Asks c index call) :
    (m.next c).state.backend = (m.backend.compile c.state.backend call).2 := by
  obtain ⟨⟨top, callers, s, out, rfl, hcalls⟩, hnone⟩ := h
  rw [(next_native_kept hcalls).1]
  exact nativeFunction_backend hnone

/-- **Nothing is asked for again that has been built.** -/
theorem not_asks_again (h : m.Asks c index call)
    (hbuilt : (m.backend.compile c.state.backend call).1 = .ok f) (hfits : f.fits call = true)
    (hlater : m.Later (m.next c) c') (call' : NativeCall) : ¬m.Asks c' index call' := by
  obtain ⟨⟨top, callers, s, out, rfl, hcalls⟩, hnone⟩ := h
  have hkept : (m.next (.running top callers s)).state.functions[index]? = some f := by
    rw [(next_native_kept hcalls).2]
    exact nativeFunction_keeps hnone hbuilt hfits
  rintro ⟨-, hnone'⟩
  cases (hlater.function_stays hkept).symm.trans hnone'

/-! ### Frames -/

/-- The frame is of a procedure of the program, and has its size. -/
structure StackFrame.Of (m : Machine σ) (frame : StackFrame) : Prop where
  /-- Its procedure is one of the program. -/
  procedure : ∃ j : Nat, m.program.procedures[j]? = some frame.procedure
  /-- It has a register for each that the code uses. -/
  size : frame.registers.size = frame.procedure.frameSize

/-- All frames of the stack are of procedures of the program. -/
def Framed (m : Machine σ) : Config σ → Prop
  | .running top callers _ => top.Of m ∧ ∀ caller ∈ callers, caller.frame.Of m
  | .failing _ callers _ => ∀ caller ∈ callers, caller.frame.Of m
  | .halted _ _ => True

namespace Framed

theorem enter {j : Nat} {p : Procedure} (hp : m.program.procedures[j]? = some p) :
    (StackFrame.enter p).Of m :=
  ⟨⟨j, hp⟩, by simp [StackFrame.enter, RegisterFile.zeroed]⟩

theorem begin (m : Machine σ) (request : Request) (s : MachineState σ) :
    m.Framed (request.begin m s) := by
  cases request with
  | run =>
    simp only [Request.begin, Machine.begin]
    split
    · trivial
    · next p hp => exact ⟨enter hp, by simp⟩
  | evaluate index =>
    simp only [Request.begin]
    split
    · trivial
    · next p hp => exact ⟨enter hp, by simp⟩

theorem resume (htop : top.Of m) (hcallers : ∀ caller ∈ callers, caller.frame.Of m)
    (out : Register) (w : Word) (s : MachineState σ) :
    m.Framed (.resume top out w callers s) := by
  unfold Config.resume
  split
  · next registers hwrite =>
    obtain ⟨-, hlt, rfl⟩ := write_ok_iff.1 hwrite
    exact ⟨⟨htop.procedure, (Array.size_set hlt).trans htop.size⟩, hcallers⟩
  · exact hcallers

theorem leave (hcallers : ∀ caller ∈ callers, caller.frame.Of m) (w : Word)
    (registers : RegisterFile) (s : MachineState σ) :
    m.Framed (.leave w registers callers s) := by
  cases callers with
  | nil => trivial
  | cons caller callers =>
    exact resume (hcallers caller (.head _)) (fun c hc => hcallers c (.tail _ hc)) _ w _

theorem after (htop : top.Of m) (hcallers : ∀ caller ∈ callers, caller.frame.Of m)
    (i : Instruction) (r : Except Halt Effect × MachineState σ) :
    m.Framed (.after top callers i r) := by
  obtain ⟨outcome, s⟩ := r
  cases outcome with
  | error h =>
    cases h with
    | failure f => exact hcallers
    | misuse why => trivial
  | ok e =>
    cases e with
    | skip => exact ⟨⟨htop.procedure, htop.size⟩, hcallers⟩
    | write w => exact resume htop hcallers i.out w s
    | leave w => exact leave hcallers w top.registers s

theorem next (h : m.Framed c) : m.Framed (m.next c) := by
  cases c with
  | halted outcome s => trivial
  | failing f callers s =>
    cases callers with
    | nil => trivial
    | cons caller callers => exact fun c hc => h c (.tail _ hc)
  | running top callers s =>
    obtain ⟨htop, hcallers⟩ := h
    rcases m.next_running_cases top callers s with ⟨-, hnext⟩ | ⟨i, -, -, hnext⟩
      | ⟨out, callee, -, -, hnext⟩ | ⟨out, callee, hcalls, -, hnext⟩
    · rw [hnext]
      exact leave hcallers _ _ _
    · rw [hnext]
      exact after htop hcallers i _
    · rw [hnext]
      exact hcallers
    · rw [hnext]
      obtain ⟨i, -, -, hcallee⟩ := hcalls
      obtain ⟨j, -, -, hj⟩ := callee?_eq_some hcallee
      exact ⟨enter hj, List.forall_mem_cons.2 ⟨htop, hcallers⟩⟩

end Framed

theorem History.framed {backend : σ} (h : m.History backend c) : m.Framed c := by
  obtain ⟨request, hlater⟩ := h
  induction hlater with
  | refl => exact .begin m request _
  | tail _ hmove ih =>
    cases hmove with
    | step => exact ih.next
    | request outcome s request => exact .begin m request s

/-! ### Native code in well-formed programs -/

/-- What a call of native code makes of the registers: the one of its output gets a value. -/
def Writes (call : NativeCall) (registers registers' : RegisterFile) : Prop :=
  match call.output with
  | none => registers' = registers
  | some slot =>
    ∃ w, ∃ h : slot.register < registers.size, registers' = registers.set slot.register w h

/-- In a well-formed program native code is called if there is a function for it, and then nothing
but the register of its output changes. -/
theorem Served.writes (h : m.Served top callers s out index call c) (hm : m.program.WellFormed)
    (hcalls : m.CallsNative top out index call) (htop : top.Of m) :
    (∃ e, (m.nativeFunction index call s).1 = .error e)
      ∨ ∃ registers last s', c = .running ⟨top.procedure, top.pc + 1, registers, last⟩ callers s'
        ∧ Writes call top.registers registers := by
  obtain ⟨i, hi, rfl, hnative⟩ := hcalls
  obtain ⟨hop, hleft, hcall⟩ := native?_eq_some hnative
  obtain ⟨j, hj⟩ := htop.procedure
  have hfits := (hm.procedures j _ hj).fits i (Array.mem_of_getElem? hi)
  -- The slots of the call are registers of the frame.
  obtain ⟨hout, hinputs, houtput⟩ : i.out = (call.output.map NativeSlot.register).getD .none
      ∧ (∀ slot ∈ call.inputs, Register.InFrame top.registers.size slot.register)
      ∧ ∀ slot, call.output = some slot → Register.InFrame top.registers.size slot.register := by
    rw [htop.size, Procedure.frameSize]
    cases hfits with
    | @callNative index' native hindex hinputs houtput =>
      cases hleft
      obtain rfl := Option.some.inj (hindex.symm.trans hcall)
      exact ⟨rfl, hinputs, houtput⟩
    | copy | loadConstant | call | retNone | ret | binary | negate | convert => cases hop
  cases h with
  | misuse hbuilt | refused hbuilt => exact .inl ⟨_, congrArg Prod.fst hbuilt⟩
  -- All inputs can be read.
  | unread hbuilt hargs =>
    obtain ⟨args, hok, -⟩ := inputs_ok hinputs
    cases hok.symm.trans hargs
  | silent hbuilt hargs hcall hnone =>
    refine .inr ⟨_, _, _, rfl, ?_⟩
    simp only [Writes, hnone]
  | @value f s' args w slot hbuilt hargs hcall hsome =>
    -- The instruction writes the register of the output slot.
    have hslot : i.out = slot.register := by rw [hout, hsome]; rfl
    have hframe := houtput slot hsome
    have hwrite : top.registers.write i.out w
        = .ok (top.registers.set slot.register w hframe.2) := by
      rw [hslot]
      exact write_ok_iff.2 ⟨hframe.ne_none, hframe.2, rfl⟩
    refine .inr ⟨_, _, _, by simp only [Config.resume, hwrite]; rfl, ?_⟩
    simp only [Writes, hsome]
    exact ⟨_, hframe.2, rfl⟩

/-- **Native functions are built once and called as they should be.**  In all that any requests lead
to the functions that are kept fit their code; the backend is asked by the steps that say so, once
each, and never again for a function that fitted; and native code is called with the words in the
registers of its inputs, by a function that takes as many.  In a generated program such a call
changes the register of its output and no other one. -/
theorem natives_served (m : Machine σ) (backend : σ) :
    (∀ request requests, ∃ outcome, m.History backend
      (.halted outcome (m.serveAll (request :: requests) (.initial backend)).2))
      ∧ ∀ c, m.History backend c →
        Cached m.Fitting c.state
        ∧ (∀ index call, m.Asks c index call →
            (m.next c).state.backend = (m.backend.compile c.state.backend call).2
            ∧ ∀ f, (m.backend.compile c.state.backend call).1 = .ok f → f.fits call = true →
              ∀ c', m.Later (m.next c) c' → ∀ call', ¬m.Asks c' index call')
        ∧ ((∀ index call, ¬m.Asks c index call) → ∀ other : Backend σ,
            Machine.next { m with backend := other } c = m.next c
            ∧ (m.next c).state.backend = c.state.backend)
        ∧ ((∀ index call, ¬m.Invokes c index call) →
            (m.next c).state.events = c.state.events)
        ∧ ∀ top callers s out index call, c = .running top callers s →
            m.CallsNative top out index call →
            m.Served top callers s out index call (m.next c)
            ∧ ∀ t links root r ty limit g, Generated.ofTree t links root r ty limit = .ok g →
              m.program = g.program →
              (∃ e, (m.nativeFunction index call s).1 = .error e)
              ∨ ∃ registers last s',
                m.next c = .running ⟨top.procedure, top.pc + 1, registers, last⟩ callers s'
                ∧ Writes call top.registers registers := by
  refine ⟨fun request requests => ?_, fun c hc => ⟨hc.fitting, ?_, ?_, ?_, ?_⟩⟩
  · obtain ⟨outcome, hlater⟩ := later_serveAll m request requests (.initial backend)
    exact ⟨outcome, request, hlater⟩
  · exact fun index call hasks =>
      ⟨hasks.backend, fun f hbuilt hfits c' hlater => not_asks_again hasks hbuilt hfits hlater⟩
  · exact next_of_not_asks
  · intro hsilent
    -- Without native code the step changes nothing but the count of open calls.
    obtain ⟨-, n, hstate⟩ := next_silent hsilent m.backend
    rw [hstate]
  · rintro top callers s out index call rfl hcalls
    have hserved : m.Served top callers s out index call (m.next (.running top callers s)) :=
      next_served hc.fitting hcalls
    refine ⟨hserved, fun t links root r ty limit g hg hprogram => ?_⟩
    -- Generated programs are well-formed.
    have hm : m.program.WellFormed := hprogram ▸ Generated.ofTree_wellFormed hg
    exact hserved.writes hm hcalls hc.framed.1

end Machine

/-- `x := 5`, and native code that reads and writes `x`. -/
def Tree.writesBack : Tree where
  nodes :=
    #[⟨.literal (.number "5"), .nowhere⟩, ⟨.var "x" none (some 0), .nowhere⟩,
      ⟨.ident "x", .nowhere⟩, ⟨.slot 2 0, .nowhere⟩, ⟨.ident "x", .nowhere⟩, ⟨.slot 4 0, .nowhere⟩,
      ⟨.native "inc" [3] (some 5), .nowhere⟩, ⟨.exprStmt 6, .nowhere⟩, ⟨.module [1, 7], .nowhere⟩]
  children_lt := by decide

/-- A backend that rejects what it is asked for first, then builds a function of another shape, and
from then on functions of one word that count up.  It counts how often it has been asked. -/
def Backend.hesitant : Backend Nat :=
  ⟨fun asked _ =>
    (if asked = 0 then .error (.error (.rejected "not now"))
      else if asked = 1 then .ok ⟨0, none, Nat.zero_le _⟩
      else .ok ⟨1, some fun args => args.headD 0 + 1, by decide⟩, asked + 1)⟩

/-- Of four runs the first two fail.  The backend is asked three times, and the last two runs call
the function with the value of `x`, which is 5 for both as the registers are new. -/
theorem Machine.writesBack_served :
    ∃ compiled, compile .writesBack (.unset 9) 8 "" .unlimited = .ok compiled
      ∧ let m : Machine Nat := ⟨compiled.program, .hesitant, 8⟩
        ∃ s, (m.serveAll [.run, .run, .run, .run] (.initial 0)).2 = s
          ∧ s.backend = 3 ∧ s.events = #[⟨0, [5], some 6⟩, ⟨0, [5], some 6⟩]
          ∧ Machine.Cached m.Fitting s
          ∧ ∀ c, m.History 0 c → ∀ top callers s out index call, c = .running top callers s →
              m.CallsNative top out index call →
              (∃ e, (m.nativeFunction index call s).1 = .error e)
              ∨ ∃ registers last s',
                m.next c = .running ⟨top.procedure, top.pc + 1, registers, last⟩ callers s'
                ∧ Machine.Writes call top.registers registers := by
  -- The four runs are computed.
  have hruns : (compile .writesBack (.unset 9) 8 "" .unlimited).toOption.any (fun compiled =>
      let s := (Machine.serveAll ⟨compiled.program, .hesitant, 8⟩ [.run, .run, .run, .run]
        (.initial 0)).2
      s.backend == 3 && s.events == #[⟨0, [5], some 6⟩, ⟨0, [5], some 6⟩]) = true := by
    decide +kernel
  obtain ⟨compiled, h, hruns⟩ := Runs.exists_of_any hruns
  obtain ⟨a, g, -, -, -, hg, -, hprogram⟩ := compile_ok h
  simp only [Bool.and_eq_true, beq_iff_eq] at hruns
  obtain ⟨hbackend, hevents⟩ := hruns
  obtain ⟨hserves, hhistory⟩ := Machine.natives_served ⟨compiled.program, .hesitant, 8⟩ 0
  obtain ⟨outcome, hend⟩ := hserves .run [.run, .run, .run]
  refine ⟨compiled, h, _, rfl, hbackend, hevents, (hhistory _ hend).1, ?_⟩
  intro c hc top callers s out index call hrunning hcalls
  obtain ⟨-, -, -, -, hnative⟩ := hhistory c hc
  exact (hnative top callers s out index call hrunning hcalls).2 _ _ _ _ _ _ g hg hprogram

end MiddleEnd
