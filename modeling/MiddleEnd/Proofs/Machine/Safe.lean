import MiddleEnd.Machine.Run
import MiddleEnd.Proofs.Code.WellFormed
import MiddleEnd.Proofs.Lowering.Sound

/-!
# Well-formed programs do not go wrong

A machine that runs a well-formed program never meets an instruction that it cannot read.  Native
functions outlive a run, so this needs an invariant of the state: every function that has been built
serves the native code it is kept for.  What else is known of the functions that a backend builds is
kept in the same way.

## Main definitions

* `Machine.Trusts` — a property of the native functions that a backend builds.
* `Machine.Cached` — the invariant: all functions that have been built have the property.
* `Machine.Safe` — a computation that keeps it and meets no malformed instruction.
* `Machine.Reachable` — the states that evaluations and runs lead to.

## Main results

* `Machine.execute_safe` — running a procedure is safe, at any depth.
* `Machine.Reachable.cached` — the invariant holds in every reachable state.
* `Generated.wellFormed_and_never_malformed` — generated programs do not go wrong.
-/

namespace MiddleEnd

/-- No instruction was malformed. -/
def Halt.IsOrderly : Halt → Prop
  | .failure f => ∀ why, f.fault ≠ .malformed why
  | .misuse _ => True

namespace Machine

variable {σ α β : Type} {m : Machine σ}

/-- A property of native functions with their indices that all functions have which the backend
builds, and which makes them serve the code with that index. -/
structure Trusts (m : Machine σ) (Q : Nat → NativeFunction → Prop) : Prop where
  /-- A function that is built and fits has the property. -/
  built : ∀ (index : Nat) (call : NativeCall), m.program.natives[index]? = some call →
    ∀ (s : σ) (f : NativeFunction) (s' : σ), m.backend.compile s call = (.ok f, s') →
      f.fits call = true → Q index f
  /-- A function that has the property serves the code. -/
  fits : ∀ (index : Nat) (call : NativeCall), m.program.natives[index]? = some call →
    ∀ f, Q index f → f.fits call = true

/-- A function serves the native code with a given index. -/
def Serves (m : Machine σ) (index : Nat) (f : NativeFunction) : Prop :=
  ∀ call, m.program.natives[index]? = some call → f.fits call = true

theorem trusts_serves (m : Machine σ) : m.Trusts m.Serves where
  built _ _ hcall _ _ _ _ hfits _ hcall' := Option.some.inj (hcall.symm.trans hcall') ▸ hfits
  fits _ call hcall _ hf := hf call hcall

/-- Every function that has been built has the property `Q`. -/
def Cached (Q : Nat → NativeFunction → Prop) (s : MachineState σ) : Prop :=
  ∀ (index : Nat) (f : NativeFunction), s.functions[index]? = some f → Q index f

variable {Q : Nat → NativeFunction → Prop}

/-- What may come out of a safe computation. -/
def Outcome (post : α → Prop) : Except Halt α → Prop
  | .ok a => post a
  | .error h => h.IsOrderly

/-- A computation that keeps the invariant, meets no malformed instruction, and whose result has
the property `post`. -/
def Safe (Q : Nat → NativeFunction → Prop) (x : Run σ α) (post : α → Prop) : Prop :=
  ∀ s, Cached Q s → Cached Q (x.run s).2 ∧ Outcome post (x.run s).1

/-! ### Building safe computations -/

theorem run_bind (x : Run σ α) (f : α → Run σ β) (s : MachineState σ) :
    (x >>= f).run s
      = match x.run s with
        | (.ok a, s) => (f a).run s
        | (.error h, s) => (.error h, s) := by
  show (ExceptT.bind x f).run s = _
  simp only [ExceptT.bind, ExceptT.mk, ExceptT.run, Bind.bind, StateT.bind]
  cases h : x s with
  | mk outcome s' => cases outcome <;> rfl

namespace Safe

theorem pure {post : α → Prop} {a : α} (h : post a) : Safe Q (Pure.pure a : Run σ α) post :=
  fun _ hs => ⟨hs, h⟩

theorem bind {P : α → Prop} {post : β → Prop} {x : Run σ α} {f : α → Run σ β}
    (hx : Safe Q x P) (hf : ∀ a, P a → Safe Q (f a) post) : Safe Q (x >>= f) post := by
  intro s hs
  obtain ⟨hcached, houtcome⟩ := hx s hs
  rw [run_bind]
  cases hrun : x.run s with
  | mk outcome s' =>
    rw [hrun] at hcached houtcome
    cases outcome with
    | ok a => exact hf a houtcome s' hcached
    | error h => exact ⟨hcached, houtcome⟩

theorem throw {post : α → Prop} {h : Halt} (hh : h.IsOrderly) :
    Safe Q (MonadExcept.throw h : Run σ α) post :=
  fun _ hs => ⟨hs, hh⟩

theorem fail {post : α → Prop} {site : Site} {fault : Fault}
    (h : ∀ why, fault ≠ .malformed why) : Safe Q (site.fail fault : Run σ α) post :=
  throw (h := .failure (site.failure fault)) h

theorem locate {post : α → Prop} {site : Site} {r : Except Fault α}
    (hok : ∀ a, r = .ok a → post a)
    (herror : ∀ fault, r = .error fault → ∀ why, fault ≠ .malformed why) :
    Safe Q (site.locate r : Run σ α) post := by
  cases r with
  | ok a => exact pure (hok a rfl)
  | error fault => exact fail (herror fault rfl)

end Safe

/-! ### Instructions -/

theorem read_ok {frame : RegisterFile} {r : Register} (h : Register.InFrame frame.size r) :
    ∃ w, frame.read (.register r) = .ok w := by
  obtain ⟨w, hget⟩ : ∃ w, frame[r]? = some w := ⟨_, Array.getElem?_eq_getElem h.2⟩
  exact ⟨w, by simp [RegisterFile.read, hget]⟩

theorem write_ok {frame : RegisterFile} {out : Register} (w : Word)
    (h : Register.InFrame frame.size out) :
    ∃ frame', frame.write out w = .ok frame' ∧ frame'.size = frame.size := by
  refine ⟨frame.set out w h.2, ?_, by simp⟩
  rw [RegisterFile.write, if_neg h.ne_none, dif_pos h.2]

theorem Safe.read {site : Site} {frame : RegisterFile} {r : Register}
    (h : Register.InFrame frame.size r) :
    Safe Q (site.locate (frame.read (.register r)) : Run σ Word) fun _ => True := by
  obtain ⟨w, hw⟩ := read_ok h
  rw [hw]
  exact .pure trivial

theorem inputs_ok {frame : RegisterFile} {call : NativeCall}
    (h : ∀ slot ∈ call.inputs, Register.InFrame frame.size slot.register) :
    ∃ args, frame.inputs call = .ok args ∧ args.length = call.inputs.length := by
  unfold RegisterFile.inputs
  generalize call.inputs = inputs at h
  induction inputs with
  | nil => exact ⟨[], rfl, rfl⟩
  | cons slot rest ih =>
    obtain ⟨w, hw⟩ := read_ok (h slot (.head _))
    obtain ⟨args, hargs, hlength⟩ := ih fun slot hslot => h slot (.tail _ hslot)
    refine ⟨w :: args, ?_, by simp [hlength]⟩
    rw [List.mapM_cons, hw, hargs]
    rfl

/-- The cache keeps serving the code that its functions are kept for. -/
theorem nativeFunction_cached (hQ : m.Trusts Q) {index : Nat} {call : NativeCall}
    (hcall : m.program.natives[index]? = some call) {s : MachineState σ} (hs : Cached Q s) :
    Cached Q (m.nativeFunction index call s).2
      ∧ ∀ f, (m.nativeFunction index call s).1 = .ok f → Q index f := by
  unfold nativeFunction
  cases hf : s.functions[index]? with
  -- A function that is kept has been right before.
  | some f =>
    refine ⟨hs, fun f' hf' => ?_⟩
    obtain rfl : f = f' := by simpa using hf'
    exact hs index f hf
  -- A function that is built now is kept if it fits.
  | none =>
    cases hcompile : m.backend.compile s.backend call with
    | mk result backend =>
      cases result with
      | error e => exact ⟨hs, by simp⟩
      | ok f =>
        by_cases hfits : f.fits call
        · have hserves := hQ.built index call hcall _ _ _ hcompile hfits
          simp only [if_pos hfits]
          refine ⟨fun index' f' hf' => ?_, fun f' hf' => by cases hf'; exact hserves⟩
          simp only [Std.TreeMap.getElem?_insert] at hf'
          split at hf'
          · next hindex =>
            obtain rfl : index = index' := by simpa using hindex
            cases hf'
            exact hserves
          · exact hs index' f' hf'
        · simp only [if_neg hfits]
          exact ⟨hs, by simp⟩

/-- Native code with an output gives a value, other native code gives none. -/
theorem callNative_safe (hQ : m.Trusts Q) {site : Site} {frame : RegisterFile} {index : Nat}
    {call : NativeCall}
    (hcall : m.program.natives[index]? = some call)
    (hinputs : ∀ slot ∈ call.inputs, Register.InFrame frame.size slot.register) :
    Safe Q (m.callNative site frame index) fun result => result.isSome = call.output.isSome := by
  unfold callNative
  simp only [hcall]
  refine Safe.bind (P := fun r => ∀ f, r = .ok f → Q index f) ?_ fun r hr => ?_
  · exact fun s hs => nativeFunction_cached hQ hcall hs
  · cases r with
    | error e =>
      cases e with
      | misuse why => exact .throw trivial
      | error e => exact .fail (by simp)
    | ok f =>
      have hfits := hQ.fits index call hcall f (hr f rfl)
      simp only [NativeFunction.fits, NativeFunction.returns, Bool.and_eq_true, beq_iff_eq] at hfits
      -- The function takes as many words as the call has inputs, so it does not refuse them.
      obtain ⟨args, hargs, hlength⟩ := inputs_ok hinputs
      simp only [hargs]
      have hresult : f.call args = .ok (f.result.map fun result => result args) := by
        rw [NativeFunction.call, if_pos (by rw [hlength, hfits.1])]
      refine Safe.bind (P := fun words => words = args) (.pure rfl) fun words hwords => ?_
      rw [hwords, hresult]
      refine Safe.bind (P := fun w => w = f.result.map fun result => result args)
        (.pure rfl) fun w hw => ?_
      refine Safe.bind (P := fun _ => True) (fun s hs => ⟨hs, trivial⟩) fun _ _ => .pure ?_
      rw [hw, ← hfits.2]
      simp

theorem arith_orderly {r : Except ArithError Word} {fault : Fault}
    (h : r.mapError Fault.arith = .error fault) (why : Malformed) : fault ≠ .malformed why := by
  cases r with
  | ok w => cases h
  | error e =>
    cases h
    simp

/-- An instruction that fits does what it should, or fails for a reason of the program. -/
theorem effect_safe (hQ : m.Trusts Q) {call : Option (Procedure → Run σ Word)} {site : Site}
    {frame : RegisterFile} {i : Instruction} (hm : m.program.WellFormed)
    (hi : i.Fits m.program frame.size)
    (hcall : ∀ f, call = some f → ∀ q, q.WellFormed m.program → Safe Q (f q) fun _ => True) :
    Safe Q (m.effect call site frame i) fun e =>
      ∀ w, e = .write w → Register.InFrame frame.size i.out := by
  cases hi with
  | copy hout hr =>
    exact .bind (.read hr) fun w _ => .pure fun _ _ => hout
  | @loadConstant out index hout hindex =>
    simp only [effect, Array.getElem?_eq_getElem hindex]
    exact .pure fun _ _ => hout
  | @call out index hout hindex =>
    simp only [effect, Array.getElem?_eq_getElem hindex]
    cases call with
    | none => exact .fail (by simp)
    | some f =>
      have hq := hm.procedures index _ (Array.getElem?_eq_getElem hindex)
      exact .bind (hcall f rfl _ hq) fun w _ => .pure fun _ _ => hout
  | retNone => exact .pure fun _ h => by cases h
  | ret hr => exact .bind (.read hr) fun w _ => .pure fun _ h => by cases h
  | @callNative index native hindex hinputs houtput =>
    -- A value comes only from code with an output, whose register is in the frame.
    refine Safe.bind (callNative_safe hQ hindex hinputs) fun result hresult => ?_
    cases result with
    | none => exact .pure fun _ h => by cases h
    | some w =>
      refine .pure fun _ _ => ?_
      cases hnative : native.output with
      | none => simp [hnative] at hresult
      | some slot => exact houtput slot hnative
  | @binary op kind out a b hout ha hb =>
    refine .bind (.read ha) fun a _ => .bind (.read hb) fun b _ => ?_
    refine Safe.bind (P := fun _ => True) ?_ fun w _ => .pure fun _ _ => hout
    exact .locate (fun _ _ => trivial) fun fault hfault => arith_orderly hfault
  | @negate kind out r hout hr =>
    refine .bind (.read hr) fun a _ => ?_
    refine Safe.bind (P := fun _ => True) ?_ fun w _ => .pure fun _ _ => hout
    exact .locate (fun _ _ => trivial) fun fault hfault => arith_orderly hfault
  | convert hout hr =>
    exact .bind (.read hr) fun w _ => .pure fun _ _ => hout

/-! ### Runs -/

theorem runFrom_safe (hQ : m.Trusts Q) {call : Option (Procedure → Run σ Word)} {p : Procedure}
    {pc : Nat} {code : List Instruction} {frame : RegisterFile} {last : Word}
    (hm : m.program.WellFormed) (hcode : ∀ i ∈ code, i.Fits m.program frame.size)
    (hcall : ∀ f, call = some f → ∀ q, q.WellFormed m.program → Safe Q (f q) fun _ => True) :
    Safe Q (m.runFrom call p pc code frame last) fun _ => True := by
  -- The frame changes on the way, but not its size, which is all that the instructions rely on.
  induction code generalizing pc frame last with
  | nil => exact .pure trivial
  | cons i rest ih =>
    have hrest (frame' : RegisterFile) (hsize : frame'.size = frame.size) :
        ∀ j ∈ rest, j.Fits m.program frame'.size :=
      fun j hj => hsize ▸ hcode j (.tail _ hj)
    refine Safe.bind (effect_safe hQ hm (hcode i (.head _)) hcall) fun e he => ?_
    cases e with
    | skip => exact ih (hrest frame rfl)
    | leave w => exact .pure trivial
    | write w =>
      obtain ⟨frame', hwrite, hsize⟩ := write_ok w (he w rfl)
      simp only [hwrite]
      refine Safe.bind (P := fun written => written = frame') (.pure rfl) fun written h => ?_
      rw [h]
      exact ih (hrest frame' hsize)

theorem runProcedure_safe (hQ : m.Trusts Q) {call : Option (Procedure → Run σ Word)} {p : Procedure}
    (hm : m.program.WellFormed) (hp : p.WellFormed m.program)
    (hcall : ∀ f, call = some f → ∀ q, q.WellFormed m.program → Safe Q (f q) fun _ => True) :
    Safe Q (m.runProcedure call p) fun _ => True := by
  refine runFrom_safe hQ hm (fun i hi => ?_) hcall
  have hsize : (RegisterFile.zeroed p.frameSize).size = p.nextRegister := by
    simp [RegisterFile.zeroed, Procedure.frameSize]
  rw [hsize]
  exact hp.fits i (by simpa using hi)

theorem nested_run (x : Run σ α) (s : MachineState σ) :
    (nested x).run s
      = match x.run s with
        | (.error (.misuse why), s) =>
          (.error (.misuse why), { s with openCalls := s.openCalls + 1 })
        | outcome => outcome :=
  rfl

theorem nested_safe {post : α → Prop} {x : Run σ α} (hx : Safe Q x post) :
    Safe Q (nested x) post := by
  intro s hs
  obtain ⟨hcached, houtcome⟩ := hx s hs
  rw [nested_run]
  cases hrun : x.run s with
  | mk outcome s' =>
    rw [hrun] at hcached houtcome
    cases outcome with
    | ok a => exact ⟨hcached, houtcome⟩
    | error h =>
      cases h with
      | failure f => exact ⟨hcached, houtcome⟩
      | misuse why => exact ⟨hcached, trivial⟩

/-- Running a procedure of a well-formed program is safe, at any depth. -/
theorem execute_safe (hQ : m.Trusts Q) (hm : m.program.WellFormed) (depth : Nat) {p : Procedure}
    (hp : p.WellFormed m.program) : Safe Q (m.execute depth p) fun _ => True := by
  -- A callee runs with one nested call less.
  induction depth generalizing p with
  | zero => exact runProcedure_safe hQ hm hp fun f hf => by cases hf
  | succ depth ih =>
    refine runProcedure_safe hQ hm hp fun f hf q hq => ?_
    cases hf
    exact nested_safe (.bind (ih hq) fun _ _ => .pure trivial)

theorem enter_safe (hQ : m.Trusts Q) (hm : m.program.WellFormed) {p : Procedure}
    (hp : p.WellFormed m.program) : Safe Q (m.enter p) fun _ => True :=
  .bind (P := fun _ => True) (fun _ hs => ⟨hs, trivial⟩) fun _ _ => execute_safe hQ hm _ hp

theorem evaluate_safe (hQ : m.Trusts Q) (hm : m.program.WellFormed) {index : Nat}
    (hindex : index < m.program.procedures.size) : Safe Q (m.evaluate index) fun _ => True := by
  have hget := Array.getElem?_eq_getElem hindex
  simp only [evaluate, hget]
  exact .bind (enter_safe hQ hm (hm.procedures _ _ hget)) fun _ _ => .pure trivial

theorem run_safe (hQ : m.Trusts Q) (hm : m.program.WellFormed) : Safe Q m.run fun _ => True := by
  have hget := Array.getElem?_eq_getElem hm.start
  simp only [run, hget]
  exact .bind (enter_safe hQ hm (hm.procedures _ _ hget)) fun _ _ => .pure trivial

/-! ### Histories -/

/-- The states of a machine: a new one, and what evaluations and runs leave, however they end. -/
inductive Reachable (m : Machine σ) : MachineState σ → Prop
  /-- A machine that has not run yet. -/
  | initial (backend : σ) : Reachable m (.initial backend)
  /-- A procedure has been run for its value. -/
  | evaluate {s : MachineState σ} (h : Reachable m s) (index : Nat) :
      Reachable m ((m.evaluate index).run s).2
  /-- The program has been run. -/
  | run {s : MachineState σ} (h : Reachable m s) : Reachable m (m.run.run s).2

/-- The invariant holds in every reachable state. -/
theorem Reachable.cached (hQ : m.Trusts Q) (hm : m.program.WellFormed) {s : MachineState σ}
    (h : m.Reachable s) : Cached Q s := by
  -- Whether a run ends well or fails, it leaves the cache as it should be.
  induction h with
  | initial backend =>
    intro index f hf
    simp [MachineState.initial] at hf
  | @evaluate s h index ih =>
    by_cases hindex : index < m.program.procedures.size
    · exact (evaluate_safe hQ hm hindex s ih).1
    · have hget : m.program.procedures[index]? = none := Array.getElem?_eq_none (by omega)
      simp only [Machine.evaluate, hget]
      exact ih
  | run h ih => exact (run_safe hQ hm _ ih).1

/-- A well-formed program never makes a machine report a malformed instruction. -/
theorem Reachable.never_malformed (hm : m.program.WellFormed) {s : MachineState σ}
    (h : m.Reachable s) {index : Nat} (hindex : index < m.program.procedures.size) {f : Failure}
    (hf : ((m.evaluate index).run s).1 = .error (.failure f)
      ∨ (m.run.run s).1 = .error (.failure f)) (why : Malformed) : f.fault ≠ .malformed why := by
  have hQ := m.trusts_serves
  have hs := h.cached hQ hm
  rcases hf with hf | hf
  · have houtcome := (evaluate_safe hQ hm hindex s hs).2
    rw [hf] at houtcome
    exact houtcome why
  · have houtcome := (run_safe hQ hm s hs).2
    rw [hf] at houtcome
    exact houtcome why

end Machine

/-- **Generated programs do not go wrong.**  Whatever the tree, its names and its types are, the
program that lowering gives is well formed, and no machine that runs it ever meets a malformed
instruction: not with any backend, any limit on calls, or anything that has run before. -/
theorem Generated.wellFormed_and_never_malformed {t : Tree} {links : Links} {root : NodeId}
    {r : Resolution} {ty : Typing} {limit : Nat} {g : Generated}
    (h : Generated.ofTree t links root r ty limit = .ok g) :
    g.program.WellFormed
      ∧ (∀ (j : Nat) (p : Procedure), g.program.procedures[j]? = some p → ∀ i ∈ p.code,
          (i.out = .none ↔ i.op = .ret ∨ i.CallsSilent g.program))
      ∧ ∀ (σ : Type) (m : Machine σ), m.program = g.program → ∀ s, m.Reachable s →
          ∀ index, index < g.program.procedures.size → ∀ f,
            ((m.evaluate index).run s).1 = .error (.failure f)
              ∨ (m.run.run s).1 = .error (.failure f) →
            ∀ why, f.fault ≠ .malformed why := by
  have hg := ofTree_wellFormed h
  refine ⟨hg, fun j p hp i hi => ((hg.procedures j p hp).fits i hi).out_eq_none_iff, ?_⟩
  intro σ m hm s hs index hindex f hf why
  rw [← hm] at hg hindex
  exact hs.never_malformed hg hindex hf why

/-- A call of a procedure that is written in place of the callee and returns at once. -/
def Tree.callInPlace : Tree where
  nodes :=
    #[⟨.ret none, .nowhere⟩, ⟨.block [0], .nowhere⟩, ⟨.procedure none 1, .nowhere⟩,
      ⟨.call 2, .nowhere⟩, ⟨.exprStmt 3, .nowhere⟩, ⟨.module [4], .nowhere⟩]
  children_lt := by decide

/-- A machine that may not nest calls fails at the call, but not for a malformed instruction. -/
theorem Generated.callInPlace_never_malformed :
    ∃ g, Generated.ofTree .callInPlace (.unset 6) 5 ⟨∅, [], ∅, []⟩ (.start 6) 100 = .ok g
      ∧ g.program.WellFormed
      ∧ ∀ s, Machine.Reachable ⟨g.program, .unavailable Unit, 0⟩ s → ∀ f,
          ((Machine.run ⟨g.program, .unavailable Unit, 0⟩).run s).1 = .error (.failure f) →
          ∀ why, f.fault ≠ .malformed why := by
  have hok : (Generated.ofTree .callInPlace (.unset 6) 5 ⟨∅, [], ∅, []⟩ (.start 6) 100).isOk
      = true := by decide +kernel
  cases hg : Generated.ofTree .callInPlace (.unset 6) 5 ⟨∅, [], ∅, []⟩ (.start 6) 100 with
  | error stop =>
    rw [hg] at hok
    cases hok
  | ok g =>
    obtain ⟨hwell, -, hsafe⟩ := Generated.wellFormed_and_never_malformed hg
    exact ⟨g, rfl, hwell, fun s hs f hf why => hsafe Unit _ rfl s hs 0 hwell.start f (.inr hf) why⟩

end MiddleEnd
