import MiddleEnd.Proofs.Machine.Effects

/-!
# What all runs have in common

A run is put together from few steps: values and failures, native functions that are built and
called, and nested calls.  A property of these steps that carries over to what is put together from
them is a property of every run.  Here it is used for runs side by side, and for the count of the
calls that have been broken off.

## Main definitions

* `Machine.built` — get a native function, or halt.
* `Machine.Closed` — a property of computations that a machine cannot leave.
* `Machine.Respects` — from related states a computation has the same outcome and ends in related
  states.
* `Machine.KeepsCalls` — only a misuse breaks calls off.

## Main results

* `Machine.Closed.execute` — running a procedure has every closed property, at any depth.
* `Machine.closed_respects` — a relation that building, logging and breaking off respect is
  respected by every run.
* `Machine.closed_keepsCalls` — **runs leave the count of broken calls as it was**, unless one of
  them is broken off.
-/

namespace MiddleEnd

namespace MachineState

variable {σ : Type}

/-- One more call is open. -/
def opened (s : MachineState σ) : MachineState σ := { s with openCalls := s.openCalls + 1 }

/-- A call of native code has been made. -/
def logged (s : MachineState σ) (e : NativeEvent) : MachineState σ :=
  { s with events := s.events.push e }

end MachineState

namespace Machine

variable {σ α β : Type} {m : Machine σ}

/-- Get the native function with a given index, or halt. -/
def built (m : Machine σ) (site : Site) (index : Nat) (call : NativeCall) :
    Run σ NativeFunction := do
  match ← modifyGet (m.nativeFunction index call) with
  | .error (.misuse why) => throw (.misuse why)
  | .error (.error e) => site.fail (.native e)
  | .ok f => return f

/-- What a run ends with that gets no function from the backend. -/
def Site.refused (site : Site) : Refusal → Halt
  | .error e => .failure (site.failure (.native e))
  | .misuse why => .misuse why

theorem built_run (m : Machine σ) (site : Site) (index : Nat) (call : NativeCall)
    (s : MachineState σ) :
    (m.built site index call).run s
      = ((m.nativeFunction index call s).1.mapError site.refused,
        (m.nativeFunction index call s).2) := by
  cases hr : m.nativeFunction index call s with
  | mk result s' =>
    rw [built, run_bind, run_modifyGet_ok.2 hr]
    cases result with
    | ok f => rfl
    | error e => cases e <;> rfl

/-- Native code is called once its function is there. -/
theorem callNative_eq (m : Machine σ) (site : Site) (frame : RegisterFile) {index : Nat}
    {call : NativeCall} (hcall : m.program.natives[index]? = some call) :
    m.callNative site frame index = do
      let f ← m.built site index call
      let args ← site.locate (frame.inputs call)
      let result ← site.locate ((f.call args).mapError .native)
      modify (·.logged ⟨index, args, result⟩)
      return result := by
  simp only [callNative, hcall, built, bind_assoc]
  refine bind_congr fun r => ?_
  cases r with
  | ok f => rfl
  | error e => cases e <;> rfl

/-- A property of computations that the steps of a machine have and pass on. -/
structure Closed (m : Machine σ) (C : ∀ α : Type, Run σ α → Prop) : Prop where
  pure {α : Type} (a : α) : C α (Pure.pure a)
  fail {α : Type} (f : Failure) : C α (MonadExcept.throw (.failure f))
  bind {α β : Type} {x : Run σ α} {f : α → Run σ β} (hx : C α x) (hf : ∀ a, C β (f a)) :
    C β (x >>= f)
  built {site : Site} {index : Nat} {call : NativeCall}
    (hcall : m.program.natives[index]? = some call) : C _ (m.built site index call)
  log (e : NativeEvent) : C _ (modify (·.logged e))
  nested {α : Type} {x : Run σ α} (hx : C α x) : C α (Machine.nested x)

/-! ### Running procedures -/

namespace Closed

variable {C : ∀ α : Type, Run σ α → Prop} (h : m.Closed C)

include h

theorem locate (site : Site) (r : Except Fault α) : C α (site.locate r) := by
  cases r with
  | ok a => exact h.pure a
  | error fault => exact h.fail _

theorem callNative (site : Site) (frame : RegisterFile) (index : Nat) :
    C _ (m.callNative site frame index) := by
  cases hcall : m.program.natives[index]? with
  | none =>
    simp only [Machine.callNative, hcall]
    exact h.fail _
  | some call =>
    rw [callNative_eq m site frame hcall]
    refine h.bind (h.built hcall) fun f => h.bind (h.locate site _) fun args => ?_
    exact h.bind (h.locate site _) fun result => h.bind (h.log _) fun _ => h.pure result

/-- An instruction has the property if all calls that it can make have it. -/
theorem effect {call : Option (Procedure → Run σ Word)}
    (hcall : ∀ f, call = some f → ∀ q, C _ (f q)) (site : Site) (frame : RegisterFile)
    (i : Instruction) : C _ (m.effect call site frame i) := by
  unfold Machine.effect
  split
  case h_1 => exact h.pure _
  case h_2 => exact h.bind (h.locate site _) fun w => h.pure _
  case h_3 =>
    split
    · split
      · exact h.pure _
      · exact h.fail _
    · exact h.fail _
  case h_4 =>
    split
    · split
      · -- Only a call at a permitted depth runs another procedure.
        exact h.fail _
      · exact h.fail _
      · next f _ => exact h.bind (hcall f rfl _) fun w => h.pure _
    · exact h.fail _
  case h_5 =>
    split
    · exact h.pure _
    · exact h.bind (h.locate site _) fun w => h.pure _
  -- Native code has a result exactly if it has an output.
  case h_6 =>
    split
    · refine h.bind (h.callNative site frame _) fun result => ?_
      cases result with
      | none => exact h.pure _
      | some w => exact h.pure _
    · exact h.fail _
  case h_7 =>
    refine h.bind (h.locate site _) fun a => h.bind (h.locate site _) fun b => ?_
    exact h.bind (h.locate site _) fun w => h.pure _
  case h_8 => exact h.bind (h.locate site _) fun a => h.bind (h.locate site _) fun w => h.pure _
  case h_9 => exact h.bind (h.locate site _) fun a => h.pure _

theorem runFrom {call : Option (Procedure → Run σ Word)}
    (hcall : ∀ f, call = some f → ∀ q, C _ (f q)) (p : Procedure) (pc : Nat)
    (code : List Instruction) (frame : RegisterFile) (last : Word) :
    C _ (m.runFrom call p pc code frame last) := by
  induction code generalizing pc frame last with
  | nil => exact h.pure _
  | cons i rest ih =>
    unfold Machine.runFrom
    refine h.bind (h.effect hcall _ frame i) fun e => ?_
    cases e with
    | skip => exact ih _ _ _
    | leave w => exact h.pure _
    | write w => exact h.bind (h.locate _ _) fun frame => ih _ _ _

/-- **Running a procedure has every closed property**, at any depth. -/
theorem execute (depth : Nat) (p : Procedure) : C _ (m.execute depth p) := by
  -- A callee runs with one nested call less.
  induction depth generalizing p with
  | zero => exact h.runFrom (fun f hf => by cases hf) p _ _ _ _
  | succ depth ih =>
    refine h.runFrom (fun f hf q => ?_) p _ _ _ _
    cases hf
    exact h.nested (h.bind (ih q) fun r => h.pure _)

theorem calls (depth : Nat) : ∀ f, m.calls depth = some f → ∀ q, C _ (f q) := by
  intro f hf q
  cases depth with
  | zero => cases hf
  | succ depth =>
    cases hf
    exact h.nested (h.bind (h.execute depth q) fun r => h.pure _)

end Closed

/-- What is made of the result of a computation does not change the state. -/
theorem run_bind_pure (x : Run σ α) (f : α → β) (s : MachineState σ) :
    (x >>= fun a => pure (f a)).run s = ((x.run s).1.map f, (x.run s).2) := by
  rw [run_bind]
  generalize x.run s = r
  obtain ⟨outcome, s'⟩ := r
  cases outcome <;> rfl

/-- A procedure is entered with the nested calls that the open ones leave. -/
theorem enter_run (m : Machine σ) (p : Procedure) (s : MachineState σ) :
    (m.enter p).run s = (m.execute (m.maxCallDepth - s.openCalls) p).run s := rfl

/-! ### Runs side by side -/

section Respects

variable {R : MachineState σ → MachineState σ → Prop}

/-- From related states the computation has the same outcome and ends in related states. -/
def Respects (R : MachineState σ → MachineState σ → Prop) (α : Type) (x : Run σ α) : Prop :=
  ∀ s s', R s s' → (x.run s).1 = (x.run s').1 ∧ R (x.run s).2 (x.run s').2

/-- From related states there is one outcome, and the states at the end are related. -/
theorem Respects.exists_run {x : Run σ α} (hx : Respects R α x) {s s' : MachineState σ}
    (hs : R s s') :
    ∃ outcome s₁ s₁', x.run s = (outcome, s₁) ∧ x.run s' = (outcome, s₁') ∧ R s₁ s₁' := by
  obtain ⟨houtcome, hstates⟩ := hx s s' hs
  exact ⟨(x.run s).1, (x.run s).2, (x.run s').2, rfl, Prod.ext houtcome.symm rfl, hstates⟩

theorem Respects.bind {x : Run σ α} {f : α → Run σ β} (hx : Respects R α x)
    (hf : ∀ a, Respects R β (f a)) : Respects R β (x >>= f) := by
  intro s s' hs
  obtain ⟨outcome, s₁, s₁', hrun, hrun', hstates⟩ := hx.exists_run hs
  rw [run_bind, run_bind, hrun, hrun']
  cases outcome with
  | ok a => exact hf a s₁ s₁' hstates
  | error e => exact ⟨rfl, hstates⟩

theorem Respects.nested (hopened : ∀ s s', R s s' → R s.opened s'.opened) {x : Run σ α}
    (hx : Respects R α x) : Respects R α (Machine.nested x) := by
  intro s s' hs
  obtain ⟨outcome, s₁, s₁', hrun, hrun', hstates⟩ := hx.exists_run hs
  rw [nested_run, nested_run, hrun, hrun']
  cases outcome with
  | ok a => exact ⟨rfl, hstates⟩
  | error e =>
    cases e with
    | failure f => exact ⟨rfl, hstates⟩
    | misuse why => exact ⟨rfl, hopened s₁ s₁' hstates⟩

/-- Runs respect what building and calling native functions and breaking calls off respect. -/
theorem closed_respects
    (hbuild : ∀ index call, m.program.natives[index]? = some call → ∀ s s', R s s' →
      (m.nativeFunction index call s).1 = (m.nativeFunction index call s').1
        ∧ R (m.nativeFunction index call s).2 (m.nativeFunction index call s').2)
    (hlogged : ∀ e s s', R s s' → R (s.logged e) (s'.logged e))
    (hopened : ∀ s s', R s s' → R s.opened s'.opened) : m.Closed (Respects R) where
  pure _ _ _ hs := ⟨rfl, hs⟩
  fail _ _ _ hs := ⟨rfl, hs⟩
  bind := Respects.bind
  built hcall s s' hs := by
    obtain ⟨houtcome, hstates⟩ := hbuild _ _ hcall s s' hs
    rw [built_run, built_run, houtcome]
    exact ⟨rfl, hstates⟩
  log e s s' hs := ⟨rfl, hlogged e s s' hs⟩
  nested := Respects.nested hopened

end Respects

/-! ### Calls that are broken off -/

/-- Only a misuse breaks calls off. -/
def KeepsCalls (α : Type) (x : Run σ α) : Prop :=
  ∀ s, (∃ why, (x.run s).1 = .error (.misuse why)) ∨ (x.run s).2.openCalls = s.openCalls

theorem nativeFunction_openCalls (m : Machine σ) (index : Nat) (call : NativeCall)
    (s : MachineState σ) : (m.nativeFunction index call s).2.openCalls = s.openCalls := by
  unfold nativeFunction
  split
  · rfl
  · split
    · rfl
    · split <;> rfl

/-- **Runs leave the count of broken calls as it was**, unless one of them is broken off. -/
theorem closed_keepsCalls (m : Machine σ) : m.Closed KeepsCalls where
  pure _ _ := .inr rfl
  fail _ _ := .inr rfl
  bind {α β x f} hx hf := by
    intro s
    have hs := hx s
    rw [run_bind]
    generalize x.run s = r at hs
    obtain ⟨outcome, s₁⟩ := r
    cases outcome with
    -- What fails in the first part is what fails as a whole.
    | error e =>
      rcases hs with ⟨why, hwhy⟩ | hcalls
      · obtain rfl := Except.error.inj hwhy
        exact .inl ⟨why, rfl⟩
      · exact .inr hcalls
    | ok a =>
      rcases hs with ⟨why, hwhy⟩ | hcalls
      · cases hwhy
      · exact (hf a s₁).imp_right (·.trans hcalls)
  -- Building a function touches the backend and the cache only.
  built _ s := by
    rw [built_run]
    exact .inr (nativeFunction_openCalls m _ _ s)
  log _ _ := .inr rfl
  nested {α x} hx := by
    intro s
    have hs := hx s
    rw [nested_run]
    generalize x.run s = r at hs
    obtain ⟨outcome, s₁⟩ := r
    cases outcome with
    | ok a => exact hs
    | error e =>
      cases e with
      | failure f => exact hs
      | misuse why => exact .inl ⟨why, rfl⟩

end Machine

end MiddleEnd
