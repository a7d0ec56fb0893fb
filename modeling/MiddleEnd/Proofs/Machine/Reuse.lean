import MiddleEnd.Proofs.Machine.Stack

/-!
# Machines that are used again

A machine keeps the native functions that it has built, and the state of its backend.  Where the
backend answers the same whenever it is asked, neither can be noticed: whatever has been asked of
the machine before, and however that ended, the next answer is that of a new machine.

## Main definitions

* `Machine.Request`, `Machine.serve`, `Machine.serveAll` — what can be asked of a machine, once and
  in sequence.
* `Machine.AnswersBy` — a backend whose answers depend on the native code only.
* `Machine.Answered` — the functions that such a backend builds.
* `Machine.Alike` — states between which a run cannot tell.

## Main results

* `Machine.nativeFunction_answer` — a native function is what the backend answers, built before or
  not.
* `Machine.serve_halts` — requests are served by steps of calls and returns.
* `Machine.serve_respects` — requests have the same answer in states that are alike.
* `Machine.serveAll_fresh` — **no request can tell what has been asked before it**.
-/

namespace MiddleEnd.Machine

variable {σ α β : Type} {m : Machine σ}

/-! ### Requests -/

/-- What can be asked of a machine. -/
inductive Request where
  /-- The value of a procedure. -/
  | evaluate (index : Nat)
  /-- A run of the whole program. -/
  | run
  deriving DecidableEq, Repr

/-- What a machine answers if nothing fails. -/
inductive Reply where
  /-- The value of the procedure. -/
  | value (w : Word)
  /-- What the run has left. -/
  | output (o : RunOutput)

/-- Serve one request. -/
def serve (m : Machine σ) : Request → Run σ Reply
  | .evaluate index => do return .value (← m.evaluate index)
  | .run => do return .output (← m.run)

namespace Request

/-- The first configuration of a request. -/
def begin (m : Machine σ) : Request → MachineState σ → Config σ
  | .evaluate index, s =>
    match m.program.procedures[index]? with
    | none =>
      .halted (.error (.failure ⟨.malformed .noProcedure, (Operand.procedure index).text, 0,
        .nowhere⟩)) s
    | some p => .running (.enter p) [] s
  | .run, s => m.begin s

/-- What is handed out of the result. -/
def reply : Request → RunOutput → Reply
  | .evaluate _, o => .value o.value
  | .run, o => .output o

end Request

/-- Serve requests one after the other, whether the ones before have failed or not. -/
def serveAll (m : Machine σ) :
    List Request → MachineState σ → List (Except Halt Reply) × MachineState σ
  | [], s => ([], s)
  | request :: rest, s =>
    let (reply, s) := (m.serve request).run s
    let (replies, s) := m.serveAll rest s
    (reply :: replies, s)

/-- A misuse has broken off what was asked. -/
def Broken (r : Except Halt α) : Prop := ∃ why, r = .error (.misuse why)

/-! ### Backends that answer the same whenever they are asked -/

/-- The answers of the backend depend on the native code only. -/
def AnswersBy (m : Machine σ) (answers : NativeCall → Except Refusal NativeFunction) : Prop :=
  ∀ backend call, (m.backend.compile backend call).1 = answers call

/-- The function is the answer for the native code with a given index, and serves it. -/
def Answered (m : Machine σ) (answers : NativeCall → Except Refusal NativeFunction) (index : Nat)
    (f : NativeFunction) : Prop :=
  ∃ call, m.program.natives[index]? = some call ∧ answers call = .ok f ∧ f.fits call = true

/-- The answer of the machine, which refuses functions that do not fit. -/
def checked (answers : NativeCall → Except Refusal NativeFunction) (call : NativeCall) :
    Except Refusal NativeFunction :=
  match answers call with
  | .error e => .error e
  | .ok f => if f.fits call then .ok f else .error (.error (f.mismatch call))

variable {answers : NativeCall → Except Refusal NativeFunction} {index : Nat} {call : NativeCall}
  {s s' : MachineState σ}

theorem AnswersBy.trusts (h : m.AnswersBy answers) : m.Trusts (m.Answered answers) where
  built index call hcall backend f backend' hcompile hfits := by
    refine ⟨call, hcall, ?_, hfits⟩
    rw [← h backend call, hcompile]
  fits index call hcall f hf := by
    obtain ⟨call', hcall', -, hfits⟩ := hf
    obtain rfl := Option.some.inj (hcall.symm.trans hcall')
    exact hfits

/-- A native function is what the backend answers, whether it has been built before or not. -/
theorem nativeFunction_answer (h : m.AnswersBy answers)
    (hcall : m.program.natives[index]? = some call) (hs : Cached (m.Answered answers) s) :
    (m.nativeFunction index call s).1 = checked answers call := by
  unfold nativeFunction checked
  cases hf : s.functions[index]? with
  | some f =>
    obtain ⟨call', hcall', hanswer, hfits⟩ := hs index f hf
    obtain rfl := Option.some.inj (hcall.symm.trans hcall')
    simp only [hanswer, hfits, if_true]
  | none =>
    rw [← h s.backend call]
    cases m.backend.compile s.backend call with
    | mk result backend =>
      cases result with
      | error e => rfl
      | ok f =>
        by_cases hfits : f.fits call = true
        · simp only [hfits, if_true]
        · simp only [hfits, Bool.false_eq_true, if_false]

/-- Misuses come from the backend. -/
theorem compile_of_misuse {why : Misuse}
    (h : (m.nativeFunction index call s).1 = .error (.misuse why)) :
    (m.backend.compile s.backend call).1 = .error (.misuse why) := by
  unfold nativeFunction at h
  split at h
  · cases h
  · generalize m.backend.compile s.backend call = r at h
    obtain ⟨result, backend⟩ := r
    cases result with
    | error e => exact h
    | ok f =>
      simp only at h
      split at h <;> cases h

/-! ### States that cannot be told apart -/

/-- All functions that have been built are answers of the backend, and as many calls are open. -/
structure Alike (m : Machine σ) (answers : NativeCall → Except Refusal NativeFunction)
    (s s' : MachineState σ) : Prop where
  /-- What the one machine has built are answers of the backend. -/
  left : Cached (m.Answered answers) s
  /-- So is what the other one has built. -/
  right : Cached (m.Answered answers) s'
  /-- As many calls have been broken off in both. -/
  openCalls : s.openCalls = s'.openCalls

theorem closed_respects_alike (h : m.AnswersBy answers) :
    m.Closed (Respects (m.Alike answers)) := by
  refine closed_respects ?_ ?_ ?_
  · intro index call hcall s s' hs
    refine ⟨?_, ?_⟩
    · rw [nativeFunction_answer h hcall hs.left, nativeFunction_answer h hcall hs.right]
    · refine ⟨(nativeFunction_cached h.trusts hcall hs.left).1,
        (nativeFunction_cached h.trusts hcall hs.right).1, ?_⟩
      rw [nativeFunction_openCalls, nativeFunction_openCalls]
      exact hs.openCalls
  · intro e s s' hs
    exact ⟨hs.left, hs.right, hs.openCalls⟩
  · intro s s' hs
    exact ⟨hs.left, hs.right, congrArg (· + 1) hs.openCalls⟩

/-! ### One request -/

/-- A request has every closed property that entering a procedure has. -/
theorem Closed.serve {C : ∀ α : Type, Run σ α → Prop} (h : m.Closed C)
    (henter : ∀ p, C _ (m.enter p)) (request : Request) : C _ (m.serve request) := by
  cases request with
  | evaluate index =>
    refine h.bind ?_ fun w => h.pure _
    unfold Machine.evaluate
    split
    · exact h.fail _
    · exact h.bind (henter _) fun r => h.pure _
  | run =>
    refine h.bind ?_ fun o => h.pure _
    unfold Machine.run
    split
    · exact h.fail _
    · exact h.bind (henter _) fun r => h.pure _

/-- Every request comes to its end with what it is answered, on the machine with its stack. -/
theorem serve_halts (m : Machine σ) (request : Request) (s : MachineState σ) :
    ∃ outcome, m.Leads (request.begin m s) (.halted outcome ((m.serve request).run s).2)
      ∧ ((m.serve request).run s).1 = outcome.map request.reply := by
  cases request with
  -- A program that runs ends with its output.
  | run =>
    have hserve : (m.serve .run).run s = ((m.run.run s).1.map .output, (m.run.run s).2) :=
      run_bind_pure m.run _ s
    rw [hserve]
    exact ⟨_, run_halts m s, rfl⟩
  -- A procedure that is evaluated ends with its value, if there is one of the number.
  | evaluate index =>
    have hserve : (m.serve (.evaluate index)).run s
        = (((m.evaluate index).run s).1.map .value, ((m.evaluate index).run s).2) :=
      run_bind_pure (m.evaluate index) _ s
    rw [hserve]
    cases hp : m.program.procedures[index]? with
    | none =>
      simp only [Request.begin, evaluate, hp]
      exact ⟨_, .refl _, rfl⟩
    | some p =>
      have hevaluate : (m.evaluate index).run s
          = (((m.enter p).run s).1.map Prod.fst, ((m.enter p).run s).2) := by
        simp only [evaluate, hp]
        exact run_bind_pure (m.enter p) _ s
      rw [hevaluate]
      simp only [Request.begin, hp]
      refine ⟨_, enter_halts m p s, ?_⟩
      cases ((m.enter p).run s).1 <;> rfl

/-- Requests have the same answer in states that are alike, and leave such states. -/
theorem serve_respects (h : m.AnswersBy answers) (request : Request) :
    Respects (m.Alike answers) _ (m.serve request) := by
  have hclosed := closed_respects_alike h
  refine hclosed.serve (fun p s s' hs => ?_) request
  rw [enter_run, enter_run, hs.openCalls]
  exact hclosed.execute _ p s s' hs

theorem serve_keepsCalls (m : Machine σ) (request : Request) :
    KeepsCalls _ (m.serve request) :=
  (closed_keepsCalls m).serve (fun p s => (closed_keepsCalls m).execute _ p s) request

/-- Nothing is broken off where the backend answers with functions and errors. -/
theorem closed_unbroken (h : m.AnswersBy answers)
    (hanswers : ∀ call why, answers call ≠ .error (.misuse why)) :
    m.Closed fun _ x => ∀ s, ¬Broken (x.run s).1 where
  pure _ _ := by
    rintro ⟨why, hwhy⟩
    cases hwhy
  fail _ _ := by
    rintro ⟨why, hwhy⟩
    cases hwhy
  bind {α β x f} hx hf := by
    intro s
    have hs := hx s
    rw [run_bind]
    generalize x.run s = r at hs
    obtain ⟨outcome, s₁⟩ := r
    cases outcome with
    | ok a => exact hf a s₁
    | error e =>
      rintro ⟨why, hwhy⟩
      exact hs ⟨why, congrArg Except.error (Except.error.inj hwhy)⟩
  -- The backend is asked only if no function is kept.
  built {site index call} hcall := by
    rintro s ⟨why, hwhy⟩
    rw [built_run] at hwhy
    cases hanswer : (m.nativeFunction index call s).1 with
    | ok f =>
      rw [hanswer] at hwhy
      cases hwhy
    | error e =>
      rw [hanswer] at hwhy
      cases e with
      | error e => cases hwhy
      | misuse why' => exact hanswers call why' ((h _ _).symm.trans (compile_of_misuse hanswer))
  log _ _ := by
    rintro ⟨why, hwhy⟩
    cases hwhy
  nested {α x} hx := by
    intro s
    have hs := hx s
    rw [nested_run]
    generalize x.run s = r at hs
    obtain ⟨outcome, s₁⟩ := r
    cases outcome with
    | ok a => exact hs
    | error e =>
      cases e with
      | failure f => exact hs
      | misuse why => exact (hs ⟨why, rfl⟩).elim

theorem serve_unbroken (h : m.AnswersBy answers)
    (hanswers : ∀ call why, answers call ≠ .error (.misuse why)) (request : Request)
    (s : MachineState σ) : ¬Broken ((m.serve request).run s).1 := by
  have hclosed := closed_unbroken h hanswers
  exact hclosed.serve (fun p s => hclosed.execute _ p s) request s

/-! ### Any number of requests -/

/-- What a machine looks like between two requests: like a new one, but for what it has built. -/
structure Settled (m : Machine σ) (answers : NativeCall → Except Refusal NativeFunction)
    (s : MachineState σ) : Prop where
  /-- What has been built are answers of the backend. -/
  cached : Cached (m.Answered answers) s
  /-- No call is open. -/
  openCalls : s.openCalls = 0

theorem settled_initial (m : Machine σ) (answers : NativeCall → Except Refusal NativeFunction)
    (backend : σ) : m.Settled answers (.initial backend) where
  cached index f hf := by simp [MachineState.initial] at hf
  openCalls := rfl

theorem Settled.alike (hs : m.Settled answers s) (hs' : m.Settled answers s') :
    m.Alike answers s s' :=
  ⟨hs.cached, hs'.cached, hs.openCalls.trans hs'.openCalls.symm⟩

/-- A request that is not broken off leaves the machine settled. -/
theorem Settled.serve (h : m.AnswersBy answers) (hs : m.Settled answers s) (request : Request)
    (hunbroken : ¬Broken ((m.serve request).run s).1) :
    m.Settled answers ((m.serve request).run s).2 where
  cached := (serve_respects h request s s (hs.alike hs)).2.left
  openCalls := by
    rcases serve_keepsCalls m request s with hbroken | hcalls
    · exact (hunbroken hbroken).elim
    · exact hcalls.trans hs.openCalls

theorem Settled.serveAll (h : m.AnswersBy answers) (hs : m.Settled answers s)
    {requests : List Request} (hunbroken : ∀ reply ∈ (m.serveAll requests s).1, ¬Broken reply) :
    m.Settled answers (m.serveAll requests s).2 := by
  induction requests generalizing s with
  | nil => exact hs
  | cons request rest ih =>
    have hreply := hunbroken _ (.head _)
    exact ih (hs.serve h request hreply) fun reply hmem => hunbroken reply (.tail _ hmem)

theorem serveAll_unbroken (h : m.AnswersBy answers)
    (hanswers : ∀ call why, answers call ≠ .error (.misuse why)) (requests : List Request)
    (s : MachineState σ) : ∀ reply ∈ (m.serveAll requests s).1, ¬Broken reply := by
  induction requests generalizing s with
  | nil =>
    intro reply hmem
    cases hmem
  | cons request rest ih =>
    intro reply hmem
    rcases List.mem_cons.1 hmem with rfl | hmem
    · exact serve_unbroken h hanswers request s
    · exact ih _ reply hmem

/-- **No request can tell what has been asked before it**.  After any requests that have not been
broken off no call is open, and the next one is answered as by a new machine; the machine with its
stack, which counts the calls one by one, then ends with none of them open.  With a backend that
answers with functions and errors no request is ever broken off. -/
theorem serveAll_fresh (h : m.AnswersBy answers) (backend backend' : σ) (requests : List Request)
    {replies : List (Except Halt Reply)}
    (hs : m.serveAll requests (.initial backend) = (replies, s)) :
    ((∀ reply ∈ replies, ¬Broken reply) →
      s.openCalls = 0
        ∧ ∀ request reply s', (m.serve request).run s = (reply, s') →
          reply = ((m.serve request).run (.initial backend')).1
            ∧ (¬Broken reply → s'.openCalls = 0)
            ∧ ∃ outcome, m.Leads (request.begin m s) (.halted outcome s')
              ∧ reply = outcome.map request.reply)
      ∧ ((∀ call why, answers call ≠ .error (.misuse why)) → ∀ reply ∈ replies, ¬Broken reply) := by
  obtain ⟨rfl, rfl⟩ := Prod.mk.inj hs.symm
  refine ⟨fun hunbroken => ?_, fun hanswers => serveAll_unbroken h hanswers requests _⟩
  have hsettled := (settled_initial m answers backend).serveAll h hunbroken
  refine ⟨hsettled.openCalls, fun request reply s' hserve => ?_⟩
  have hfresh := serve_respects h request _ _ (hsettled.alike (settled_initial m answers backend'))
  have hafter := hsettled.serve h request
  have hend := serve_halts m request (m.serveAll requests (.initial backend)).2
  rw [hserve] at hfresh hafter hend
  exact ⟨hfresh.1, fun hreply => (hafter hreply).openCalls, hend⟩

/-- A machine that fails in several ways: the start divides by zero behind native code, the
procedure 1 calls itself, 2 calls native code that is rejected from a nested call, and 4 gives a
value. -/
def failsVariously : Machine Nat where
  program :=
    { Program.empty with
      constants := #[5, 0]
      natives := #[⟨"ok", [], some ⟨"x", 0, 1⟩⟩, ⟨"bad", [], none⟩]
      procedures :=
        #[{ Procedure.empty "start" with
            code := #[⟨.callNative, 1, .native 0, .none⟩, ⟨.loadConstant, 2, .constant 1, .none⟩,
              ⟨.binary .div .i64, 3, .register 1, .register 2⟩]
            nextRegister := 4 },
          { Procedure.empty "again" with
            code := #[⟨.call, 1, .procedure 1, .none⟩]
            nextRegister := 2 },
          { Procedure.empty "outer" with
            code := #[⟨.call, 1, .procedure 3, .none⟩]
            nextRegister := 2 },
          { Procedure.empty "inner" with code := #[⟨.callNative, 0, .native 1, .none⟩] },
          { Procedure.empty "value" with
            code := #[⟨.callNative, 1, .native 0, .none⟩], nextRegister := 2 }] }
  -- The backend counts how often it has been asked.
  backend := ⟨fun asked call =>
    (if call.source = "ok" then .ok ⟨0, some fun _ => 7, Nat.zero_le _⟩
      else .error (.error (.rejected "bad")), asked + 1)⟩
  maxCallDepth := 3

/-- After a division by zero, a recursion without end, a rejection in a nested call, a procedure
that does not exist and two successes, the machine still answers like a new one. -/
theorem failsVariously_fresh :
    ∃ s, (failsVariously.serveAll
        [.run, .evaluate 1, .evaluate 2, .evaluate 9, .evaluate 4, .run, .evaluate 4]
        (.initial 0)).2 = s
      ∧ s.openCalls = 0 ∧ s.backend = 2
      ∧ ∀ request, ((failsVariously.serve request).run s).1
        = ((failsVariously.serve request).run (.initial 0)).1 := by
  have h : failsVariously.AnswersBy fun call =>
      if call.source = "ok" then .ok ⟨0, some fun _ => 7, Nat.zero_le _⟩
        else .error (.error (.rejected "bad")) := fun _ _ => rfl
  obtain ⟨hfresh, hunbroken⟩ := serveAll_fresh h 0 0
    [.run, .evaluate 1, .evaluate 2, .evaluate 9, .evaluate 4, .run, .evaluate 4] rfl
  obtain ⟨hcalls, hnext⟩ := hfresh (hunbroken fun call why => by split <;> simp)
  exact ⟨_, rfl, hcalls, rfl, fun request => (hnext request _ _ rfl).1⟩

end MiddleEnd.Machine
