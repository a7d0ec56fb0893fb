import MiddleEnd.Proofs.Machine.Stack
import Mathlib.Data.Nat.Find
import Mathlib.Data.Nat.SuccPred

/-!
# The limit on nested calls

How high the stack of a run gets does not depend on the limit, as long as the limit is not in the
way.  So a limit either is never noticed or stops the run, and the height of the highest stack is
the least limit that does not.

## Main definitions

* `Machine.withLimit` — the machine with another limit.
* `Machine.Config.height` — how many calls are nested.
* `Machine.Deepest` — the longest chain of nested calls that is entered.
* `Machine.Config.Counted` — the stack and the count of open calls agree, and the limit is kept.

## Main results

* `Machine.iterate_counted` — no step breaks the limit.
* `Machine.iterate_withLimit` — **two limits give the same steps**, as long as neither is in the
  way.
* `Machine.run_depth` — every run ends, and its deepest chain of calls is the exact threshold of the
  limits that it can be run with.
-/

namespace MiddleEnd

/-- The failure of a call that may not be nested. -/
def Failure.ExceedsDepth (f : Failure) : Prop := ∃ limit, f.fault = .callDepth limit

namespace Machine

variable {σ : Type}

/-- The machine with another limit on nested calls. -/
def withLimit (m : Machine σ) (limit : Nat) : Machine σ := { m with maxCallDepth := limit }

namespace Config

/-- How many calls are nested. -/
def height : Config σ → Nat
  | running _ callers _ => callers.length
  | failing _ callers _ => callers.length
  | halted _ _ => 0

/-- A call has been refused. -/
def ExceedsDepth : Config σ → Prop
  | failing f _ _ => f.ExceedsDepth
  | _ => False

/-- The callers are the calls that are open beyond the `base` calls that have been broken off
before, and no more of them than the limit leaves. -/
def Counted (base limit : Nat) : Config σ → Prop
  | running _ callers s => s.openCalls = base + callers.length ∧ callers.length ≤ limit - base
  | failing _ callers s => s.openCalls = base + callers.length ∧ callers.length ≤ limit - base
  | halted _ _ => True

end Config

/-- The longest chain of nested calls that is entered from a configuration on. -/
def Deepest (m : Machine σ) (c : Config σ) (n : Nat) : Prop :=
  IsGreatest (Set.range fun steps => (m.next^[steps] c).height) n

variable {m : Machine σ} {c : Config σ} {top : StackFrame} {out : Register} {callers : List Caller}
  {s s' : MachineState σ} {i : Instruction} {callee : Procedure} {base limit : Nat}

/-! ### Counting the open calls -/

namespace Config

theorem Counted.height_le (h : c.Counted base limit) : c.height ≤ limit - base := by
  cases c with
  | running top callers s => exact h.2
  | failing f callers s => exact h.2
  | halted outcome s => exact Nat.zero_le _

theorem counted_resume {w : Word} (hcalls : s.openCalls = base + callers.length)
    (hlimit : callers.length ≤ limit - base) : (resume top out w callers s).Counted base limit := by
  unfold resume
  split
  · exact ⟨hcalls, hlimit⟩
  · exact ⟨hcalls, hlimit⟩

theorem counted_leave {w : Word} {registers : RegisterFile}
    (hcalls : s.openCalls = base + callers.length) (hlimit : callers.length ≤ limit - base) :
    (leave w registers callers s).Counted base limit := by
  cases callers with
  | nil => trivial
  | cons caller callers =>
    rw [List.length_cons] at hcalls hlimit
    have hclosed : s.closed.openCalls = base + callers.length := by
      show s.openCalls - 1 = _
      omega
    exact counted_resume hclosed (by omega)

theorem height_resume {w : Word} : (resume top out w callers s).height = callers.length := by
  unfold resume
  split <;> rfl

theorem height_leave_le {w : Word} {registers : RegisterFile} :
    (leave w registers callers s).height ≤ callers.length := by
  cases callers with
  | nil => exact Nat.zero_le _
  | cons caller callers =>
    rw [leave, height_resume, List.length_cons]
    omega

theorem counted_after {r : Except Halt Effect × MachineState σ}
    (hkept : (∃ why, r.1 = .error (.misuse why)) ∨ r.2.openCalls = base + callers.length)
    (hlimit : callers.length ≤ limit - base) : (after top callers i r).Counted base limit := by
  obtain ⟨outcome, s⟩ := r
  cases outcome with
  | ok e =>
    have hcalls : s.openCalls = base + callers.length := by simpa using hkept
    cases e with
    | skip => exact ⟨hcalls, hlimit⟩
    | write w => exact counted_resume hcalls hlimit
    | leave w => exact counted_leave hcalls hlimit
  | error h =>
    cases h with
    | failure f => exact ⟨by simpa using hkept, hlimit⟩
    | misuse why => trivial

theorem height_after_le {r : Except Halt Effect × MachineState σ} :
    (after top callers i r).height ≤ callers.length := by
  obtain ⟨outcome, s⟩ := r
  cases outcome with
  | ok e =>
    cases e with
    | skip => exact Nat.le_refl _
    | write w => exact Nat.le_of_eq height_resume
    | leave w => exact height_leave_le
  | error h =>
    cases h with
    | failure f => exact Nat.le_refl _
    | misuse why => exact Nat.zero_le _

end Config

/-! ### One step -/

/-- Only a call notices the limit and only a call is entered. -/
theorem next_cases (m : Machine σ) (c : Config σ) :
    (∃ top callers s out callee, c = .running top callers s ∧ m.Calls top out callee)
      ∨ (∀ limit, (m.withLimit limit).next c = m.next c) ∧ (m.next c).height ≤ c.height := by
  cases c with
  | halted outcome s => exact .inr ⟨fun _ => rfl, Nat.le_refl _⟩
  | failing f callers s =>
    -- A failure takes the callers off one after the other.
    refine .inr ⟨fun limit => by cases callers <;> rfl, ?_⟩
    cases callers with
    | nil => exact Nat.le_refl _
    | cons caller callers => exact Nat.le_succ _
  | running top callers s =>
    rcases m.next_running_cases top callers s with ⟨hi, hnext⟩ | ⟨i, hi, hcallee, hnext⟩
      | ⟨out, callee, hcalls, -⟩ | ⟨out, callee, hcalls, -⟩
    · -- The procedure has come to its end.
      refine .inr ⟨fun limit => ?_, ?_⟩
      · rw [hnext, next_end hi]
      · rw [hnext]
        exact Config.height_leave_le
    · -- Any instruction but a call does not know how deep it runs.
      refine .inr ⟨fun limit => ?_, ?_⟩
      · rw [hnext, next_after hi (m := m.withLimit limit) hcallee]
        exact congrArg (fun r => Config.after top callers i (r.run s))
          (effect_of_callee?_none' hcallee limit none top.site top.registers)
      · rw [hnext]
        exact Config.height_after_le
    · exact .inl ⟨top, callers, s, out, callee, rfl, hcalls⟩
    · exact .inl ⟨top, callers, s, out, callee, rfl, hcalls⟩

/-- An instruction that is no call leaves the count of open calls as it was, unless it is broken
off. -/
theorem effect_none_keepsCalls (m : Machine σ) (site : Site) (frame : RegisterFile)
    (i : Instruction) : KeepsCalls _ (m.effect none site frame i) :=
  (closed_keepsCalls m).effect (fun f hf => by cases hf) site frame i

/-- No step breaks the limit. -/
theorem next_counted (hc : c.Counted base m.maxCallDepth) :
    (m.next c).Counted base m.maxCallDepth := by
  cases c with
  | halted outcome s => trivial
  | failing f callers s =>
    cases callers with
    | nil => trivial
    | cons caller callers =>
      obtain ⟨hcalls, hlimit⟩ := hc
      rw [List.length_cons] at hcalls hlimit
      -- With each caller that is taken off, one call is closed.
      refine ⟨?_, by omega⟩
      show s.openCalls - 1 = _
      omega
  | running top callers s =>
    obtain ⟨hcalls, hlimit⟩ := hc
    rcases m.next_running_cases top callers s with ⟨-, hnext⟩ | ⟨i, -, -, hnext⟩
      | ⟨out, callee, -, -, hnext⟩ | ⟨out, callee, -, hopen, hnext⟩
    · rw [hnext]
      exact Config.counted_leave hcalls hlimit
    · have hkept := effect_none_keepsCalls m top.site top.registers i s
      rw [hnext]
      rw [hcalls] at hkept
      exact Config.counted_after hkept hlimit
    · rw [hnext]
      exact ⟨hcalls, hlimit⟩
    · rw [hnext]
      -- A procedure is entered only below the limit.
      refine ⟨?_, ?_⟩
      · show s.openCalls + 1 = base + (callers.length + 1)
        omega
      · show callers.length + 1 ≤ _
        omega

theorem iterate_counted (hc : c.Counted base m.maxCallDepth) (steps : Nat) :
    (m.next^[steps] c).Counted base m.maxCallDepth := by
  induction steps with
  | zero => exact hc
  | succ steps ih =>
    rw [Function.iterate_succ_apply']
    exact next_counted ih

/-- A step that is not refused does not notice a limit above what it leads to. -/
theorem next_withLimit (hc : c.Counted base m.maxCallDepth) (hfree : ¬(m.next c).ExceedsDepth)
    (hheight : (m.next c).height ≤ limit - base) : (m.withLimit limit).next c = m.next c := by
  rcases next_cases m c with ⟨top, callers, s, out, callee, rfl, hcall⟩ | ⟨hsame, -⟩
  · by_cases hopen : m.maxCallDepth ≤ s.openCalls
    · rw [next_refuse hcall hopen] at hfree
      exact (hfree ⟨_, rfl⟩).elim
    · obtain ⟨hcalls, -⟩ := hc
      rw [next_enter hcall (by omega)] at hheight ⊢
      have hlimit : s.openCalls < (m.withLimit limit).maxCallDepth := by
        have hle : callers.length + 1 ≤ limit - base := hheight
        show s.openCalls < limit
        omega
      exact next_enter (m := m.withLimit limit) hcall hlimit
  · exact hsame limit

/-- The step that a limit is too low for is refused. -/
theorem next_refused (hc : c.Counted base m.maxCallDepth) (hlow : c.height ≤ limit - base)
    (hhigh : limit - base < (m.next c).height) :
    ∃ f callers s, (m.withLimit limit).next c = .failing f callers s
      ∧ f.fault = .callDepth limit := by
  rcases next_cases m c with ⟨top, callers, s, out, callee, rfl, hcall⟩ | ⟨-, hheight⟩
  · obtain ⟨hcalls, -⟩ := hc
    have hle : callers.length ≤ limit - base := hlow
    have hopen : ¬m.maxCallDepth ≤ s.openCalls := by
      intro hopen
      rw [next_refuse hcall hopen] at hhigh
      exact Nat.not_lt.2 hlow hhigh
    rw [next_enter hcall (by omega)] at hhigh
    have hlimit : (m.withLimit limit).maxCallDepth ≤ s.openCalls := by
      have hlt : limit - base < callers.length + 1 := hhigh
      show limit ≤ s.openCalls
      omega
    exact ⟨_, _, _, next_refuse (m := m.withLimit limit) hcall hlimit, rfl⟩
  · omega

/-! ### Whole runs -/

/-- **Two limits give the same steps**, as long as neither is in the way. -/
theorem iterate_withLimit (hc : c.Counted base m.maxCallDepth)
    (hfree : ∀ steps, ¬(m.next^[steps] c).ExceedsDepth) {steps : Nat}
    (hheight : ∀ n ≤ steps, (m.next^[n] c).height ≤ limit - base) :
    (m.withLimit limit).next^[steps] c = m.next^[steps] c := by
  induction steps with
  | zero => rfl
  | succ steps ih =>
    have hstep := hheight (steps + 1) (Nat.le_refl _)
    have hallowed := hfree (steps + 1)
    rw [Function.iterate_succ_apply'] at hstep hallowed
    rw [Function.iterate_succ_apply', Function.iterate_succ_apply',
      ih fun n hn => hheight n (Nat.le_succ_of_le hn)]
    exact next_withLimit (iterate_counted hc steps) hallowed hstep

theorem begin_counted (m : Machine σ) (s : MachineState σ) :
    (m.begin s).Counted s.openCalls m.maxCallDepth := by
  unfold begin
  split
  · trivial
  · exact ⟨rfl, Nat.zero_le _⟩

theorem begin_height (m : Machine σ) (s : MachineState σ) : (m.begin s).height = 0 := by
  unfold begin
  split <;> rfl

/-- A refused call is what the run ends with. -/
theorem run_of_failing {f : Failure} {steps : Nat}
    (h : m.next^[steps] (m.begin s) = .failing f callers s') :
    ∃ s₁, m.run.run s = (.error (.failure f), s₁) := by
  obtain ⟨s₁, hs₁⟩ := leads_of_failing m f callers s'
  exact ⟨s₁, run_eq_of_leads (Leads.trans ⟨steps, h⟩ hs₁)⟩

theorem not_exceedsDepth
    (h : ∀ f, (m.run.run s).1 = .error (.failure f) → ¬f.ExceedsDepth) (steps : Nat) :
    ¬(m.next^[steps] (m.begin s)).ExceedsDepth := by
  intro hexceeds
  generalize hend : m.next^[steps] (m.begin s) = c at hexceeds
  cases c with
  | running | halted => exact hexceeds
  | failing f callers s' =>
    obtain ⟨s₁, hs₁⟩ := run_of_failing hend
    exact h f (by rw [hs₁]) hexceeds

theorem exists_deepest (hc : c.Counted base m.maxCallDepth) :
    ∃ n ≤ m.maxCallDepth - base, m.Deepest c n := by
  have hbound : m.maxCallDepth - base
      ∈ upperBounds (Set.range fun steps => (m.next^[steps] c).height) := by
    rintro _ ⟨steps, rfl⟩
    exact (iterate_counted hc steps).height_le
  obtain ⟨n, hn⟩ := BddAbove.exists_isGreatest_of_nonempty ⟨_, hbound⟩ (Set.range_nonempty _)
  exact ⟨n, hbound hn.1, hn⟩

/-- A limit that is not lower than the deepest chain of calls is not noticed. -/
theorem run_withLimit {n : Nat} (hn : m.Deepest (m.begin s) n)
    (hfree : ∀ f, (m.run.run s).1 = .error (.failure f) → ¬f.ExceedsDepth)
    (hlimit : n ≤ limit - s.openCalls) : (m.withLimit limit).run.run s = m.run.run s := by
  have hheight (steps : Nat) : (m.next^[steps] (m.begin s)).height ≤ limit - s.openCalls :=
    (hn.2 ⟨steps, rfl⟩).trans hlimit
  obtain ⟨steps, hsteps⟩ := run_halts m s
  refine run_eq_of_leads ⟨steps, ?_⟩
  exact (iterate_withLimit (begin_counted m s) (not_exceedsDepth hfree) fun k _ => hheight k).trans
    hsteps

/-- A limit that is lower stops the run. -/
theorem run_withLimit_low {n : Nat} (hn : m.Deepest (m.begin s) n)
    (hfree : ∀ f, (m.run.run s).1 = .error (.failure f) → ¬f.ExceedsDepth)
    (hlimit : limit - s.openCalls < n) :
    ∃ f s', (m.withLimit limit).run.run s = (.error (.failure f), s')
      ∧ f.fault = .callDepth limit := by
  have hexists : ∃ steps, limit - s.openCalls < (m.next^[steps] (m.begin s)).height := by
    obtain ⟨⟨steps, rfl⟩, -⟩ := hn
    exact ⟨steps, hlimit⟩
  -- The first configuration that is too high is one step behind a call that the lower limit
  -- refuses.
  have hfirst := Nat.find_spec hexists
  have hlow {k : Nat} (hk : k < Nat.find hexists) := Nat.not_lt.1 (Nat.find_min hexists hk)
  generalize Nat.find hexists = steps at hfirst hlow
  cases steps with
  | zero =>
    rw [Function.iterate_zero_apply, begin_height] at hfirst
    omega
  | succ steps =>
    have hsame : (m.withLimit limit).next^[steps] (m.begin s) = m.next^[steps] (m.begin s) :=
      iterate_withLimit (begin_counted m s) (not_exceedsDepth hfree) fun k hk => hlow (by omega)
    rw [Function.iterate_succ_apply'] at hfirst
    obtain ⟨f, callers, s₁, hfailing, hf⟩ := next_refused
      (iterate_counted (begin_counted m s) steps) (hlow (Nat.lt_succ_self _)) hfirst
    have hend : (m.withLimit limit).next^[steps + 1] (m.begin s) = .failing f callers s₁ := by
      rw [Function.iterate_succ_apply', hsame, hfailing]
    obtain ⟨s₂, hrun⟩ := run_of_failing (m := m.withLimit limit) hend
    exact ⟨f, s₂, hrun, hf⟩

/-- Every run ends.  Unless it ends at the limit, **the deepest chain of calls that it enters is the
exact threshold**: with a limit that leaves room for it, the run is the same; with a lower one, it
ends at the limit. -/
theorem run_depth (m : Machine σ) (s : MachineState σ) :
    m.Leads (m.begin s) (.halted (m.run.run s).1 (m.run.run s).2)
      ∧ ∃ n ≤ m.maxCallDepth - s.openCalls, m.Deepest (m.begin s) n
        ∧ ((∀ f, (m.run.run s).1 = .error (.failure f) → ¬f.ExceedsDepth) → ∀ limit,
          (n ≤ limit - s.openCalls → (m.withLimit limit).run.run s = m.run.run s)
          ∧ (limit - s.openCalls < n → ∃ f s',
            (m.withLimit limit).run.run s = (.error (.failure f), s')
              ∧ f.fault = .callDepth limit)) := by
  refine ⟨run_halts m s, ?_⟩
  obtain ⟨n, hle, hn⟩ := exists_deepest (begin_counted m s)
  exact ⟨n, hle, hn, fun hfree limit => ⟨run_withLimit hn hfree, run_withLimit_low hn hfree⟩⟩

/-- A start that calls a procedure that calls another one. -/
def nestsTwice : Machine Unit where
  program :=
    { Program.empty with
      constants := #[5]
      procedures :=
        #[{ Procedure.empty "start" with
            code := #[⟨.call, 1, .procedure 1, .none⟩]
            nextRegister := 2 },
          { Procedure.empty "outer" with
            code := #[⟨.call, 1, .procedure 2, .none⟩]
            nextRegister := 2 },
          { Procedure.empty "inner" with
            code := #[⟨.loadConstant, 1, .constant 0, .none⟩]
            nextRegister := 2 }] }
  backend := .unavailable Unit
  maxCallDepth := 10

/-- Two calls are nested; a limit of one stops the run. -/
theorem nestsTwice_depth :
    nestsTwice.Deepest (nestsTwice.begin (.initial ())) 2
      ∧ (∀ limit, 2 ≤ limit →
        (nestsTwice.withLimit limit).run.run (.initial ()) = nestsTwice.run.run (.initial ()))
      ∧ ∃ f s', (nestsTwice.withLimit 1).run.run (.initial ()) = (.error (.failure f), s')
        ∧ f.fault = .callDepth 1 := by
  obtain ⟨-, n, -, hdeepest, hthreshold⟩ := run_depth nestsTwice (.initial ())
  have hfree (f : Failure) (hf : (nestsTwice.run.run (.initial ())).1 = .error (.failure f)) :
      ¬f.ExceedsDepth := by
    have hok : (nestsTwice.run.run (.initial ())).1.toOption.isSome = true := rfl
    rw [hf] at hok
    cases hok
  obtain rfl : n = 2 := by
    refine Nat.le_antisymm (Nat.not_lt.1 fun hlt => ?_) (hdeepest.2 ⟨2, rfl⟩)
    obtain ⟨f, s', hf, -⟩ := (hthreshold hfree 2).2 hlt
    have hok : ((nestsTwice.withLimit 2).run.run (.initial ())).1.toOption.isSome = true := rfl
    rw [hf] at hok
    cases hok
  exact ⟨hdeepest, fun limit hlimit => (hthreshold hfree limit).1 hlimit,
    (hthreshold hfree 1).2 (by decide)⟩

end Machine

end MiddleEnd
