import MiddleEnd.Proofs.Diagnostic.Queue

/-!
# Compiling with different settings for diagnostics

The settings of the queue decide how much of what is wrong is reported.  They do not decide whether
a tree is compiled, nor what program comes out.

## Main definitions

* `SameOutcome` — how what comes out with some settings goes with what comes out with everything
  reported.

## Main results

* `compile_sameOutcome` — compiling with any settings goes with compiling without a limit.
* `compile_settings` — **settings change nothing but what is left out of a report**.
-/

namespace MiddleEnd

/-! ### No pass reports what a queue adds -/

theorem plain_resolution (t : Tree) (r : Resolution) : ∀ d ∈ r.diagnostics t, ¬d.IsSummary := by
  intro d hd
  obtain ⟨m, -, rfl⟩ := List.mem_map.1 hd
  split <;> exact Cause.noConfusion

theorem plain_typing (t : Tree) (ty : Typing) : ∀ d ∈ ty.diagnostics t, ¬d.IsSummary := by
  intro d hd
  obtain ⟨p, -, rfl⟩ := List.mem_map.1 hd
  cases p <;> exact Cause.noConfusion

theorem plain_generated (t : Tree) (g : Generated) : ∀ d ∈ g.diagnostics t, ¬d.IsSummary := by
  intro d hd
  obtain ⟨p, -, rfl⟩ := List.mem_map.1 hd
  cases p <;> exact Cause.noConfusion

theorem Limit.plain_diagnostic (l : Limit) : ∀ d ∈ [l.diagnostic], ¬d.IsSummary := by
  intro d hd
  obtain rfl := List.mem_singleton.1 hd
  cases l <;> exact Cause.noConfusion

/-! ### Compiling -/

/-- What comes out with some settings, and what comes out when everything is reported. -/
inductive SameOutcome : Except CompileError Compiled → Except CompileError Compiled → Prop
  /-- Both compile to the same program. -/
  | compiled {c c' : Compiled} (h : c.program = c'.program) : SameOutcome (.ok c) (.ok c')
  /-- Both report, and the one selects from the other. -/
  | reported {ds ds' : List Diagnostic} (h : Queue.Selects ds ds') :
      SameOutcome (.error (.reported ds)) (.error (.reported ds'))
  /-- Both stop at the same misuse. -/
  | misuse (m : Misuse) : SameOutcome (.error (.misuse m)) (.error (.misuse m))

namespace SameOutcome

variable {x y : Except CompileError Compiled}

theorem program_iff (h : SameOutcome x y) (program : Program) :
    (∃ ds, x = .ok ⟨program, ds⟩) ↔ ∃ ds, y = .ok ⟨program, ds⟩ := by
  cases h with
  | @compiled c c' h =>
    constructor
    · rintro ⟨ds, hds⟩
      cases hds
      obtain rfl : program = c'.program := h
      exact ⟨c'.diagnostics, rfl⟩
    · rintro ⟨ds, hds⟩
      cases hds
      obtain rfl : c.program = program := h
      exact ⟨c.diagnostics, rfl⟩
  | reported | misuse => simp

theorem misuse_iff (h : SameOutcome x y) (m : Misuse) :
    x = .error (.misuse m) ↔ y = .error (.misuse m) := by
  cases h with
  | compiled | reported => simp
  | misuse m' => exact Iff.rfl

theorem reported_of (h : SameOutcome x y) {ds : List Diagnostic} (hds : x = .error (.reported ds)) :
    ∃ all, y = .error (.reported all) ∧ Queue.Selects ds all := by
  cases h with
  | compiled | misuse => cases hds
  | @reported ds₁ all h =>
    cases hds
    exact ⟨all, rfl, h⟩

end SameOutcome

theorem mapError_of_error {ε ε' α : Type} (f : ε → ε') (e : ε) :
    (.error e : Except ε α).mapError f = .error (f e) := rfl

theorem mapError_of_ok {ε ε' α : Type} (f : ε → ε') (a : α) :
    (.ok a : Except ε α).mapError f = .ok a := rfl

variable (t : Tree) (links : Links) (root : NodeId) (source : String) (config : CompilerConfig)

/-- Compiling with any settings goes with compiling without a limit. -/
theorem compile_sameOutcome (queue : QueueConfig) :
    SameOutcome (compile t links root source { config with queue })
      (compile t links root source { config with queue := .unlimited }) := by
  -- Names and types are found in the same way, whatever the queue is.
  unfold compile
  cases hr : Resolution.ofSection t (Section.ofTree t links root none).2
      (Section.ofTree t links root none).1 none with
  | error m =>
    simp only [hr, mapError_of_error, bind, Except.bind]
    exact .misuse m
  | ok r =>
  cases hty : Typing.ofSection t (Section.ofTree t links root none).2
      (Section.ofTree t links root none).1 r with
  | error m =>
    simp only [hr, hty, mapError_of_ok, mapError_of_error, bind, Except.bind]
    exact .misuse m
  | ok ty =>
  simp only [hr, hty, mapError_of_ok, bind, Except.bind]
  -- The queue with a limit holds a part of what the other one holds.
  have hthins := ((Queue.thins_empty queue).addAll (LineTable.ofText source)
    (plain_resolution t r)).addAll (LineTable.ofText source) (plain_typing t ty)
  generalize ((Queue.empty queue).addAll _ _).addAll _ _ = q at hthins ⊢
  generalize ((Queue.empty .unlimited).addAll _ _).addAll _ _ = all at hthins ⊢
  -- Both go on, or both report.
  rcases hthins.checkpoint (t.span root) with ⟨hq, hall⟩ | ⟨ds, ds', hq, hall, hselects⟩
  · simp only [hq, hall]
    cases Generated.ofTree t (Section.ofTree t links root none).2 root r ty
      config.registerLimit with
    | error e =>
      cases e with
      | misuse m => exact .misuse m
      -- A limit of the program is an error, so neither goes on.
      | limit l =>
        rcases (hthins.addAll (LineTable.ofText source) l.plain_diagnostic).checkpoint (t.span root)
          with ⟨hq', hall'⟩ | ⟨ds, ds', hq', hall', hselects⟩
        · simp only [hq', hall']
          exact .misuse .unreportedLimit
        · simp only [hq', hall']
          exact .reported hselects
    | ok g =>
      rcases (hthins.addAll (LineTable.ofText source) (plain_generated t g)).checkpoint
        (t.span root) with ⟨hq', hall'⟩ | ⟨ds, ds', hq', hall', hselects⟩
      · simp only [hq', hall']
        exact .compiled rfl
      · simp only [hq', hall']
        exact .reported hselects
  · simp only [hq, hall]
    exact .reported hselects

/-- **Settings change nothing but what is left out of a report.**  A program comes out with some
settings exactly if it does with others.  Otherwise what is reported is, but for its summary, part
of what is reported without a limit, in the same order and with an error in it. -/
theorem compile_settings (queue queue' : QueueConfig) :
    (∀ program,
        (∃ ds, compile t links root source { config with queue } = .ok ⟨program, ds⟩)
          ↔ ∃ ds, compile t links root source { config with queue := queue' } = .ok ⟨program, ds⟩)
      ∧ (∀ ds, compile t links root source { config with queue } = .error (.reported ds) →
        ∃ all, compile t links root source { config with queue := .unlimited }
          = .error (.reported all)
          ∧ Queue.dropSummary ds ≠ [] ∧ (Queue.dropSummary ds).Sublist all
          ∧ ∃ d ∈ Queue.dropSummary ds, d.isError = true)
      ∧ ∀ m, compile t links root source { config with queue } = .error (.misuse m)
        ↔ compile t links root source { config with queue := queue' } = .error (.misuse m) := by
  have h := compile_sameOutcome t links root source config queue
  have h' := compile_sameOutcome t links root source config queue'
  refine ⟨fun program => ?_, fun ds hds => ?_, fun m => ?_⟩
  · exact (h.program_iff program).trans (h'.program_iff program).symm
  · obtain ⟨all, hall, hsublist, d, hd, herror⟩ := h.reported_of hds
    exact ⟨all, hall, List.ne_nil_of_mem hd, hsublist, d, hd, herror⟩
  · exact (h.misuse_iff m).trans (h'.misuse_iff m).symm

/-- `a : x = 1` on one line, `b := nope + none` on the next -/
def Tree.threeErrors : Tree where
  nodes :=
    #[⟨.typeName "x", ⟨4, 5⟩⟩, ⟨.literal (.number "1"), ⟨8, 9⟩⟩,
      ⟨.var "a" (some 0) (some 1), ⟨0, 9⟩⟩,
      ⟨.ident "nope", ⟨15, 19⟩⟩, ⟨.binaryOp .add, ⟨20, 21⟩⟩, ⟨.ident "none", ⟨22, 26⟩⟩,
      ⟨.binary 3 4 5, ⟨15, 26⟩⟩, ⟨.var "b" none (some 6), ⟨10, 26⟩⟩, ⟨.module [2, 7], ⟨0, 26⟩⟩]
  children_lt := by decide

/-- With a limit of one error the name that arrives first is reported, although the type stands
before it. -/
theorem Tree.threeErrors_selects :
    ∃ ds all, compile .threeErrors (.unset 9) 8 "a : x = 1\nb := nope + none" { queue := ⟨1, true⟩ }
        = .error (.reported ds)
      ∧ compile .threeErrors (.unset 9) 8 "a : x = 1\nb := nope + none" .unlimited
        = .error (.reported all)
      ∧ ds.map (·.cause) = [.unknownName, .tooManyErrors]
      ∧ (Queue.dropSummary ds).map (·.cause) = [.unknownName]
      ∧ (Queue.dropSummary ds).Sublist all := by
  have hrun : (match compile .threeErrors (.unset 9) 8 "a : x = 1\nb := nope + none"
        { queue := ⟨1, true⟩ } with
      | .error (.reported ds) => ds.map (·.cause) == [.unknownName, .tooManyErrors]
        && (Queue.dropSummary ds).map (·.cause) == [.unknownName]
      | .error (.misuse _) | .ok _ => false) = true := by decide +kernel
  split at hrun
  · next ds hds =>
    obtain ⟨all, hall, -, hsublist, -⟩ := (compile_settings .threeErrors (.unset 9) 8
      "a : x = 1\nb := nope + none" {} ⟨1, true⟩ ⟨1, true⟩).2.1 ds hds
    obtain ⟨hcauses, hselected⟩ := Bool.and_eq_true_iff.1 hrun
    exact ⟨ds, all, hds, hall, beq_iff_eq.1 hcauses, beq_iff_eq.1 hselected, hsublist⟩
  · cases hrun
  · cases hrun

end MiddleEnd
