import MiddleEnd.Proofs.Compiler

/-!
# Queues with different settings

Two queues to which the same is offered hold different diagnostics if one of them leaves some out.
What is left out does not move the rest, neither in order of arrival nor in source order, since
sorting is stable; and an error is only left out for one that is held.

## Main definitions

* `Queue.Thins` — a queue holds some of what a queue holds that takes everything.
* `Queue.dropSummary` — a report without its last line on errors that were left out.
* `Queue.Selects` — a report that gives part of another one, with an error in it.

## Main results

* `mergeSort_sublist` — **sorting keeps what is left out apart**: a sublist is sorted to a sublist.
* `Queue.Thins.add`, `Queue.Thins.addAll` — what is offered to both queues keeps one a part of the
  other.
* `Queue.Thins.checkpoint` — both queues let compiling go on, or both stop it.
-/

namespace MiddleEnd

/-! ### Stable sorting -/

section Sorting

variable {α : Type} {le : α → α → Bool}
  (trans : ∀ a b c, le a b = true → le b c = true → le a c = true)
  (total : ∀ a b, (le a b || le b a) = true)

include trans total

/-- A value is put between what stands before it and what does not. -/
theorem mergeSort_cons_filter (a : α) (l : List α) :
    (a :: l).mergeSort le
      = (l.mergeSort le).filter (fun b => !le a b) ++ a :: (l.mergeSort le).filter (le a) := by
  obtain ⟨before, behind, hsort, hrest, hbefore⟩ := List.mergeSort_cons trans total a l
  have hbehind : ∀ b ∈ behind, le a b = true := by
    have hpairwise := List.pairwise_mergeSort trans total (a :: l)
    rw [hsort, List.pairwise_append] at hpairwise
    exact (List.pairwise_cons.1 hpairwise.2.1).1
  have hdrop : before.filter (le a) = [] :=
    List.filter_eq_nil_iff.2 fun b hb => by simpa using hbefore b hb
  have hdrop' : behind.filter (fun b => !le a b) = [] :=
    List.filter_eq_nil_iff.2 fun b hb => by simpa using hbehind b hb
  rw [hsort, hrest, List.filter_append, List.filter_append, hdrop, hdrop',
    List.filter_eq_self.2 hbefore, List.filter_eq_self.2 hbehind, List.append_nil, List.nil_append]

/-- **A sublist is sorted to a sublist.** -/
theorem mergeSort_sublist {l₁ l₂ : List α} (h : l₁.Sublist l₂) :
    (l₁.mergeSort le).Sublist (l₂.mergeSort le) := by
  induction h with
  | slnil => exact List.Sublist.refl _
  | @cons l₁ l₂ a _ ih =>
    obtain ⟨before, behind, hsort, hrest, -⟩ := List.mergeSort_cons trans total a l₂
    rw [hsort]
    rw [hrest] at ih
    exact ih.trans ((List.sublist_cons_self a behind).append_left before)
  | @cons_cons l₁ l₂ a _ ih =>
    rw [mergeSort_cons_filter trans total, mergeSort_cons_filter trans total]
    exact (ih.filter _).append ((ih.filter _).cons_cons a)

end Sorting

theorem Placed.atOrBefore_trans (p q r : Placed) (hpq : p.atOrBefore q = true)
    (hqr : q.atOrBefore r = true) : p.atOrBefore r = true := by
  simp only [atOrBefore, Bool.or_eq_true, Bool.and_eq_true, decide_eq_true_eq, beq_iff_eq] at *
  omega

theorem Placed.atOrBefore_total (p q : Placed) : (p.atOrBefore q || q.atOrBefore p) = true := by
  simp only [atOrBefore, Bool.or_eq_true, Bool.and_eq_true, decide_eq_true_eq, beq_iff_eq]
  omega

/-- The line of a report that speaks of errors that were left out. -/
def Diagnostic.IsSummary (d : Diagnostic) : Prop := d.cause = .tooManyErrors

instance (d : Diagnostic) : Decidable d.IsSummary := inferInstanceAs (Decidable (d.cause = _))

namespace Queue

/-! ### What is held -/

/-- The queue holds some of what `all` holds, which takes everything, and has an error if `all`
has. -/
structure Thins (q all : Queue) : Prop where
  /-- The other queue takes everything. -/
  config : all.config = .unlimited
  /-- It has refused nothing. -/
  overflowed : all.overflowed = false
  /-- What is held was taken by the other queue as well, in the same order. -/
  held : q.held.toList.Sublist all.held.toList
  /-- If the other queue holds an error, so does this one. -/
  error : 0 < all.errorCount → 0 < q.errorCount
  /-- Nothing that is offered looks like the last line of a report. -/
  plain : ∀ p ∈ all.held, ¬p.diagnostic.IsSummary

theorem thins_empty (config : QueueConfig) : Thins (empty config) (empty .unlimited) where
  config := rfl
  overflowed := rfl
  held := List.Sublist.refl _
  error h := h
  plain p hp := by simp [empty] at hp

variable {q all : Queue}

/-- Without a limit and with repetitions everything is taken. -/
theorem add_of_unlimited (h : all.config = .unlimited) (p : Placed) :
    all.add p = (true, { all with held := all.held.push p }) := by
  simp [add, limitReached, h, QueueConfig.unlimited]

/-- What is offered to both queues keeps one a part of the other. -/
theorem Thins.add (h : Thins q all) {p : Placed} (hplain : ¬p.diagnostic.IsSummary) :
    Thins (q.add p).2 (all.add p).2 := by
  rw [add_of_unlimited h.config]
  refine ⟨h.config, h.overflowed, ?_, fun hpos => ?_, fun p' hp' => ?_⟩
  · rw [Array.toList_push]
    rcases held_add q p with hheld | hheld
    · rw [hheld]
      exact h.held.trans (List.sublist_append_left _ _)
    · rw [hheld, Array.toList_push]
      exact h.held.append (List.Sublist.refl _)
  · by_cases hp : p.isError = true
    · exact errorCount_add_pos q hp
    · have hcount : 0 < all.errorCount := by
        simpa only [errorCount, Array.countP_push, if_neg hp, Nat.add_zero] using hpos
      exact Nat.lt_of_lt_of_le (h.error hcount) (errorCount_add q p)
  · rcases Array.mem_push.1 hp' with hp' | rfl
    · exact h.plain p' hp'
    · exact hplain

theorem Thins.addAll (h : Thins q all) (lines : LineTable) {ds : List Diagnostic}
    (hplain : ∀ d ∈ ds, ¬d.IsSummary) : Thins (q.addAll lines ds) (all.addAll lines ds) := by
  unfold Queue.addAll
  induction ds generalizing q all with
  | nil => exact h
  | cons d ds ih =>
    have hd : ¬d.IsSummary := hplain d (.head _)
    exact ih (h.add hd) fun d' hd' => hplain d' (.tail _ hd')

/-- Whatever part of the errors a queue holds, it holds none only if there are none. -/
theorem Thins.errorCount_eq_zero_iff (h : Thins q all) : q.errorCount = 0 ↔ all.errorCount = 0 := by
  have hle : q.errorCount ≤ all.errorCount := by
    unfold errorCount
    rw [← Array.countP_toList, ← Array.countP_toList]
    exact h.held.countP_le
  have herror := h.error
  omega

/-! ### What is handed out -/

theorem Thins.flush (h : Thins q all) : q.flush.1.Sublist all.flush.1 :=
  (mergeSort_sublist Placed.atOrBefore_trans Placed.atOrBefore_total h.held).map _

theorem mem_flush {d : Diagnostic} : d ∈ q.flush.1 ↔ ∃ p ∈ q.held, p.diagnostic = d := by
  simp [Queue.flush, List.mem_mergeSort]

/-- An error that is held is handed out. -/
theorem exists_error_flush (h : 0 < q.errorCount) : ∃ d ∈ q.flush.1, d.isError = true := by
  obtain ⟨p, hp, herror⟩ := Array.countP_pos_iff.1 h
  exact ⟨p.diagnostic, mem_flush.2 ⟨p, hp, rfl⟩, herror⟩

/-- A report without its last line on errors that were left out. -/
def dropSummary (ds : List Diagnostic) : List Diagnostic :=
  match ds.getLast? with
  | some d => if d.IsSummary then ds.dropLast else ds
  | none => ds

theorem dropSummary_of_plain {ds : List Diagnostic} (h : ∀ d ∈ ds, ¬d.IsSummary) :
    dropSummary ds = ds := by
  unfold dropSummary
  split
  · next d hd => rw [if_neg (h d (List.mem_of_getLast? hd))]
  · rfl

theorem dropSummary_append {ds : List Diagnostic} {d : Diagnostic} (h : d.IsSummary) :
    dropSummary (ds ++ [d]) = ds := by
  simp [dropSummary, h]

/-- Without its summary a report is what was held. -/
theorem Thins.dropSummary_finish (h : Thins q all) (rootSpan : Span) :
    dropSummary (q.finish rootSpan) = q.flush.1 := by
  unfold finish
  split
  · exact dropSummary_append rfl
  · rw [List.append_nil]
    refine dropSummary_of_plain fun d hd => ?_
    obtain ⟨p, hp, rfl⟩ := mem_flush.1 hd
    exact h.plain p (Array.mem_toList_iff.1 (h.held.mem (Array.mem_toList_iff.2 hp)))

theorem Thins.finish_all (h : Thins q all) (rootSpan : Span) :
    all.finish rootSpan = all.flush.1 := by
  simp [finish, h.overflowed]

/-- A report gives part of what `all` gives, in the same order and with an error in it, but for its
summary. -/
def Selects (ds all : List Diagnostic) : Prop :=
  (dropSummary ds).Sublist all ∧ ∃ d ∈ dropSummary ds, d.isError = true

/-- Compiling stops if an error is held. -/
theorem checkpoint_eq (q : Queue) (rootSpan : Span) :
    q.checkpoint rootSpan
      = if q.errorCount = 0 then .ok () else .error (.reported (q.finish rootSpan)) := by
  unfold checkpoint errors? ErrorReported.ofCount?
  by_cases hzero : q.errorCount = 0
  · simp [hzero]
  · simp [hzero]

/-- **Both queues let compiling go on, or both stop it**, the one with part of what the other
gives. -/
theorem Thins.checkpoint (h : Thins q all) (rootSpan : Span) :
    (q.checkpoint rootSpan = .ok () ∧ all.checkpoint rootSpan = .ok ())
      ∨ ∃ ds ds', q.checkpoint rootSpan = .error (.reported ds)
        ∧ all.checkpoint rootSpan = .error (.reported ds') ∧ Selects ds ds' := by
  rw [checkpoint_eq, checkpoint_eq]
  by_cases hzero : q.errorCount = 0
  · rw [if_pos hzero, if_pos (h.errorCount_eq_zero_iff.1 hzero)]
    exact .inl ⟨rfl, rfl⟩
  · rw [if_neg hzero, if_neg fun hall => hzero (h.errorCount_eq_zero_iff.2 hall)]
    refine .inr ⟨_, _, rfl, rfl, ?_⟩
    unfold Selects
    rw [h.dropSummary_finish, h.finish_all]
    exact ⟨h.flush, exists_error_flush (Nat.pos_of_ne_zero hzero)⟩

end Queue

end MiddleEnd
