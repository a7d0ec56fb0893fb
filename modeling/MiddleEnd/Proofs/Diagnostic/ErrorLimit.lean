import Mathlib.Data.List.Induction
import MiddleEnd.Proofs.Diagnostic.Held

/-!
# The error limit

A queue with a limit is compared with one that only differs in having none.  The first holds what
the second holds up to the errors behind the limit.  Its flag is another matter: an error that
arrives at the limit sets it, and so does a repetition, which the queue without a limit leaves out
as well.

## Main definitions

* `firstErrors` — a list without the errors behind the first few.
* `Sometime` — something holds of one of the diagnostics that are offered and what is offered before
  it.
* `Queue.Swallows` — an error that is offered finds the limit reached.
* `Queue.Truncates` — what a queue with a limit has to do with one without.

## Main results

* `Queue.Truncates.add` — what is offered to both queues keeps one a truncation of the other.
* `Queue.overflowed_iff_swallows` — the flag is set exactly if some error was swallowed.
* `Queue.limit_truncates` — **what a limit leaves out, and what its flag says about it**.
-/

namespace MiddleEnd

/-! ### The first errors of a list -/

/-- Everything but the errors behind the first `limit` of them. -/
def firstErrors : Nat → List Placed → List Placed
  | _, [] => []
  | 0, p :: ps => if p.isError then firstErrors 0 ps else p :: firstErrors 0 ps
  | limit + 1, p :: ps => p :: firstErrors (if p.isError then limit else limit + 1) ps

/-- The errors among the first errors are the first errors. -/
theorem filter_firstErrors (limit : Nat) (ps : List Placed) :
    (firstErrors limit ps).filter (·.isError) = (ps.filter (·.isError)).take limit := by
  induction ps generalizing limit with
  | nil => cases limit <;> simp [firstErrors]
  | cons p ps ih =>
    cases limit with
    | zero => by_cases hp : p.isError = true <;> simp [firstErrors, hp, ih]
    | succ limit => by_cases hp : p.isError = true <;> simp [firstErrors, hp, ih]

theorem countP_firstErrors (limit : Nat) (ps : List Placed) :
    (firstErrors limit ps).countP (·.isError) = min limit (ps.countP (·.isError)) := by
  rw [List.countP_eq_length_filter, filter_firstErrors, List.length_take,
    List.countP_eq_length_filter]

/-- Nothing is dropped up to the limit. -/
theorem firstErrors_eq_self {limit : Nat} {ps : List Placed} (h : ps.countP (·.isError) ≤ limit) :
    firstErrors limit ps = ps := by
  induction ps generalizing limit with
  | nil => cases limit <;> rfl
  | cons p ps ih =>
    rw [List.countP_cons] at h
    cases limit with
    | zero =>
      have hp : ¬p.isError = true := fun hp => by simp [hp] at h
      rw [firstErrors, if_neg hp, ih (by omega)]
    | succ limit =>
      rw [firstErrors, ih]
      split <;> simp_all

/-- An error at the end is dropped if the limit has been reached, and nothing else is. -/
theorem firstErrors_concat (limit : Nat) (ps : List Placed) (p : Placed) :
    firstErrors limit (ps ++ [p])
      = firstErrors limit ps
        ++ if p.isError = true ∧ limit ≤ ps.countP (·.isError) then [] else [p] := by
  induction ps generalizing limit with
  | nil =>
    cases limit with
    | zero => by_cases hp : p.isError = true <;> simp [firstErrors, hp]
    | succ limit => simp [firstErrors]
  | cons x ps ih =>
    cases limit with
    | zero => by_cases hx : x.isError = true <;> simp [firstErrors, hx, ih]
    | succ limit => by_cases hx : x.isError = true <;> simp [firstErrors, hx, ih]

/-! ### What is offered at some time -/

/-- `P` holds of some diagnostic among `ps` and those before it. -/
def Sometime (P : List Placed → Placed → Prop) (ps : List Placed) : Prop :=
  ∃ before p after, ps = before ++ p :: after ∧ P before p

variable {P : List Placed → Placed → Prop}

theorem not_sometime_nil : ¬Sometime P [] := by
  rintro ⟨before, p, after, h, -⟩
  simp at h

/-- It holds of the last diagnostic or of one before it. -/
theorem sometime_concat {ps : List Placed} {p : Placed} :
    Sometime P (ps ++ [p]) ↔ Sometime P ps ∨ P ps p := by
  constructor
  · rintro ⟨before, p', after, h, hP⟩
    rcases after.eq_nil_or_concat with rfl | ⟨after, p'', rfl⟩
    · obtain ⟨rfl, hlast⟩ := List.append_inj' h rfl
      obtain rfl : p = p' := by simpa using hlast
      exact .inr hP
    · rw [List.concat_eq_append, ← List.cons_append, ← List.append_assoc] at h
      exact .inl ⟨before, p', after, (List.append_inj' h rfl).1, hP⟩
  · rintro (⟨before, p', after, rfl, hP⟩ | hP)
    · exact ⟨before, p', after ++ [p], by simp, hP⟩
    · exact ⟨ps, p, [], rfl, hP⟩

namespace Queue

/-- After `before`, the queue refuses `p` because of its limit. -/
def Swallows (q : Queue) (before : List Placed) (p : Placed) : Prop :=
  p.isError = true ∧ (q.offerAll before).limitReached = true

/-- After `before`, the queue leaves `p` out as a repetition unless its limit makes it refuse it. -/
def Repeats (q : Queue) (before : List Placed) (p : Placed) : Prop :=
  q.config.deduplicate = true ∧ (q.offerAll before).holdsRepeatOf p = true

/-- Some errors are swallowed, and all of them are repetitions. -/
def OnlyRepeats (q : Queue) (ps : List Placed) : Prop :=
  Sometime q.Swallows ps
    ∧ ∀ before p after, ps = before ++ p :: after → q.Swallows before p → q.Repeats before p

/-- **The flag is set exactly if some error was swallowed.** -/
theorem overflowed_iff_swallows (config : QueueConfig) (ps : List Placed) :
    ((empty config).offerAll ps).overflowed = true ↔ Sometime (empty config).Swallows ps := by
  induction ps using List.reverseRecOn with
  | nil => exact iff_of_false (by simp [empty]) not_sometime_nil
  | append_singleton ps p ih =>
    rw [offerAll_concat, sometime_concat, ← ih]
    unfold Swallows
    rcases add_cases ((empty config).offerAll ps) p with
      ⟨hp, hlimit, h⟩ | ⟨hfree, -, h⟩ | ⟨hfree, -, h⟩
    · rw [h]
      exact iff_of_true rfl (.inr ⟨hp, hlimit⟩)
    all_goals
      rw [h, or_iff_left]
      rintro ⟨hp, hlimit⟩
      exact Bool.false_ne_true ((hfree hp).symm.trans hlimit)

/-! ### With and without a limit -/

/-- `q` has a limit, `u` has none, and `q` holds what `u` holds up to the errors behind the
limit. -/
structure Truncates (q u : Queue) : Prop where
  /-- There is a limit. -/
  positive : 0 < q.config.errorLimit
  /-- The other queue has the same settings but no limit. -/
  unlimited : u.config = { q.config with errorLimit := 0 }
  /-- What is held is what the other queue holds, up to the errors behind the limit. -/
  held : q.held.toList = firstErrors q.config.errorLimit u.held.toList

namespace Truncates

variable {q u : Queue}

theorem errorCount_eq (h : Truncates q u) :
    q.errorCount = min q.config.errorLimit u.errorCount := by
  unfold errorCount
  rw [← Array.countP_toList, ← Array.countP_toList, h.held, countP_firstErrors]

theorem limitReached_iff (h : Truncates q u) :
    q.limitReached = true ↔ q.config.errorLimit ≤ u.errorCount := by
  have hpositive := h.positive
  rw [Queue.limitReached_iff, h.errorCount_eq]
  omega

theorem not_limitReached (h : Truncates q u) : u.limitReached = false := by
  simp [limitReached, h.unlimited]

/-- Up to the limit both hold the same. -/
theorem held_eq (h : Truncates q u) (hle : u.errorCount ≤ q.config.errorLimit) :
    q.held = u.held := by
  unfold errorCount at hle
  rw [← Array.countP_toList] at hle
  exact Array.toList_inj.1 (h.held.trans (firstErrors_eq_self hle))

theorem holdsRepeatOf_eq (h : Truncates q u) (hle : u.errorCount ≤ q.config.errorLimit)
    (p : Placed) : q.holdsRepeatOf p = u.holdsRepeatOf p := by
  unfold holdsRepeatOf
  rw [h.held_eq hle]

/-- What the queue without a limit leaves out is a repetition, and everything else it takes. -/
theorem held_add_unlimited (h : Truncates q u) (p : Placed) :
    (u.add p).2.held
      = if q.config.deduplicate = true
        ∧ u.holdsRepeatOf p = true then u.held else u.held.push p := by
  rcases add_cases u p with ⟨-, hlimit, -⟩ | ⟨-, hrepeat, hadd⟩ | ⟨-, hnew, hadd⟩
  · exact absurd hlimit (Bool.eq_false_iff.1 h.not_limitReached)
  · rw [h.unlimited] at hrepeat
    rw [hadd, if_pos hrepeat]
  · rw [h.unlimited] at hnew
    rw [hadd, if_neg hnew]

/-- What is offered to both queues keeps one a truncation of the other. -/
theorem add (h : Truncates q u) (p : Placed) : Truncates (q.add p).2 (u.add p).2 := by
  refine ⟨?_, ?_, ?_⟩
  · rw [config_add]
    exact h.positive
  · rw [config_add, config_add]
    exact h.unlimited
  rw [config_add, h.held_add_unlimited]
  have hcount : u.errorCount = u.held.toList.countP (·.isError) := Array.countP_toList.symm
  rcases add_cases q p with ⟨hp, hlimit, hadd⟩ | ⟨hfree, hrepeat, hadd⟩ | ⟨hfree, hnew, hadd⟩
  · -- At the limit the truncation ignores what is behind.
    rw [hadd, h.held]
    have hle := h.limitReached_iff.1 hlimit
    rw [hcount] at hle
    split
    · rfl
    · rw [Array.toList_push, firstErrors_concat, if_pos ⟨hp, hle⟩, List.append_nil]
  · -- What is repeated is an error, so that the limit has not been reached.
    have hp := (holdsRepeatOf_iff.1 hrepeat.2).1
    have hle : u.errorCount ≤ q.config.errorLimit := by
      have hlimit := mt h.limitReached_iff.2 (Bool.eq_false_iff.1 (hfree hp))
      omega
    rw [h.holdsRepeatOf_eq hle] at hrepeat
    rw [hadd, if_pos hrepeat, h.held]
  · rw [hadd]
    by_cases hp : p.isError = true
    · have hlimit := mt h.limitReached_iff.2 (Bool.eq_false_iff.1 (hfree hp))
      rw [h.holdsRepeatOf_eq (by omega)] at hnew
      rw [hcount] at hlimit
      rw [if_neg hnew, Array.toList_push, Array.toList_push, h.held, firstErrors_concat,
        if_neg fun hlate => hlimit hlate.2]
    · have hnew : ¬(q.config.deduplicate = true ∧ u.holdsRepeatOf p = true) :=
        fun hrepeat => hp (holdsRepeatOf_iff.1 hrepeat.2).1
      rw [if_neg hnew, Array.toList_push, Array.toList_push, h.held, firstErrors_concat,
        if_neg fun hlate => hp hlate.1]

/-- The queue without a limit goes beyond it by an error that the other one refuses and that it
would not have left out as a repetition. -/
theorem exceeds_add_iff (h : Truncates q u) (hle : u.errorCount ≤ q.config.errorLimit)
    (p : Placed) :
    q.config.errorLimit < (u.add p).2.errorCount
      ↔ (p.isError = true ∧ q.limitReached = true)
        ∧ ¬(q.config.deduplicate = true ∧ q.holdsRepeatOf p = true) := by
  rw [h.limitReached_iff, h.holdsRepeatOf_eq hle, errorCount, h.held_add_unlimited]
  unfold errorCount at hle ⊢
  split
  · next hrepeat =>
    exact iff_of_false (by omega) fun hnew => hnew.2 hrepeat
  · next hnew =>
    rw [Array.countP_push]
    by_cases hp : p.isError = true
    · rw [if_pos hp, and_iff_left hnew, and_iff_right hp]
      omega
    · rw [if_neg hp]
      exact iff_of_false (by omega) fun hlate => hp hlate.1.1

end Truncates

/-- A queue stays a truncation of the one without a limit, whatever is offered. -/
theorem truncates_offerAll {limit : Nat} (hlimit : 0 < limit) (dedup : Bool) (ps : List Placed) :
    Truncates ((empty ⟨limit, dedup⟩).offerAll ps) ((empty ⟨0, dedup⟩).offerAll ps) := by
  induction ps using List.reverseRecOn with
  | nil =>
    refine ⟨hlimit, rfl, ?_⟩
    exact (firstErrors_eq_self (Nat.zero_le limit)).symm
  | append_singleton ps p ih =>
    rw [offerAll_concat, offerAll_concat]
    exact ih.add p

/-- The queue without a limit goes beyond it exactly if the other one swallows an error that repeats
none it holds. -/
theorem exceeds_iff {limit : Nat} (hlimit : 0 < limit) (dedup : Bool) (ps : List Placed) :
    limit < ((empty ⟨0, dedup⟩).offerAll ps).errorCount
      ↔ Sometime (fun before p => (empty ⟨limit, dedup⟩).Swallows before p
          ∧ ¬(empty ⟨limit, dedup⟩).Repeats before p) ps := by
  induction ps using List.reverseRecOn with
  | nil => exact iff_of_false (by simp [empty, errorCount]) not_sometime_nil
  | append_singleton ps p ih =>
    rw [offerAll_concat, sometime_concat, ← ih]
    have htruncates := truncates_offerAll hlimit dedup ps
    have hconfig : ((empty ⟨limit, dedup⟩).offerAll ps).config = ⟨limit, dedup⟩ :=
      config_offerAll _ ps
    by_cases hle : ((empty ⟨0, dedup⟩).offerAll ps).errorCount ≤ limit
    · have hstep := htruncates.exceeds_add_iff (p := p) (by rw [hconfig]; exact hle)
      rw [hconfig] at hstep
      rw [hstep, or_iff_right (Nat.not_lt_of_le hle)]
      rfl
    · have hmore := errorCount_add ((empty ⟨0, dedup⟩).offerAll ps) p
      exact iff_of_true (by omega) (.inl (by omega))

/-- **What a limit leaves out, and what its flag says about it.**  A queue with a limit holds what a
queue without one holds, up to the errors behind the limit.  The queue without a limit goes beyond
it exactly if the other one swallows an error that repeats none it holds; the flag is set exactly if
it swallows any error.  So the flag tells whether there are more errors, unless only repetitions are
swallowed. -/
theorem limit_truncates {limit : Nat} (hlimit : 0 < limit) (dedup : Bool) (ps : List Placed) :
    let fresh := empty ⟨limit, dedup⟩
    let limited := fresh.offerAll ps
    let unlimited := (empty ⟨0, dedup⟩).offerAll ps
    limited.held.toList = firstErrors limit unlimited.held.toList
      ∧ (limited.overflowed = true ↔ Sometime fresh.Swallows ps)
      ∧ (limit < unlimited.errorCount
          ↔ Sometime (fun before p => fresh.Swallows before p ∧ ¬fresh.Repeats before p) ps)
      ∧ ((limited.overflowed = true ↔ limit < unlimited.errorCount) ↔ ¬fresh.OnlyRepeats ps) := by
  intro fresh limited unlimited
  have hheld : limited.held.toList = firstErrors limit unlimited.held.toList := by
    have htruncates := truncates_offerAll hlimit dedup ps
    rw [htruncates.held, config_offerAll]
    rfl
  have hoverflowed : limited.overflowed = true ↔ Sometime fresh.Swallows ps :=
    overflowed_iff_swallows ⟨limit, dedup⟩ ps
  have hexceeds : limit < unlimited.errorCount
      ↔ Sometime (fun before p => fresh.Swallows before p ∧ ¬fresh.Repeats before p) ps :=
    exceeds_iff hlimit dedup ps
  refine ⟨hheld, hoverflowed, hexceeds, ?_⟩
  rw [hoverflowed, hexceeds]
  constructor
  · -- Where both say the same, there is an error that is swallowed and new.
    rintro hsame ⟨hsome, hall⟩
    obtain ⟨before, p, after, h, hswallowed, hnew⟩ := hsame.1 hsome
    exact hnew (hall before p after h hswallowed)
  · -- Where not only repetitions are swallowed, one of what is swallowed is new.
    intro honly
    refine ⟨fun hsome => ?_, ?_⟩
    · by_contra hnone
      refine honly ⟨hsome, fun before p after h hswallowed => ?_⟩
      by_contra hnew
      exact hnone ⟨before, p, after, h, hswallowed, hnew⟩
    · rintro ⟨before, p, after, h, hswallowed, -⟩
      exact ⟨before, p, after, h, hswallowed⟩

/-- Four names are unknown, the first two of them in the same line. -/
def unknownNames : List Placed :=
  [(1, 1), (1, 5), (2, 1), (3, 1)].map fun (line, column) =>
    ⟨.error .unknownName "cannot find name" [] [], ⟨line, column⟩⟩

/-- With room for two errors, those of the first two lines are held, and the last one is swallowed.
The flag tells so. -/
theorem limit_truncates_unknownNames :
    0 < 2
      ∧ ((empty ⟨2, true⟩).offerAll unknownNames).held.toList.map (·.position) = [⟨1, 1⟩, ⟨2, 1⟩]
      ∧ ¬(empty ⟨2, true⟩).OnlyRepeats unknownNames
      ∧ ((empty ⟨2, true⟩).offerAll unknownNames).overflowed = true
      ∧ 2 < ((empty ⟨0, true⟩).offerAll unknownNames).errorCount := by
  have hlimit : 0 < 2 := by decide
  obtain ⟨hheld, -, -, hsame⟩ := limit_truncates hlimit true unknownNames
  have hoverflowed : ((empty ⟨2, true⟩).offerAll unknownNames).overflowed = true := by
    decide +kernel
  have hmore : 2 < ((empty ⟨0, true⟩).offerAll unknownNames).errorCount := by decide +kernel
  refine ⟨hlimit, ?_, hsame.1 (iff_of_true hoverflowed hmore), hoverflowed, hmore⟩
  rw [hheld]
  decide +kernel

/-- With room for one error, the second of the same line sets the flag, although there are no more
errors than one. -/
theorem limit_truncates_fails_for_repetition :
    0 < 1
      ∧ ((empty ⟨1, true⟩).offerAll (unknownNames.take 2)).overflowed = true
      ∧ ((empty ⟨0, true⟩).offerAll (unknownNames.take 2)).errorCount = 1
      ∧ ¬(((empty ⟨1, true⟩).offerAll (unknownNames.take 2)).overflowed = true
        ↔ 1 < ((empty ⟨0, true⟩).offerAll (unknownNames.take 2)).errorCount) := by
  decide +kernel

end Queue

end MiddleEnd
