import MiddleEnd.Diagnostic.Queue

/-!
# What a queue holds

A diagnostic that is offered is refused at the limit, left out as a repetition, or held.  This is
all that can happen to it, and the only thing that refuses an error is an error that is held.

## Main definitions

* `Queue.offerAll` — offer diagnostics at their places, in order.

## Main results

* `Queue.add_cases` — what happens to what is offered.
* `Queue.errorCount_add_pos` — **an error that is offered leaves an error in the queue**.
-/

namespace MiddleEnd

/-- A diagnostic at the start of its primary place, or at the start of the text. -/
def LineTable.place (lines : LineTable) (d : Diagnostic) : Placed :=
  ⟨d, (d.primarySpan?.map fun s => lines.position s.start).getD ⟨1, 1⟩⟩

namespace Queue

/-- Whether an error of the same cause is held on the same line. -/
theorem holdsRepeatOf_iff {q : Queue} {p : Placed} :
    q.holdsRepeatOf p = true ↔ p.isError = true ∧ ∃ x ∈ q.held, x.isError = true
      ∧ x.position.line = p.position.line ∧ x.diagnostic.cause = p.diagnostic.cause := by
  unfold holdsRepeatOf Placed.repeats
  simp only [Array.any_eq_true', Bool.and_eq_true, beq_iff_eq]
  constructor
  · rintro ⟨x, hx, ⟨⟨hxe, hpe⟩, hline⟩, hcause⟩
    exact ⟨hpe, x, hx, hxe, hline, hcause⟩
  · rintro ⟨hpe, x, hx, hxe, hline, hcause⟩
    exact ⟨x, hx, ⟨⟨hxe, hpe⟩, hline⟩, hcause⟩

theorem limitReached_iff {q : Queue} :
    q.limitReached = true ↔ 0 < q.config.errorLimit ∧ q.config.errorLimit ≤ q.errorCount := by
  simp [limitReached]

/-- What is offered is refused at the limit, left out as a repetition, or held. -/
theorem add_cases (q : Queue) (p : Placed) :
    (p.isError = true ∧ q.limitReached = true ∧ q.add p = (false, { q with overflowed := true }))
      ∨ ((p.isError = true → q.limitReached = false)
        ∧ (q.config.deduplicate = true ∧ q.holdsRepeatOf p = true) ∧ q.add p = (false, q))
      ∨ ((p.isError = true → q.limitReached = false)
        ∧ ¬(q.config.deduplicate = true ∧ q.holdsRepeatOf p = true)
        ∧ q.add p = (true, { q with held := q.held.push p })) := by
  unfold add
  split
  · next hlimit =>
    rw [Bool.and_eq_true] at hlimit
    exact .inl ⟨hlimit.1, hlimit.2, rfl⟩
  · next hlimit =>
    have hfree : p.isError = true → q.limitReached = false := by simpa using hlimit
    split
    · next hrepeat =>
      rw [Bool.and_eq_true] at hrepeat
      exact .inr (.inl ⟨hfree, hrepeat, rfl⟩)
    · next hrepeat =>
      rw [Bool.and_eq_true] at hrepeat
      exact .inr (.inr ⟨hfree, hrepeat, rfl⟩)

/-- What is offered is held or left out. -/
theorem held_add (q : Queue) (p : Placed) :
    (q.add p).2.held = q.held ∨ (q.add p).2.held = q.held.push p := by
  rcases add_cases q p with ⟨-, -, h⟩ | ⟨-, -, h⟩ | ⟨-, -, h⟩
  · exact .inl (by rw [h])
  · exact .inl (by rw [h])
  · exact .inr (by rw [h])

theorem config_add (q : Queue) (p : Placed) : (q.add p).2.config = q.config := by
  rcases add_cases q p with ⟨-, -, h⟩ | ⟨-, -, h⟩ | ⟨-, -, h⟩ <;> rw [h]

/-- Errors stay in a queue to which more is offered. -/
theorem errorCount_add (q : Queue) (p : Placed) : q.errorCount ≤ (q.add p).2.errorCount := by
  unfold errorCount
  rcases held_add q p with h | h
  · exact Nat.le_of_eq (by rw [h])
  · rw [h, Array.countP_push]
    exact Nat.le_add_right _ _

/-- **An error that is offered leaves an error in the queue**: it is only refused for one that is
there. -/
theorem errorCount_add_pos (q : Queue) {p : Placed} (hp : p.isError = true) :
    0 < (q.add p).2.errorCount := by
  rcases add_cases q p with ⟨-, hlimit, h⟩ | ⟨-, ⟨-, hrepeat⟩, h⟩ | ⟨-, -, h⟩
  · rw [h]
    have hlimit := limitReached_iff.1 hlimit
    exact Nat.lt_of_lt_of_le hlimit.1 hlimit.2
  · rw [h]
    obtain ⟨-, x, hx, herror, -⟩ := holdsRepeatOf_iff.1 hrepeat
    exact Array.countP_pos_iff.2 ⟨x, hx, herror⟩
  · rw [h]
    exact Array.countP_pos_iff.2 ⟨p, Array.mem_push_self, hp⟩

/-! ### Several at once -/

/-- Offer diagnostics at their places, in order. -/
def offerAll (q : Queue) (ps : List Placed) : Queue := ps.foldl (fun q p => (q.add p).2) q

@[simp] theorem offerAll_nil (q : Queue) : q.offerAll [] = q := rfl

@[simp] theorem offerAll_cons (q : Queue) (p : Placed) (ps : List Placed) :
    q.offerAll (p :: ps) = (q.add p).2.offerAll ps := rfl

theorem offerAll_append (q : Queue) (ps ps' : List Placed) :
    q.offerAll (ps ++ ps') = (q.offerAll ps).offerAll ps' :=
  List.foldl_append

@[simp] theorem offerAll_concat (q : Queue) (ps : List Placed) (p : Placed) :
    q.offerAll (ps ++ [p]) = ((q.offerAll ps).add p).2 := by
  rw [offerAll_append]
  rfl

theorem config_offerAll (q : Queue) (ps : List Placed) : (q.offerAll ps).config = q.config := by
  induction ps generalizing q with
  | nil => rfl
  | cons p ps ih => rw [offerAll_cons, ih, config_add]

theorem errorCount_offerAll (q : Queue) (ps : List Placed) :
    q.errorCount ≤ (q.offerAll ps).errorCount := by
  induction ps generalizing q with
  | nil => exact Nat.le_refl _
  | cons p ps ih => exact Nat.le_trans (errorCount_add q p) (ih _)

end Queue

end MiddleEnd
