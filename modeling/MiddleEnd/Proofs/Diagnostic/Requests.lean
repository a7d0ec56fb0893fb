import MiddleEnd.Proofs.Diagnostic.Queue
import MiddleEnd.Proofs.Source.Monotone

/-!
# What is asked of a queue

Diagnostics are offered to a queue in three ways, it is looked at and it is emptied, in any order.
Whatever the order, what it holds is related to what has been offered since it was last empty.

## Main definitions

* `QueueRequest`, `QueueReply` — what is asked of a queue, and what there is to see afterwards.
* `QueueReply.Backed` — no token is handed out without an error.
* `Queue.serve`, `Queue.serveAll` — serve one request, or several in sequence.
* `offered` — what has been offered since the queue was last emptied.
* `Queue.Faithful` — what a queue holds of what was offered to it.

## Main results

* `Queue.Faithful.add` — one more diagnostic is dealt with as it should be.
* `Queue.flush_sorted` — **what is handed out is what was held, in the order of the source**, and in
  order of arrival where that says nothing.
-/

namespace MiddleEnd

/-- What the repetitions of an error have in common. -/
def Placed.key (p : Placed) : Nat × Cause := (p.position.line, p.diagnostic.cause)

/-! ### Requests -/

/-- What is asked of a queue.  Only errors are emitted. -/
inductive QueueRequest where
  /-- Offer a diagnostic at a position. -/
  | add (p : Placed)
  /-- Offer a diagnostic where its primary place is. -/
  | addFrom (lines : LineTable) (d : Diagnostic)
  /-- Emit an error for a token. -/
  | emit (p : Placed) (error : p.isError = true)
  /-- Look at what is held. -/
  | peek
  /-- Hand out all that is held. -/
  | flush

/-- What a request is answered with. -/
inductive QueueAnswer where
  /-- Whether what was offered is held now. -/
  | taken (held : Bool)
  /-- The token for an error. -/
  | token (t : ErrorReported)
  /-- What is held, or was until now. -/
  | diagnostics (ds : List Diagnostic)
  deriving DecidableEq, Repr

/-- An answer, and what the queue says about itself afterwards. -/
structure QueueReply where
  /-- The answer. -/
  answer : QueueAnswer
  /-- How many errors are held afterwards. -/
  errorCount : Nat
  /-- The token that can be asked for afterwards. -/
  errors : Option ErrorReported
  /-- Whether the limit is reached afterwards. -/
  limitReached : Bool
  /-- Whether an error has been refused because of the limit. -/
  overflowed : Bool
  deriving DecidableEq, Repr

/-- Whoever is handed a token could find an error in the queue. -/
def QueueReply.Backed (r : QueueReply) : Prop :=
  r.answer = .token .reported ∨ r.errors = some .reported → 0 < r.errorCount

/-- What has been offered since the last flush, after one more request. -/
def QueueRequest.record (ps : List Placed) : QueueRequest → List Placed
  | .add p => ps ++ [p]
  | .addFrom lines d => ps ++ [lines.place d]
  | .emit p _ => ps ++ [p]
  | .peek => ps
  | .flush => []

/-- What has been offered since the last flush. -/
def offered (requests : List QueueRequest) : List Placed :=
  requests.foldl QueueRequest.record []

theorem ErrorReported.ofCount?_eq_some_iff {count : Nat} :
    ErrorReported.ofCount? count = some .reported ↔ 0 < count := by
  unfold ErrorReported.ofCount?
  split
  · next h => simp [h]
  · next h => simp [Nat.pos_of_ne_zero h]

namespace Queue

/-- An answer together with all that can be asked without a change. -/
def reply (q : Queue) (answer : QueueAnswer) : QueueReply :=
  ⟨answer, q.errorCount, q.errors?, q.limitReached, q.overflowed⟩

/-- Serve one request; an emission of what is no error is a misuse. -/
def serve (q : Queue) : QueueRequest → Except Misuse (QueueReply × Queue)
  | .add p =>
    let (taken, q) := q.add p
    .ok (q.reply (.taken taken), q)
  | .addFrom lines d =>
    let (taken, q) := q.addFrom lines d
    .ok (q.reply (.taken taken), q)
  | .emit p _ => do
    let (token, q) ← q.emit p
    return (q.reply (.token token), q)
  | .peek => .ok (q.reply (.diagnostics q.diagnostics), q)
  | .flush =>
    let (out, q) := q.flush
    .ok (q.reply (.diagnostics out), q)

/-- Serve requests one after the other. -/
def serveAll (q : Queue) : List QueueRequest → Except Misuse (List QueueReply × Queue)
  | [] => .ok ([], q)
  | request :: rest => do
    let (reply, q) ← q.serve request
    let (replies, q) ← q.serveAll rest
    return (reply :: replies, q)

/-! ### What is held of what was offered -/

theorem errorCount_pos_iff {q : Queue} : 0 < q.errorCount ↔ ∃ p ∈ q.held, p.isError = true :=
  Array.countP_pos_iff

/-- A repetition is an error with the key of one that is held. -/
theorem holdsRepeatOf_iff_key {q : Queue} {p : Placed} :
    q.holdsRepeatOf p = true
      ↔ p.isError = true ∧ ∃ x ∈ q.held, x.isError = true ∧ x.key = p.key := by
  simp only [holdsRepeatOf_iff, Placed.key, Prod.mk.injEq]

/-- What a queue holds of what has been offered since it was empty. -/
structure Faithful (config : QueueConfig) (ps : List Placed) (q : Queue) : Prop where
  /-- The settings have not changed. -/
  config_eq : q.config = config
  /-- There are no more errors than the limit allows. -/
  within : 0 < config.errorLimit → q.errorCount ≤ config.errorLimit
  /-- Errors that repeat each other are not both held. -/
  distinct : config.deduplicate = true → ((q.held.toList.filter (·.isError)).map Placed.key).Nodup
  /-- The flag is only set at the limit. -/
  full : q.overflowed = true → 0 < config.errorLimit ∧ q.errorCount = config.errorLimit
  /-- What is held was offered, in that order. -/
  sublist : q.held.toList.Sublist ps
  /-- Nothing but errors is left out. -/
  others : q.held.toList.filter (!·.isError) = ps.filter (!·.isError)
  /-- Whoever offered an error finds one in the queue. -/
  backed : (∃ p ∈ ps, p.isError = true) → ∃ p ∈ q.held, p.isError = true

theorem faithful_empty (config : QueueConfig) : Faithful config [] (empty config) where
  config_eq := rfl
  within _ := Nat.zero_le _
  distinct _ := List.nodup_nil
  full h := absurd h Bool.false_ne_true
  sublist := List.Sublist.refl _
  others := rfl
  backed h := by simp at h

namespace Faithful

variable {config : QueueConfig} {ps : List Placed} {q : Queue}

/-- There is a token exactly if an error was offered. -/
theorem errors?_iff (h : Faithful config ps q) :
    q.errors? = some .reported ↔ ∃ p ∈ ps, p.isError = true := by
  rw [errors?, ErrorReported.ofCount?_eq_some_iff, errorCount_pos_iff]
  refine ⟨?_, h.backed⟩
  rintro ⟨p, hp, herror⟩
  exact ⟨p, h.sublist.mem (Array.mem_toList_iff.2 hp), herror⟩

/-- What is refused or left out is an error, and there is one in the queue. -/
theorem skip (h : Faithful config ps q) {p : Placed} (hp : p.isError = true)
    (hpos : 0 < q.errorCount) : Faithful config (ps ++ [p]) q where
  config_eq := h.config_eq
  within := h.within
  distinct := h.distinct
  full := h.full
  sublist := h.sublist.trans (List.sublist_append_left ps [p])
  others := by
    rw [h.others, List.filter_append]
    simp [hp]
  backed _ := errorCount_pos_iff.1 hpos

/-- What is taken is no repetition, and an error only within the limit. -/
theorem push (h : Faithful config ps q) {p : Placed}
    (hfree : p.isError = true → q.limitReached = false)
    (hnew : ¬(q.config.deduplicate = true ∧ q.holdsRepeatOf p = true)) :
    Faithful config (ps ++ [p]) { q with held := q.held.push p } := by
  -- The count grows by one with an error.
  have hcount : ({ q with held := q.held.push p } : Queue).errorCount
      = q.errorCount + if p.isError = true then 1 else 0 := Array.countP_push ..
  -- An error is taken only while there is room for it.
  have hroom : p.isError = true → 0 < config.errorLimit → q.errorCount < config.errorLimit := by
    intro hp hpos
    have hlimit := mt limitReached_iff.2 (Bool.eq_false_iff.1 (hfree hp))
    rw [h.config_eq] at hlimit
    omega
  constructor
  · exact h.config_eq
  · intro hpos
    have hwithin := h.within hpos
    rw [hcount]
    split
    · next hp => exact hroom hp hpos
    · exact hwithin
  · intro hdedup
    have hdistinct := h.distinct hdedup
    rw [Array.toList_push, List.filter_append, List.map_append, List.nodup_append]
    refine ⟨hdistinct, ?_, ?_⟩
    · by_cases hp : p.isError = true <;> simp [hp]
    · -- The same key twice would be a repetition.
      intro k hk k' hk' heq
      obtain ⟨x, hx, rfl⟩ := List.mem_map.1 hk
      obtain ⟨p', hp', rfl⟩ := List.mem_map.1 hk'
      obtain ⟨hp', hperror⟩ := List.mem_filter.1 hp'
      obtain rfl := List.mem_singleton.1 hp'
      obtain ⟨hx, hxerror⟩ := List.mem_filter.1 hx
      rw [h.config_eq] at hnew
      exact hnew ⟨hdedup, holdsRepeatOf_iff_key.2
        ⟨hperror, x, Array.mem_toList_iff.1 hx, hxerror, heq⟩⟩
  · intro hover
    obtain ⟨hpos, hfull⟩ := h.full hover
    refine ⟨hpos, ?_⟩
    -- The flag is set when the queue is full, and then no error is taken.
    rw [hcount, if_neg fun hp => Nat.ne_of_lt (hroom hp hpos) hfull]
    exact hfull
  · rw [Array.toList_push]
    exact h.sublist.append (List.Sublist.refl _)
  · rw [Array.toList_push, List.filter_append, List.filter_append, h.others]
  · -- An error in the sequence is held already, or it is the new one.
    rintro ⟨x, hx, hxerror⟩
    rcases List.mem_append.1 hx with hx | hx
    · obtain ⟨y, hy, hyerror⟩ := h.backed ⟨x, hx, hxerror⟩
      exact ⟨y, Array.mem_push_of_mem p hy, hyerror⟩
    · obtain rfl := List.mem_singleton.1 hx
      exact ⟨x, Array.mem_push_self, hxerror⟩

/-- One more diagnostic is dealt with as it should be. -/
theorem add (h : Faithful config ps q) (p : Placed) :
    Faithful config (ps ++ [p]) (q.add p).2 := by
  rcases add_cases q p with ⟨hp, hlimit, hadd⟩ | ⟨-, hrepeat, hadd⟩ | ⟨hfree, hnew, hadd⟩
  · obtain ⟨hpos, hle⟩ := limitReached_iff.1 hlimit
    have hskip := h.skip hp (Nat.lt_of_lt_of_le hpos hle)
    rw [h.config_eq] at hpos hle
    have hfull : q.errorCount = config.errorLimit := Nat.le_antisymm (h.within hpos) hle
    rw [hadd]
    exact { hskip with full := fun _ => ⟨hpos, hfull⟩ }
  · have hp := (holdsRepeatOf_iff.1 hrepeat.2).1
    have hpos := errorCount_add_pos q hp
    rw [hadd] at hpos ⊢
    exact h.skip hp hpos
  · rw [hadd]
    exact h.push hfree hnew

end Faithful

/-! ### What is handed out -/

/-- **What is handed out is what was held, in the order of the source**, and in order of arrival
where that says nothing. -/
theorem flush_sorted (q : Queue) :
    ∃ out : List Placed, q.flush.1 = out.map Placed.diagnostic
      ∧ out.Perm q.held.toList
      ∧ out.Pairwise (fun p p' => p.position.order ≤ p'.position.order)
      ∧ ∀ place, out.filter (·.position == place) = q.held.toList.filter (·.position == place) := by
  have hsorted := List.pairwise_mergeSort Placed.atOrBefore_trans Placed.atOrBefore_total
    q.held.toList
  refine ⟨_, rfl, List.mergeSort_perm _ _, hsorted.imp fun h => (Placed.atOrBefore_iff _ _).1 h,
    fun place => ?_⟩
  have hequal : (q.held.toList.filter (·.position == place)).Pairwise
      (fun p p' => p.atOrBefore p' = true) := by
    refine List.pairwise_of_forall_mem_list fun p hp p' hp' => ?_
    have hp := beq_iff_eq.1 (List.mem_filter.1 hp).2
    have hp' := beq_iff_eq.1 (List.mem_filter.1 hp').2
    simp [Placed.atOrBefore, hp, hp']
  -- What stands at one place is sorted already, and sorting keeps it apart from the rest.
  have hsublist := mergeSort_sublist Placed.atOrBefore_trans Placed.atOrBefore_total
    (List.filter_sublist (p := (·.position == place)) (l := q.held.toList))
  rw [List.mergeSort_of_pairwise hequal] at hsublist
  have hkept := hsublist.filter (·.position == place)
  rw [List.filter_filter] at hkept
  simp only [Bool.and_self] at hkept
  have hlength := ((List.mergeSort_perm q.held.toList Placed.atOrBefore).filter
    (·.position == place)).length_eq
  exact (hkept.eq_of_length hlength.symm).symm

end Queue

end MiddleEnd
