import Mathlib.Data.Finset.Insert
import MiddleEnd.Proofs.Diagnostic.Requests

/-!
# A queue that counts

How many errors a queue holds, and whether one of them is repeated, can be read off what it holds.
A queue that is asked often keeps both at hand instead: a number that grows with each error, and the
set of what has been seen.  Both are brought up to date by different branches, and emptied with the
queue.  They always agree with what is held, so that the two queues answer alike.

## Main definitions

* `CountedQueue` — a queue with the number of its errors and the keys that have been seen.
* `CountedQueue.Accounts` — both agree with what is held.

## Main results

* `CountedQueue.Accounts.add`, `CountedQueue.Accounts.serve` — both agree after a request if they
  did before, and the request is answered as by a queue that has to count.
* `CountedQueue.Accounts.backed` — no token is handed out without an error in the queue.
* `CountedQueue.serveAll_faithful` — **what holds of a queue whatever it has been asked**.
-/

namespace MiddleEnd

/-- A queue with the number of the errors it holds and their keys. -/
structure CountedQueue extends Queue where
  /-- How many errors have been taken since the last flush. -/
  counted : Nat
  /-- Keys of the errors that have been taken; only kept to leave out repetitions. -/
  seen : Finset (Nat × Cause)

namespace CountedQueue

/-- Nothing taken, counted or seen. -/
def empty (config : QueueConfig) : CountedQueue :=
  { Queue.empty config with counted := 0, seen := ∅ }

/-- Whether the count has come to the limit. -/
def limitReached (c : CountedQueue) : Bool :=
  0 < c.config.errorLimit && c.config.errorLimit ≤ c.counted

/-- A token if an error has been counted. -/
def errors? (c : CountedQueue) : Option ErrorReported := ErrorReported.ofCount? c.counted

/-- Offer a diagnostic; says whether it was taken. -/
def add (c : CountedQueue) (p : Placed) : Bool × CountedQueue :=
  if p.isError && c.limitReached then (false, { c with overflowed := true })
  else if p.isError && c.config.deduplicate && decide (p.key ∈ c.seen) then (false, c)
  else
    (true,
      { c with
        held := c.held.push p
        counted := if p.isError then c.counted + 1 else c.counted
        seen := if p.isError && c.config.deduplicate then insert p.key c.seen else c.seen })

/-- Everything held in source order, and the queue without it. -/
def flush (c : CountedQueue) : List Diagnostic × CountedQueue :=
  ((c.held.toList.mergeSort Placed.atOrBefore).map Placed.diagnostic,
    { c with held := #[], counted := 0, seen := ∅, overflowed := false })

/-- An answer together with all that can be asked without a change. -/
def reply (c : CountedQueue) (answer : QueueAnswer) : QueueReply :=
  ⟨answer, c.counted, c.errors?, c.limitReached, c.overflowed⟩

/-- Serve one request. -/
def serve (c : CountedQueue) : QueueRequest → QueueReply × CountedQueue
  | .add p =>
    let (taken, c) := c.add p
    (c.reply (.taken taken), c)
  | .addFrom lines d =>
    let (taken, c) := c.add (lines.place d)
    (c.reply (.taken taken), c)
  | .emit p _ =>
    let (_, c) := c.add p
    (c.reply (.token .reported), c)
  | .peek => (c.reply (.diagnostics c.diagnostics), c)
  | .flush =>
    let (out, c) := c.flush
    (c.reply (.diagnostics out), c)

/-- Serve requests one after the other. -/
def serveAll (c : CountedQueue) : List QueueRequest → List QueueReply × CountedQueue
  | [] => ([], c)
  | request :: rest =>
    let (reply, c) := c.serve request
    let (replies, c) := c.serveAll rest
    (reply :: replies, c)

/-! ### What is kept agrees with what is held -/

/-- The number is that of the errors that are held, and what has been seen are their keys. -/
structure Accounts (c : CountedQueue) : Prop where
  /-- The count is that of the errors that are held. -/
  counted : c.counted = c.held.countP (·.isError)
  /-- The keys are those of the errors that are held; they are only kept where they are used. -/
  seen : c.config.deduplicate = true →
    ∀ key, key ∈ c.seen ↔ ∃ p ∈ c.held, p.isError = true ∧ p.key = key

theorem accounts_empty (config : QueueConfig) : (empty config).Accounts where
  counted := rfl
  seen _ key := by simp [empty, Queue.empty]

/-- An emptied queue is a new one. -/
theorem flush_snd (c : CountedQueue) : c.flush.2 = empty c.config := rfl

namespace Accounts

variable {c : CountedQueue}

theorem limitReached_eq (h : c.Accounts) : c.limitReached = c.toQueue.limitReached := by
  unfold CountedQueue.limitReached Queue.limitReached Queue.errorCount
  rw [h.counted]

theorem reply_eq (h : c.Accounts) (answer : QueueAnswer) :
    c.reply answer = c.toQueue.reply answer := by
  unfold CountedQueue.reply Queue.reply
  rw [h.limitReached_eq]
  unfold CountedQueue.errors? Queue.errors? Queue.errorCount
  rw [h.counted]

/-- What has been seen is what would be repeated. -/
theorem seen_iff (h : c.Accounts) (p : Placed) :
    (p.isError && c.config.deduplicate && decide (p.key ∈ c.seen))
      = (c.config.deduplicate && c.toQueue.holdsRepeatOf p) := by
  rw [Bool.eq_iff_iff]
  simp only [Bool.and_eq_true, decide_eq_true_eq, Queue.holdsRepeatOf_iff_key]
  constructor
  · rintro ⟨⟨hp, hdedup⟩, hseen⟩
    exact ⟨hdedup, hp, (h.seen hdedup p.key).1 hseen⟩
  · rintro ⟨hdedup, hp, hheld⟩
    exact ⟨⟨hp, hdedup⟩, (h.seen hdedup p.key).2 hheld⟩

/-- Both queues take the same, and what is kept agrees with what is held afterwards. -/
theorem add (h : c.Accounts) (p : Placed) :
    ((c.add p).1, (c.add p).2.toQueue) = c.toQueue.add p ∧ (c.add p).2.Accounts := by
  unfold CountedQueue.add Queue.add
  rw [h.limitReached_eq, h.seen_iff]
  split
  · -- Behind the limit the error is dropped.
    exact ⟨rfl, h.counted, h.seen⟩
  split
  · -- A repetition is dropped.
    exact ⟨rfl, h⟩
  refine ⟨rfl, ?_, fun hdedup key => ?_⟩
  · simp only [Array.countP_push, h.counted]
    split <;> rfl
  · simp only [Array.mem_push]
    -- An error adds its key to those that are kept.
    by_cases hp : p.isError = true
    · rw [if_pos (by simpa [hp] using hdedup), Finset.mem_insert, h.seen hdedup]
      constructor
      · rintro (rfl | ⟨x, hx, hkey⟩)
        · exact ⟨p, .inr rfl, hp, rfl⟩
        · exact ⟨x, .inl hx, hkey⟩
      · rintro ⟨x, hx | rfl, herror, hkey⟩
        · exact .inr ⟨x, hx, herror, hkey⟩
        · exact .inl hkey.symm
    · -- Anything else adds no key.
      rw [if_neg (by simp [hp]), h.seen hdedup]
      constructor
      · rintro ⟨x, hx, hkey⟩
        exact ⟨x, .inl hx, hkey⟩
      · rintro ⟨x, hx | rfl, herror, hkey⟩
        · exact ⟨x, hx, herror, hkey⟩
        · exact absurd herror hp

/-- A request is answered as by a queue that has to count, and what is kept agrees afterwards. -/
theorem serve (h : c.Accounts) (request : QueueRequest) :
    c.toQueue.serve request = .ok ((c.serve request).1, (c.serve request).2.toQueue)
      ∧ (c.serve request).2.Accounts := by
  have hadd : ∀ p answer, (c.add p).2.reply answer = (c.toQueue.add p).2.reply answer := by
    intro p answer
    rw [(h.add p).2.reply_eq, ← (h.add p).1]
  cases request with
  | add p =>
    refine ⟨?_, (h.add p).2⟩
    simp only [Queue.serve, CountedQueue.serve, hadd, ← (h.add p).1]
  | addFrom lines d =>
    refine ⟨?_, (h.add _).2⟩
    have hplace : c.toQueue.addFrom lines d = c.toQueue.add (lines.place d) := rfl
    simp only [Queue.serve, CountedQueue.serve, hplace, hadd, ← (h.add _).1]
  | emit p error =>
    refine ⟨?_, (h.add p).2⟩
    have hemit : c.toQueue.emit p = .ok (.reported, (c.toQueue.add p).2) := if_pos error
    simp only [Queue.serve, CountedQueue.serve, hemit, hadd, ← (h.add p).1]
    rfl
  | peek =>
    refine ⟨?_, h⟩
    simp only [Queue.serve, CountedQueue.serve, h.reply_eq]
  | flush => exact ⟨rfl, accounts_empty c.config⟩

/-- What is handed out with an answer is backed by what is held then. -/
theorem backed (h : c.Accounts) (request : QueueRequest) : (c.serve request).1.Backed := by
  have hreply (c' : CountedQueue) {answer : QueueAnswer}
      (hanswer : answer = .token .reported → 0 < c'.counted) : (c'.reply answer).Backed := by
    rintro (htoken | herrors)
    · exact hanswer htoken
    · exact ErrorReported.ofCount?_eq_some_iff.1 herrors
  cases request with
  | emit p error =>
    refine hreply _ fun _ => ?_
    have hpos := Queue.errorCount_add_pos c.toQueue error
    rw [← (h.add p).1] at hpos
    exact (h.add p).2.counted.symm ▸ hpos
  | add p => exact hreply _ nofun
  | addFrom lines d => exact hreply _ nofun
  | peek => exact hreply _ nofun
  | flush => exact hreply _ nofun

end Accounts

/-! ### Whatever is asked -/

/-- A request keeps what is held faithful to what has been offered. -/
theorem faithful_serve {c : CountedQueue} (h : c.Accounts) {config : QueueConfig} {ps : List Placed}
    (hfaithful : Queue.Faithful config ps c.toQueue) (request : QueueRequest) :
    Queue.Faithful config (request.record ps) (c.serve request).2.toQueue := by
  have hadd : ∀ p, Queue.Faithful config (ps ++ [p]) (c.add p).2.toQueue := by
    intro p
    have hstep := hfaithful.add p
    rw [← (h.add p).1] at hstep
    exact hstep
  cases request with
  | add p => exact hadd p
  | addFrom lines d => exact hadd (lines.place d)
  | emit p _ => exact hadd p
  | peek => exact hfaithful
  | flush =>
    have hempty := Queue.faithful_empty config
    rw [← hfaithful.config_eq] at hempty ⊢
    exact hempty

/-- Requests are answered as by a queue that has to count, tokens are backed, what is kept agrees
with what is held, and what is held is faithful to what has been offered. -/
theorem serveAll_accounts {c : CountedQueue} (h : c.Accounts) {config : QueueConfig}
    {ps : List Placed}
    (hfaithful : Queue.Faithful config ps c.toQueue) (requests : List QueueRequest) :
    c.toQueue.serveAll requests = .ok ((c.serveAll requests).1, (c.serveAll requests).2.toQueue)
      ∧ (∀ r ∈ (c.serveAll requests).1, r.Backed)
      ∧ (c.serveAll requests).2.Accounts
      ∧ Queue.Faithful config (requests.foldl QueueRequest.record ps)
        (c.serveAll requests).2.toQueue := by
  induction requests generalizing c ps with
  | nil => exact ⟨rfl, nofun, h, hfaithful⟩
  | cons request rest ih =>
    obtain ⟨hserve, hnext⟩ := h.serve request
    obtain ⟨hrest, hbacked, haccounts, hheld⟩ := ih hnext (faithful_serve h hfaithful request)
    refine ⟨?_, List.forall_mem_cons.2 ⟨h.backed request, hbacked⟩, haccounts, hheld⟩
    simp only [Queue.serveAll, CountedQueue.serveAll, hserve, bind, Except.bind, hrest, pure,
      Except.pure]

/-- **What holds of a queue whatever it has been asked.**  The number of errors and the keys it
keeps agree with what it holds, and it answers as if it counted anew each time; whoever is handed a
token could find an error in it; what it holds is faithful to what has been offered since it was
last emptied; it has a token exactly if there was an error among that; it hands out what it holds in
the order of the source; and once emptied it answers as if it were new. -/
theorem serveAll_faithful (config : QueueConfig) (requests : List QueueRequest) :
    let replies := ((empty config).serveAll requests).1
    let c := ((empty config).serveAll requests).2
    (Queue.empty config).serveAll requests = .ok (replies, c.toQueue)
      ∧ (∀ r ∈ replies, r.Backed)
      ∧ c.Accounts
      ∧ Queue.Faithful config (offered requests) c.toQueue
      ∧ (c.errors? = some .reported ↔ ∃ p ∈ offered requests, p.isError = true)
      ∧ (∃ out : List Placed, c.flush.1 = out.map Placed.diagnostic
        ∧ out.Perm c.held.toList
        ∧ out.Pairwise (fun p p' => p.position.order ≤ p'.position.order)
        ∧ ∀ place, out.filter (·.position == place) = c.held.toList.filter (·.position == place))
      ∧ ∀ more, c.flush.2.serveAll more = (empty config).serveAll more
        ∧ c.toQueue.flush.2.serveAll more = (Queue.empty config).serveAll more := by
  intro replies c
  obtain ⟨hserve, hbacked, haccounts, hfaithful⟩ :=
    serveAll_accounts (accounts_empty config) (Queue.faithful_empty config) requests
  have hconfig : c.config = config := hfaithful.config_eq
  have herrors : c.errors? = c.toQueue.errors? := congrArg ErrorReported.ofCount? haccounts.counted
  refine ⟨hserve, hbacked, haccounts, hfaithful, ?_, Queue.flush_sorted c.toQueue, fun more =>
    ⟨?_, ?_⟩⟩
  · rw [herrors]
    exact hfaithful.errors?_iff
  · rw [flush_snd, hconfig]
  · rw [← hconfig]
    rfl

end CountedQueue

end MiddleEnd
