import MiddleEnd.Proofs.Runs
import MiddleEnd.Proofs.Typing.Judgement

/-!
# How typing fills its table

Types that are done stay as they are, and a node that is open stays open until its rule is through.
The bound on the number of open nodes is never reached, because opening a node leaves fewer nodes
that wait.

## Main definitions

* `Typing.Extends` — what a later table keeps of an earlier one.
* `Typing.Ready` — a table from which nodes can be typed: what is done is well typed, and fewer
  nodes wait than may be opened.
* `Typing.Advances` — a step from one table that is ready to a later one.
* `Typing.marked` — the table with the progress of one node changed.

## Main results

* `Typing.report_advances`, `Typing.record_advances` — what is reported and what is recorded.
* `Typing.ready_opened` — a node can be opened wherever one waits.
* `Typing.advances_closed` — the table is ready again when the rule of the node is through.
-/

namespace MiddleEnd.Typing

open Runs

/-! ### Tables over time -/

/-- What a later table keeps of an earlier one. -/
structure Extends (a b : Typing) : Prop where
  /-- There is room for as many nodes. -/
  size : b.progress.size = a.progress.size
  /-- What has a type keeps it. -/
  done : ∀ x τ, a.Done x τ → b.Done x τ
  /-- What is open stays open. -/
  active : ∀ x, a.progressOf x = .active → b.progressOf x = .active
  /-- What waits by now did so before. -/
  waiting : ∀ x, b.progressOf x = .waiting → a.progressOf x = .waiting
  /-- The values of what was done have not changed. -/
  literals : ∀ x τ, a.Done x τ → b.literal? x = a.literal? x
  /-- Problems do not go away. -/
  problems : b.problems = #[] → a.problems = #[]

theorem Extends.refl (a : Typing) : Extends a a :=
  ⟨rfl, fun _ _ h => h, fun _ h => h, fun _ h => h, fun _ _ _ => rfl, fun h => h⟩

theorem Extends.trans {a b d : Typing} (h : Extends a b) (h' : Extends b d) : Extends a d where
  size := h'.size.trans h.size
  done x τ hx := h'.done x τ (h.done x τ hx)
  active x hx := h'.active x (h.active x hx)
  waiting x hx := h.waiting x (h'.waiting x hx)
  literals x τ hx := (h'.literals x τ (h.done x τ hx)).trans (h.literals x τ hx)
  problems hb := h.problems (h'.problems hb)

/-- Number of nodes that nobody has asked for. -/
def waitingCount (s : Typing) : Nat :=
  (List.range s.progress.size).countP fun x => s.progressOf x = .waiting

theorem Extends.waitingCount_le {a b : Typing} (h : Extends a b) :
    b.waitingCount ≤ a.waitingCount := by
  unfold waitingCount
  rw [h.size]
  refine List.countP_mono_left fun x _ hx => ?_
  simp only [decide_eq_true_eq] at hx ⊢
  exact h.waiting x hx

theorem countP_lt_countP {α : Type} {p q : α → Bool} {l : List α} (h : ∀ x ∈ l, p x → q x) {a : α}
    (ha : a ∈ l) (hp : p a = false) (hq : q a = true) : l.countP p < l.countP q := by
  induction l with
  | nil => cases ha
  | cons b l ih =>
    have htail : ∀ x ∈ l, p x → q x := fun x hx => h x (.tail _ hx)
    rcases List.mem_cons.1 ha with rfl | ha
    · rw [List.countP_cons_of_neg (by simp [hp]), List.countP_cons_of_pos hq]
      exact Nat.lt_succ_of_le (List.countP_mono_left htail)
    · have hlt := ih htail ha
      by_cases hb : p b
      · rw [List.countP_cons_of_pos hb, List.countP_cons_of_pos (h b (.head _) hb)]
        exact Nat.succ_lt_succ hlt
      · rw [List.countP_cons_of_neg hb]
        refine Nat.lt_of_lt_of_le hlt ?_
        rw [List.countP_cons]
        exact Nat.le_add_right _ _

/-- What is done is well typed, values belong to the literals that spell them, and fewer nodes wait
than may be opened. -/
structure Ready (c : Context) (depth : Nat) (s : Typing) : Prop where
  /-- There is room for every node of the tree. -/
  size : s.progress.size = c.tree.size
  /-- There are fewer nodes waiting than may be opened. -/
  waiting : s.waitingCount < depth
  /-- Values are those of literals. -/
  literals : ∀ x v, s.literal? x = some v →
    ∃ lit, c.tree.shape x = .literal lit ∧ lit.value? = some v
  /-- Unless a problem was found, what is done has the type that its parts give it. -/
  wellTyped : s.problems = #[] → ∀ x τ, s.Done x τ →
    HasType c s x (c.tree.shape x) τ ∧ τ.isError = false

/-- A table that is ready after one that was. -/
structure Advances (c : Context) (depth : Nat) (s s' : Typing) : Prop where
  /-- What was done stays done. -/
  extends_ : Extends s s'
  /-- The table is ready. -/
  ready : Ready c depth s'

theorem Advances.trans {c : Context} {depth : Nat} {s s₁ s₂ : Typing}
    (h : Advances c depth s s₁) (h' : Advances c depth s₁ s₂) : Advances c depth s s₂ :=
  ⟨h.extends_.trans h'.extends_, h'.ready⟩

theorem Ready.refl {c : Context} {depth : Nat} {s : Typing} (h : Ready c depth s) :
    Advances c depth s s :=
  ⟨.refl s, h⟩

/-! ### Steps -/

variable {c : Context} {depth : Nat} {s s' : Typing}

theorem extends_reported (s : Typing) (p : TypeProblem) :
    Extends s { s with problems := s.problems.push p } :=
  ⟨rfl, fun _ _ h => h, fun _ h => h, fun _ h => h, fun _ _ _ => rfl, fun h => by simp at h⟩

/-- While the node of a literal is open, no node that is done changes its literal. -/
theorem extends_recorded {id : NodeId} (hid : s.progressOf id = .active) (v : LiteralValue) :
    Extends s { s with literals := s.literals.insert id v } := by
  refine ⟨rfl, fun _ _ h => h, fun _ h => h, fun _ h => h, fun x τ hx => ?_, fun h => h⟩
  have hne : id ≠ x := by
    rintro rfl
    unfold Done at hx
    rw [hid] at hx
    cases hx
  show (s.literals.insert id v)[x]? = s.literal? x
  rw [Std.TreeMap.getElem?_insert, if_neg (by simpa using hne)]
  rfl

theorem report_advances {p : TypeProblem} {u : Unit} (h : report p s = .ok (u, s'))
    (hs : Ready c depth s) : Advances c depth s s' ∧ s'.problems ≠ #[] := by
  obtain rfl := modify_ok.1 h
  have hne : s.problems.push p ≠ #[] := by simp
  exact ⟨⟨extends_reported s p, hs.size, hs.waiting, hs.literals, fun h => (hne h).elim⟩, hne⟩

/-- A rule that reports a problem is sound whatever it says of tables without problems. -/
theorem Advances.reported {P : Prop} {p : TypeProblem} {u : Unit} {s₁ : Typing}
    (hs : Advances c depth s s₁) (h : report p s₁ = .ok (u, s')) :
    Advances c depth s s' ∧ (s'.problems = #[] → P) := by
  obtain ⟨hreport, hne⟩ := report_advances h hs.ready
  exact ⟨hs.trans hreport, fun hp => (hne hp).elim⟩

theorem Advances.refused {P : Prop} {p : TypeProblem} {τ : Ty} {s₁ : Typing}
    (hs : Advances c depth s s₁) (h : refuse p s₁ = .ok (τ, s')) :
    Advances c depth s s' ∧ (s'.problems = #[] → P) := by
  obtain ⟨_, s₂, hreport, h⟩ := bind_ok.1 h
  obtain ⟨-, rfl⟩ := pure_ok.1 h
  exact hs.reported hreport

theorem record_advances {id : NodeId} {lit : Literal} {v : LiteralValue} {u : Unit}
    (hshape : c.tree.shape id = .literal lit) (hv : lit.value? = some v)
    (h : record id v s = .ok (u, s')) (hs : Ready c depth s) (hid : s.progressOf id = .active) :
    Advances c depth s s' ∧ s'.literal? id = some v := by
  obtain rfl := modify_ok.1 h
  have hextends := extends_recorded hid v
  refine ⟨⟨hextends, hs.size, hs.waiting, fun x w hw => ?_, fun hp x τ hx => ?_⟩, by
    simp [literal?]⟩
  · change (s.literals.insert id v)[x]? = some w at hw
    rw [Std.TreeMap.getElem?_insert] at hw
    split at hw
    · next heq =>
      obtain rfl : id = x := by simpa using heq
      obtain rfl := Option.some.inj hw
      exact ⟨lit, hshape, hv⟩
    · exact hs.literals x w hw
  · obtain ⟨htype, herror⟩ := hs.wellTyped hp x τ hx
    exact ⟨htype.mono hextends.done (hextends.literals x τ hx), herror⟩

/-! ### Opening and closing a node -/

/-- The table with the progress of one node changed. -/
def marked (s : Typing) (id : NodeId) (p : Progress) : Typing :=
  { s with progress := s.progress.setIfInBounds id p }

theorem mark_ok {id : NodeId} {p : Progress} {u : Unit} :
    mark id p s = .ok (u, s') ↔ s' = s.marked id p :=
  modify_ok

theorem progressOf_marked_self {id : NodeId} (hid : id < s.progress.size) (p : Progress) :
    (s.marked id p).progressOf id = p := by
  simp [marked, progressOf, hid]

theorem progressOf_marked_of_ne {id x : NodeId} (hx : x ≠ id) (p : Progress) :
    (s.marked id p).progressOf x = s.progressOf x := by
  unfold progressOf marked
  rw [Array.getElem?_setIfInBounds_ne (Ne.symm hx)]

@[simp] theorem size_marked (id : NodeId) (p : Progress) :
    (s.marked id p).progress.size = s.progress.size := by
  simp [marked]

/-- Opening a node keeps everything. -/
theorem extends_opened {id : NodeId} (hsize : id < s.progress.size)
    (hwaiting : s.progressOf id = .waiting) : Extends s (s.marked id .active) := by
  have hne : ∀ x p, s.progressOf x = p → p ≠ .waiting → x ≠ id := by
    rintro x p hx hp rfl
    exact hp (hx.symm.trans hwaiting)
  have hself := progressOf_marked_self hsize .active
  exact
    { size := size_marked id .active
      done := fun x τ hx => (progressOf_marked_of_ne (hne x _ hx (by simp)) _).trans hx
      active := fun x hx => (progressOf_marked_of_ne (hne x _ hx (by simp)) _).trans hx
      waiting := fun x hx => by
        by_cases hxid : x = id
        · rw [hxid, hself] at hx
          cases hx
        · rwa [progressOf_marked_of_ne hxid] at hx
      literals := fun _ _ _ => rfl
      problems := fun h => h }

/-- The node that is opened no longer waits, which pays for one level of depth. -/
theorem waitingCount_opened {id : NodeId} (hsize : id < s.progress.size)
    (hwaiting : s.progressOf id = .waiting) (hs : s.waitingCount < depth + 1) :
    (s.marked id .active).waitingCount < depth := by
  have hextends := extends_opened hsize hwaiting
  have hlt : (s.marked id .active).waitingCount < s.waitingCount := by
    unfold waitingCount
    rw [size_marked]
    refine countP_lt_countP (fun x _ hx => ?_) (List.mem_range.2 hsize) ?_ ?_
    · simp only [decide_eq_true_eq] at hx ⊢
      exact hextends.waiting x hx
    · simp [progressOf_marked_self hsize]
    · simp [hwaiting]
  exact Nat.lt_of_lt_of_le hlt (Nat.le_of_lt_succ hs)

/-- Opening a node leaves a table that is ready. -/
theorem ready_opened {id : NodeId} (hs : Ready c (depth + 1) s) (hid : id < c.tree.size)
    (hwaiting : s.progressOf id = .waiting) :
    Extends s (s.marked id .active) ∧ Ready c depth (s.marked id .active) := by
  have hsize : id < s.progress.size := hs.size ▸ hid
  have hself := progressOf_marked_self hsize .active
  have hextends := extends_opened hsize hwaiting
  refine ⟨hextends, (size_marked id .active).trans hs.size,
    waitingCount_opened hsize hwaiting hs.waiting, hs.literals, fun hp x τ hx => ?_⟩
  have hxid : x ≠ id := by
    rintro rfl
    unfold Done at hx
    rw [hself] at hx
    cases hx
  have hx : s.Done x τ := by rwa [Done, progressOf_marked_of_ne hxid] at hx
  obtain ⟨htype, herror⟩ := hs.wellTyped hp x τ hx
  exact ⟨htype.mono hextends.done rfl, herror⟩

/-- A node is done once its rule is through. It was open while the rule ran, so that marking it
changes nothing that the rule has left done. -/
theorem extends_closed {id : NodeId} {s₂ : Typing} (hsize : id < s.progress.size)
    (hwaiting : s.progressOf id = .waiting) (hrule : Extends (s.marked id .active) s₂) (σ : Ty) :
    Extends s (s₂.marked id (.done σ)) ∧ (s₂.marked id (.done σ)).Done id σ
      ∧ s₂.progressOf id = .active
      ∧ ∀ x τ, s₂.Done x τ → (s₂.marked id (.done σ)).Done x τ := by
  have hopen := extends_opened hsize hwaiting
  have hsize₂ : id < s₂.progress.size := by rwa [hrule.size, size_marked]
  have hself : (s₂.marked id (.done σ)).progressOf id = .done σ := progressOf_marked_self hsize₂ _
  have hactive : s₂.progressOf id = .active := hrule.active id (progressOf_marked_self hsize _)
  -- The rule has left the node open, whatever it has typed on the way.
  have hne : ∀ x τ, s₂.Done x τ → x ≠ id := by
    rintro x τ hx rfl
    unfold Done at hx
    rw [hactive] at hx
    cases hx
  have hdone : ∀ x τ, s₂.Done x τ → (s₂.marked id (.done σ)).Done x τ := fun x τ hx =>
    (progressOf_marked_of_ne (hne x τ hx) _).trans hx
  refine ⟨?_, hself, hactive, hdone⟩
  exact
    { size := (size_marked id _).trans (hrule.size.trans hopen.size)
      done := fun x τ hx => hdone x τ (hrule.done x τ (hopen.done x τ hx))
      active := fun x hx => by
        have hxid : x ≠ id := by
          rintro rfl
          rw [hwaiting] at hx
          cases hx
        rw [progressOf_marked_of_ne hxid]
        exact hrule.active x (hopen.active x hx)
      waiting := fun x hx => by
        have hxid : x ≠ id := by
          rintro rfl
          rw [hself] at hx
          cases hx
        rw [progressOf_marked_of_ne hxid] at hx
        exact hopen.waiting x (hrule.waiting x hx)
      literals := fun x τ hx => hrule.literals x τ (hopen.done x τ hx)
      problems := fun hp => hopen.problems (hrule.problems hp) }

/-- The table is ready again when a rule is through. -/
theorem advances_closed {id : NodeId} {σ : Ty} {s₂ : Typing} (hs : Ready c (depth + 1) s)
    (hid : id < c.tree.size) (hwaiting : s.progressOf id = .waiting)
    (hrule : Advances c depth (s.marked id .active) s₂)
    (htype : s₂.problems = #[] → HasType c s₂ id (c.tree.shape id) σ ∧ σ.isError = false) :
    Advances c (depth + 1) s (s₂.marked id (.done σ)) ∧ (s₂.marked id (.done σ)).Done id σ := by
  obtain ⟨hextends, hready⟩ := hrule
  obtain ⟨hall, hself, -, hdone⟩ := extends_closed (hs.size ▸ hid) hwaiting hextends σ
  refine ⟨⟨hall, (size_marked id _).trans hready.size, ?_, hready.literals, fun hp x τ hx => ?_⟩,
    hself⟩
  · exact Nat.lt_of_le_of_lt hall.waitingCount_le hs.waiting
  · by_cases hxid : x = id
    · subst hxid
      obtain rfl : σ = τ := Done.unique hself hx
      obtain ⟨hσ, herror⟩ := htype hp
      exact ⟨hσ.mono hdone rfl, herror⟩
    · have hx : s₂.Done x τ := by rwa [Done, progressOf_marked_of_ne hxid] at hx
      obtain ⟨hτ, herror⟩ := hready.wellTyped hp x τ hx
      exact ⟨hτ.mono hdone rfl, herror⟩

end MiddleEnd.Typing
