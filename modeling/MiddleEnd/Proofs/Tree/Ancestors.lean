import MiddleEnd.Proofs.Resolution

/-!
# Ancestors in a section

The parent links of a resolved section lead from each node to the root.  The search for an ancestor
gives up after as many steps as there are links; here it never does, so that the nearest ancestor of
a node is found from its parent.

## Main definitions

* `Links.Rooted` — the links of the nodes below a root lead to it.
* `Links.Ascends` — links lead from smaller to larger numbers.

## Main results

* `Links.Ascends.ancestor?_eq`, `Links.Rooted.ancestor?_child` — the nearest ancestor of a node,
  from its parent.
* `Resolution.rooted_of_ofSection` — the links of a resolved section are rooted.
-/

namespace MiddleEnd

/-- A node below `root` other than it is the child of a node below `root`. -/
theorem Tree.exists_parent {t : Tree} {root x : NodeId} (hx : x ∈ t.preorder root)
    (hne : x ≠ root) : ∃ y ∈ t.preorder root, x ∈ t.children y := by
  induction root using Nat.strongRecOn with
  | ind root ih =>
    rcases t.mem_preorder.1 hx with rfl | ⟨c, hc, hx⟩
    · exact (hne rfl).elim
    · by_cases hxc : x = c
      · exact ⟨root, t.self_mem_preorder root, hxc ▸ hc⟩
      · obtain ⟨y, hy, hxy⟩ := ih c (t.child_lt hc) hx hxc
        exact ⟨y, t.mem_preorder_of_child hc hy, hxy⟩

namespace Links

/-- The link of each node below `root` is its parent, and the root has none. -/
structure Rooted (l : Links) (t : Tree) (root : NodeId) : Prop where
  /-- The root has no parent. -/
  root_parent : l.parent? root = none
  /-- Every other node of the tree has the parent that it has there. -/
  parent : ∀ y ∈ t.preorder root, ∀ x ∈ t.children y, l.parent? x = some y

variable {l : Links} {t : Tree} {root : NodeId}

theorem Rooted.parent_of_mem (h : l.Rooted t root) {x a : Nat} (hx : x ∈ t.preorder root)
    (ha : l.parent? x = some a) : a ∈ t.preorder root ∧ x < a := by
  by_cases hroot : x = root
  · rw [hroot, h.root_parent] at ha
    cases ha
  · obtain ⟨y, hy, hxy⟩ := Tree.exists_parent hx hroot
    obtain rfl := Option.some.inj ((h.parent y hy x hxy).symm.trans ha)
    exact ⟨hy, t.child_lt hxy⟩

theorem lt_size_of_parent {x a : Nat} (h : l.parent? x = some a) : x < l.size := by
  unfold parent? at h
  refine Nat.lt_of_not_le fun hle => ?_
  rw [Array.getElem?_eq_none hle] at h
  cases h

/-- Every link of a node of `S` leads to a node of `S` with a larger number. -/
def Ascends (l : Links) (S : NodeId → Prop) : Prop :=
  ∀ x a, S x → l.parent? x = some a → S a ∧ x < a

theorem Rooted.ascends (h : l.Rooted t root) : l.Ascends (· ∈ t.preorder root) :=
  fun _ _ hx ha => h.parent_of_mem hx ha

/-- Steps that suffice make no difference: nodes with links have numbers below the size. -/
theorem Ascends.ancestorWithin?_congr {S : NodeId → Prop} (h : l.Ascends S) (test : NodeId → Bool)
    {m n x : Nat} (hx : S x) (hm : l.size - x ≤ m) (hn : l.size - x ≤ n) :
    l.ancestorWithin? test m x = l.ancestorWithin? test n x := by
  induction m generalizing n x with
  | zero =>
    have hnone : l.parent? x = none := by
      cases ha : l.parent? x with
      | none => rfl
      | some a =>
        have hlt := lt_size_of_parent ha
        omega
    cases n with
    | zero => rfl
    | succ n => simp [ancestorWithin?, hnone]
  | succ m ih =>
    cases ha : l.parent? x with
    | none => cases n <;> simp [ancestorWithin?, ha]
    | some a =>
      have hlt := lt_size_of_parent ha
      obtain ⟨hmem, hxa⟩ := h x a hx ha
      have hxa : x < a := hxa
      cases n with
      | zero => omega
      | succ n =>
        simp only [ancestorWithin?, ha]
        rw [ih (n := n) hmem (by omega) (by omega)]

/-- **The nearest ancestor of a node is where its link leads, or the nearest ancestor of that.** -/
theorem Ascends.ancestor?_eq {S : NodeId → Prop} (h : l.Ascends S) (test : NodeId → Bool) {x : Nat}
    (hx : S x) : l.ancestor? test x
      = (l.parent? x).bind fun a => if test a then some a else l.ancestor? test a := by
  cases ha : l.parent? x with
  | none => unfold ancestor?; cases l.size <;> simp [ancestorWithin?, ha]
  | some a =>
    have hlt : x < l.size := lt_size_of_parent ha
    obtain ⟨hmem, hxa⟩ := h x a hx ha
    have hxa : x < a := hxa
    obtain ⟨n, hn⟩ : ∃ n, l.size = n + 1 := ⟨l.size - 1, by omega⟩
    have hstep : l.ancestorWithin? test (n + 1) x
        = if test a then some a else l.ancestorWithin? test n a := by
      simp only [ancestorWithin?, ha]
    unfold ancestor?
    rw [hn, hstep, Option.bind_some,
      h.ancestorWithin?_congr test hmem (m := n) (n := n + 1) (by omega) (by omega)]

/-- **The nearest ancestor of a node is its parent or the nearest ancestor of that.** -/
theorem Rooted.ancestor?_child (h : l.Rooted t root) (test : NodeId → Bool) {x y : NodeId}
    (hy : y ∈ t.preorder root) (hx : x ∈ t.children y) :
    l.ancestor? test x = if test y then some y else l.ancestor? test y := by
  rw [h.ascends.ancestor?_eq test (t.mem_preorder_trans hy (t.child_mem_preorder hx)),
    h.parent y hy x hx, Option.bind_some]

/-- An ancestor that is found is below the root. -/
theorem Rooted.mem_of_ancestor? (h : l.Rooted t root) {test : NodeId → Bool} {x a : NodeId}
    (hx : x ∈ t.preorder root) (ha : l.ancestor? test x = some a) :
    a ∈ t.preorder root ∧ test a = true := by
  unfold ancestor? at ha
  generalize l.size = steps at ha
  induction steps generalizing x with
  | zero => cases ha
  | succ steps ih =>
    unfold ancestorWithin? at ha
    cases hparent : l.parent? x with
    | none => simp [hparent] at ha
    | some above =>
      simp only [hparent] at ha
      have habove := (h.parent_of_mem hx hparent).1
      split at ha
      · next htest =>
        obtain rfl := Option.some.inj ha
        exact ⟨habove, htest⟩
      · exact ih habove ha

end Links

/-- The links of a resolved section without missing identifiers are rooted. -/
theorem Resolution.rooted_of_ofSection {t : Tree} {links : Links} {root : NodeId} {r : Resolution}
    (h : ofSection t (Section.ofTree t links root none).2 (Section.ofTree t links root none).1 none
      = .ok r) (hmissing : r.missing = []) (hnodup : (t.preorder root).Nodup) :
    (Section.ofTree t links root none).2.Rooted t root where
  root_parent := by
    have hroot := (Section.Walk.visit_linksBelow (t := t) ⟨#[], #[], links⟩ root none hnodup).root
    by_cases hsize : root < (Section.ofTree t links root none).2.size
    · exact hroot hsize
    · unfold Links.parent?
      rw [Array.getElem?_eq_none (Nat.le_of_not_lt hsize)]
      rfl
  parent y hy x hx := by
    have hmem := t.mem_preorder_trans hy (t.child_mem_preorder hx)
    have hne : x ≠ root :=
      Nat.ne_of_lt (Nat.lt_of_lt_of_le (t.child_lt hx) (t.le_of_mem_preorder hy))
    exact Section.parent?_ofTree hnodup hy hx (hasParent_of_ofSection h hmissing hnodup hmem hne)

end MiddleEnd
