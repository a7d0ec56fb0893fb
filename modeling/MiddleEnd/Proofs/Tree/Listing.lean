import Mathlib.Data.List.Nodup
import MiddleEnd.Proofs.Tree.Scopes

/-!
# What a section records

A section lists a subtree in preorder, with the end of each part, and leaves the parents of its
nodes behind.  A node that hangs below several others is listed once below each of them, and has the
parent below which it is listed last: the entry with the smallest interval around that place.

## Main definitions

* `LastPlace` — the last place of an element in a list.
* `Tree.ChildAt` — an entry of a listing is a child of an earlier one, and listed below it.
* `Tree.OneParent` — no node is a child twice.
* `Section.Lists` — the entries of a section are those of a subtree, and their intervals are nested.
* `Section.ClosestAround` — the smallest interval around a place.

## Main results

* `Section.Walk.visit_parent` — the parent that a visit leaves a node with is that of its last
  place.
* `Section.closestAround_of_childAt` — the interval of a parent is the closest one around its child.
* `Tree.nodup_preorder_iff` — a listing has no repetition exactly if no node is a child twice.
* `Section.contains_iff` — a section of a fresh tree contains what it lists.
* `Section.ofTree_records` — **what a section and its links record.**
-/

namespace MiddleEnd

/-- The last place of `x` in a list. -/
def LastPlace (l : List NodeId) (k : Nat) (x : NodeId) : Prop := l[k]? = some x ∧ x ∉ l.drop (k + 1)

theorem exists_lastPlace {l : List NodeId} {x : NodeId} (h : x ∈ l) : ∃ k, LastPlace l k x := by
  induction l with
  | nil => cases h
  | cons y l ih =>
    by_cases hx : x ∈ l
    · obtain ⟨k, hk, hlast⟩ := ih hx
      exact ⟨k + 1, hk, hlast⟩
    · obtain rfl : x = y := (List.mem_cons.1 h).resolve_right hx
      exact ⟨0, rfl, hx⟩

theorem Links.parent?_unset (size : Nat) (x : NodeId) : (Links.unset size).parent? x = none := by
  unfold Links.unset Links.parent?
  rw [Array.getElem?_replicate]
  split <;> rfl

namespace Tree

variable {t : Tree}

/-! ### Children in a listing -/

variable (t) in
/-- The entry at `k` in the listing of `root` is a child of the entry at `i`, listed below it. -/
def ChildAt (root : NodeId) (i k : Nat) : Prop :=
  ∃ y c before after, (t.preorder root)[i]? = some y ∧ t.children y = before ++ c :: after
    ∧ k = i + 1 + (before.flatMap t.preorder).length

/-- What is listed between the children of a node and the child `c` ends before `c`. -/
theorem end_le_of_flatMap {cs : List NodeId} {p : Nat} {z : NodeId}
    (h : (cs.flatMap t.preorder)[p]? = some z) :
    p + t.weight z ≤ (cs.flatMap t.preorder).length := by
  induction cs generalizing p with
  | nil => simp at h
  | cons c cs ih =>
    rw [List.flatMap_cons] at h ⊢
    rw [List.length_append]
    by_cases hp : p < (t.preorder c).length
    · rw [List.getElem?_append_left hp] at h
      have hlength := (t.preorder_prefix_drop h).length_le
      rw [List.length_drop] at hlength
      unfold weight
      omega
    · rw [List.getElem?_append_right (Nat.le_of_not_lt hp)] at h
      have hrest := ih h
      omega

/-- An entry of the listing of a child is an entry of the listing of its parent. -/
theorem getElem?_below {y c : NodeId} {before after : List NodeId}
    (h : t.children y = before ++ c :: after) {j : Nat} (hj : j < t.weight c) :
    (t.preorder y)[(before.flatMap t.preorder).length + 1 + j]? = (t.preorder c)[j]? :=
  t.getElem?_preorder_add (getElem?_child h) hj

theorem ChildAt.lt_weight {root : NodeId} {i k : Nat} (h : t.ChildAt root i k) :
    i < k ∧ k < t.weight root := by
  obtain ⟨y, c, before, after, hy, hsplit, rfl⟩ := h
  have hlength := (t.preorder_prefix_drop hy).length_le
  have hchild := (List.getElem?_eq_some_iff.1 (getElem?_child hsplit)).1
  rw [List.length_drop] at hlength
  unfold weight
  omega

theorem ChildAt.mem_children {root : NodeId} {i k : Nat} (h : t.ChildAt root i k) {x : NodeId}
    (hx : (t.preorder root)[k]? = some x) :
    ∃ y, (t.preorder root)[i]? = some y ∧ x ∈ t.children y := by
  obtain ⟨y, c, before, after, hy, hsplit, rfl⟩ := h
  have hget := getElem?_child hsplit
  rw [← t.getElem?_preorder_add hy (List.getElem?_eq_some_iff.1 hget).1, Nat.add_comm _ 1,
    ← Nat.add_assoc, hx] at hget
  obtain rfl := Option.some.inj hget
  exact ⟨y, hy, by simp [hsplit]⟩

/-- In the listing of the whole, a child is listed below its parent as in that of a part. -/
theorem ChildAt.below {y c : NodeId} {before after : List NodeId}
    (hsplit : t.children y = before ++ c :: after) {i k : Nat} (h : t.ChildAt c i k) :
    t.ChildAt y ((before.flatMap t.preorder).length + 1 + i)
      ((before.flatMap t.preorder).length + 1 + k) := by
  have hlt := h.lt_weight
  obtain ⟨z, d, before', after', hz, hsplit', rfl⟩ := h
  exact ⟨z, d, before', after', by rw [getElem?_below hsplit (by omega), hz], hsplit', by omega⟩

/-! ### Repetitions -/

variable (t) in
/-- No node of the subtree of `root` is a child twice: of two nodes, or of one in two places. -/
structure OneParent (root : NodeId) : Prop where
  /-- No node is a child of another one twice. -/
  once : ∀ y ∈ t.preorder root, (t.children y).Nodup
  /-- No node is a child of two. -/
  unique : ∀ y ∈ t.preorder root, ∀ y' ∈ t.preorder root, ∀ x ∈ t.children y,
    x ∈ t.children y' → y = y'

theorem OneParent.of_child {root c : NodeId} (h : t.OneParent root) (hc : c ∈ t.children root) :
    t.OneParent c where
  once y hy := h.once y (t.mem_preorder_of_child hc hy)
  unique y hy y' hy' :=
    h.unique y (t.mem_preorder_of_child hc hy) y' (t.mem_preorder_of_child hc hy')

/-- The subtrees of two children have no node in common. -/
theorem OneParent.disjoint {root c c' : NodeId} (h : t.OneParent root) (hc : c ∈ t.children root)
    (hc' : c' ∈ t.children root) (hne : c ≠ c') {x : NodeId} (hx : x ∈ t.preorder c) :
    x ∉ t.preorder c' := by
  intro hx'
  -- A common node has a common parent, which has a larger number; the root is the largest.
  induction hn : root - x using Nat.strongRecOn generalizing x with
  | ind n ih =>
    have hchild {c c' : NodeId} (hc : c ∈ t.children root) (hc' : c' ∈ t.children root)
        (hne : c ≠ c') (hx : c ∈ t.preorder c') : False := by
      obtain ⟨y, hy, hcy⟩ := exists_parent hx hne
      have hroot :=
        h.unique y (t.mem_preorder_of_child hc' hy) root (t.self_mem_preorder root) c hcy hc
      exact Nat.lt_irrefl root
        (Nat.lt_of_le_of_lt (hroot ▸ t.le_of_mem_preorder hy) (t.child_lt hc'))
    by_cases hxc : x = c
    · exact hchild hc hc' hne (hxc ▸ hx')
    by_cases hxc' : x = c'
    · exact hchild hc' hc (Ne.symm hne) (hxc' ▸ hx)
    obtain ⟨y, hy, hxy⟩ := exists_parent hx hxc
    obtain ⟨y', hy', hxy'⟩ := exists_parent hx' hxc'
    obtain rfl :=
      h.unique y (t.mem_preorder_of_child hc hy) y' (t.mem_preorder_of_child hc' hy') x hxy hxy'
    have hlt : root - y < root - x := Nat.sub_lt_sub_left
      (Nat.lt_of_le_of_lt (t.le_of_mem_preorder hx) (t.child_lt hc)) (t.child_lt hxy)
    exact ih (root - y) (hn ▸ hlt) hy hy' rfl

/-- **A listing has no repetition exactly if no node is a child twice.** -/
theorem nodup_preorder_iff {root : NodeId} : (t.preorder root).Nodup ↔ t.OneParent root := by
  constructor
  · intro hnodup
    refine ⟨fun y hy => ?_, fun y hy y' hy' x hx hx' => parent_unique hnodup hy hx hy' hx'⟩
    have hy := nodup_of_mem hnodup hy
    rw [t.preorder_eq y, List.nodup_cons, List.nodup_flatMap] at hy
    refine List.Pairwise.imp (S := (· ≠ ·)) (fun {c c'} hapart heq => ?_) hy.2.2
    exact hapart (t.self_mem_preorder c) (heq ▸ t.self_mem_preorder c')
  · intro h
    induction root using Nat.strongRecOn with
    | ind root ih =>
      rw [t.preorder_eq root, List.nodup_cons, List.nodup_flatMap]
      refine ⟨fun hmem => ?_, fun c hc => ih c (t.child_lt hc) (h.of_child hc), ?_⟩
      · obtain ⟨c, hc, hroot⟩ := List.mem_flatMap.1 hmem
        exact Nat.lt_irrefl root (Nat.lt_of_le_of_lt (t.le_of_mem_preorder hroot) (t.child_lt hc))
      · refine (h.once root (t.self_mem_preorder root)).imp_of_mem fun {c c'} hc hc' hne => ?_
        exact fun x hx hx' => h.disjoint hc hc' hne hx hx'

end Tree

namespace Section

variable {t : Tree}

/-! ### Parents -/

/-- The siblings leave a node with the parent that the last of them gives it in which it is
listed. -/
theorem Walk.visitAll_parent {cs : List NodeId} {above : Option NodeId} (w : Walk) {k : Nat}
    {x : NodeId} (h : LastPlace (cs.flatMap t.preorder) k x) :
    ∃ before c after j w', cs = before ++ c :: after
      ∧ k = (before.flatMap t.preorder).length + j ∧ LastPlace (t.preorder c) j x
      ∧ w'.links.size = w.links.size
      ∧ (visitAll t w cs above).links.parent? x = (visit t w' c above).links.parent? x := by
  induction cs generalizing w k with
  | nil => simp [LastPlace] at h
  | cons c cs ih =>
    obtain ⟨hk, hlast⟩ := h
    rw [List.flatMap_cons] at hk hlast
    by_cases hlt : k < (t.preorder c).length
    · rw [List.getElem?_append_left hlt] at hk
      rw [List.drop_append_of_le_length hlt, List.mem_append, not_or] at hlast
      exact ⟨[], c, cs, k, w, rfl, by simp, ⟨hk, hlast.1⟩, rfl,
        (visitAll_relinks (visit t w c above) cs above).others x hlast.2⟩
    · have hle := Nat.le_of_not_lt hlt
      rw [List.getElem?_append_right hle] at hk
      rw [List.drop_append, List.drop_eq_nil_of_le (by omega), List.nil_append,
        show k + 1 - (t.preorder c).length = k - (t.preorder c).length + 1 by omega] at hlast
      obtain ⟨before, d, after, j, w', rfl, hj, hd, hsize, hparent⟩ :=
        ih (visit t w c above) ⟨hk, hlast⟩
      refine ⟨c :: before, d, after, j, w', rfl, ?_, hd,
        hsize.trans (visit_relinks w c above).size, hparent⟩
      rw [List.flatMap_cons, List.length_append]
      omega

/-- **The parent that a visit leaves a node with is that of its last place.** -/
theorem Walk.visit_parent (w : Walk) (id : NodeId) (above : Option NodeId) {k : Nat} {x : NodeId}
    (h : LastPlace (t.preorder id) k x) (hsize : x < w.links.size) :
    (k = 0 ∧ (visit t w id above).links.parent? x = above)
      ∨ ∃ i, t.ChildAt id i k ∧ (visit t w id above).links.parent? x = (t.preorder id)[i]? := by
  -- By the number of the node, along the visits of its children.
  induction id using Nat.strongRecOn generalizing w above k with
  | ind id ih =>
    rw [visit_eq]
    change _ ∧ (visitAll t (w.enter id above) (t.children id) (some id)).links.parent? x = _
      ∨ ∃ i, _ ∧ (visitAll t (w.enter id above) (t.children id) (some id)).links.parent? x = _
    obtain ⟨hk, hlast⟩ := h
    rw [t.preorder_eq id] at hk hlast
    cases k with
    -- The node that is visited, and it does not come again.
    | zero =>
      obtain rfl : id = x := by simpa using hk
      refine .inl ⟨rfl, ((visitAll_relinks _ _ _).others id hlast).trans ?_⟩
      show (w.links.setParent id above).parent? id = above
      rw [Links.parent?_setParent _ hsize, if_pos rfl]
    | succ k =>
      -- The last of the children below which the node stands is the one that counts.
      obtain ⟨before, c, after, j, w', hsplit, rfl, hj, hw', hparent⟩ :=
        visitAll_parent (w.enter id above) ⟨hk, hlast⟩
      have hc : c ∈ t.children id := by simp [hsplit]
      have hsize' : x < w'.links.size := by
        rw [hw']
        simpa [Walk.enter] using hsize
      refine .inr ?_
      rw [hparent]
      -- It stands there as the child itself, or further below.
      rcases ih c (t.child_lt hc) w' (some id) hj hsize' with ⟨rfl, habove⟩ | ⟨i, hi, habove⟩
      · refine ⟨0, ⟨id, c, before, after, ?_, hsplit, by omega⟩, ?_⟩
        · rw [t.preorder_eq id, List.getElem?_cons_zero]
        · rw [habove, t.preorder_eq id, List.getElem?_cons_zero]
      · have hlt := hi.lt_weight
        refine ⟨(before.flatMap t.preorder).length + 1 + i, ?_, ?_⟩
        · have hbelow := hi.below hsplit
          rwa [Nat.add_right_comm _ 1 j] at hbelow
        · rw [habove, Tree.getElem?_below hsplit (by omega)]

/-! ### Intervals -/

/-- The interval of the entry at `i` has the later place `k` in it. -/
def Encloses (s : Section) (i k : Nat) : Prop := i < k ∧ k < s.subtreeEnd i

/-- The interval of the entry at `i` is the smallest one around the place `k`. -/
structure ClosestAround (s : Section) (i k : Nat) : Prop where
  /-- The interval is around the place. -/
  encloses : s.Encloses i k
  /-- Any other interval around the place begins no later and ends no earlier. -/
  least : ∀ j, s.Encloses j k → j ≤ i ∧ s.subtreeEnd i ≤ s.subtreeEnd j

/-- The entries are those of the subtree of `root`.  Each entry begins its own subtree, and two of
these are apart or one is inside the other. -/
structure Lists (s : Section) (t : Tree) (root : NodeId) : Prop where
  /-- The entries are the nodes of the subtree in pre-order. -/
  nodes : s.nodes.toList = t.preorder root
  /-- There is an end for each entry. -/
  size_ends : s.ends.size = s.nodes.size
  /-- An entry ends as many places later as its subtree has nodes. -/
  ends : ∀ i x, s.nodes[i]? = some x → s.ends[i]? = some (i + (t.preorder x).length)
  /-- What is listed in between is its subtree. -/
  subtree : ∀ i x, s.nodes[i]? = some x →
    (s.nodes.extract i (s.subtreeEnd i)).toList = t.preorder x
  /-- Of two subtrees the second begins after the end of the first, or ends no later. -/
  laminar : ∀ i j, i ≤ j → j < s.size → s.subtreeEnd i ≤ j ∨ s.subtreeEnd j ≤ s.subtreeEnd i

section

variable (t) (links : Links) (root : NodeId) (outer : Option Section)

theorem getElem?_nodes_ofTree (i : Nat) :
    (ofTree t links root outer).1.nodes[i]? = (t.preorder root)[i]? := by
  rw [← Array.getElem?_toList, nodes_ofTree]

theorem ends_ofTree {i : Nat} {x : NodeId} (hx : (t.preorder root)[i]? = some x) :
    (ofTree t links root outer).1.ends[i]? = some (i + t.weight x) := by
  have hlists := Walk.visit_lists (t := t) ⟨#[], #[], links⟩ root (outer.map Section.root) rfl
  simpa [ofTree] using hlists.after i x hx

theorem subtreeEnd_of_size_le {i : Nat} (hi : t.weight root ≤ i) :
    (ofTree t links root outer).1.subtreeEnd i = 0 := by
  have hlists := Walk.visit_lists (t := t) ⟨#[], #[], links⟩ root (outer.map Section.root) rfl
  have hsize : (ofTree t links root outer).1.ends.size = t.weight root := by
    have hnodes := hlists.size_nodes
    simp only [List.size_toArray, List.length_nil, Nat.zero_add] at hnodes
    exact hlists.size.trans hnodes
  unfold subtreeEnd
  rw [Array.getElem?_eq_none (by omega)]
  rfl

theorem lists_ofTree : (ofTree t links root outer).1.Lists t root := by
  have hnodes := nodes_ofTree t links root outer
  have hget := getElem?_nodes_ofTree t links root outer
  have hlists := Walk.visit_lists (t := t) ⟨#[], #[], links⟩ root (outer.map Section.root) rfl
  refine ⟨hnodes, hlists.size, fun i x hx => ?_, fun i x hx => ?_, fun i j hij hj => ?_⟩
  · rw [hget] at hx
    exact ends_ofTree t links root outer hx
  · rw [hget] at hx
    rw [subtreeEnd_ofTree hx, Array.toList_extract, List.extract_eq_take_drop, hnodes,
      Nat.add_sub_cancel_left]
    exact (List.prefix_iff_eq_take.1 (t.preorder_prefix_drop hx)).symm
  · have hlength : (ofTree t links root outer).1.size = (t.preorder root).length := by
      rw [← hnodes, Array.length_toList]
      rfl
    rw [hlength] at hj
    have hxi := List.getElem?_eq_getElem (show i < (t.preorder root).length by omega)
    have hxj := List.getElem?_eq_getElem hj
    rw [subtreeEnd_ofTree hxi, subtreeEnd_ofTree hxj]
    by_cases hinside : j < i + t.weight (t.preorder root)[i]
    · exact .inr (t.nested hxi hxj hij hinside)
    · exact .inl (Nat.le_of_not_lt hinside)

variable {t}

/-- **The interval of a parent is the closest one around its child.** -/
theorem closestAround_of_childAt {i k : Nat} (h : t.ChildAt root i k) :
    (ofTree t links root outer).1.ClosestAround i k := by
  obtain ⟨y, c, before, after, hy, hsplit, rfl⟩ := h
  have hinside : (before.flatMap t.preorder).length + 1 < t.weight y :=
    (List.getElem?_eq_some_iff.1 (Tree.getElem?_child hsplit)).1
  have hend : (ofTree t links root outer).1.subtreeEnd i = i + t.weight y := subtreeEnd_ofTree hy
  refine ⟨⟨by omega, by omega⟩, fun j hj => ?_⟩
  obtain ⟨hlt, hjend⟩ := hj
  have hjlt : j < t.weight root := by
    refine Nat.lt_of_not_le fun hle => ?_
    rw [subtreeEnd_of_size_le t links root outer hle] at hjend
    exact Nat.not_lt_zero _ hjend
  have hz := List.getElem?_eq_getElem hjlt
  generalize (t.preorder root)[j] = z at hz
  rw [subtreeEnd_ofTree hz] at hjend ⊢
  rw [hend]
  by_cases hle : j ≤ i
  · exact ⟨hle, t.nested hz hy hle (by omega)⟩
  · -- An entry between the two is in the subtree of a child before `c`, and ends before it.
    exfalso
    have hbetween : (before.flatMap t.preorder)[j - (i + 1)]? = some z := by
      have hget := t.getElem?_preorder_add hy (show j - i < t.weight y by omega)
      rw [Nat.add_sub_cancel' (by omega), hz, t.preorder_eq y, hsplit,
        show j - i = j - (i + 1) + 1 by omega, List.getElem?_cons_succ, List.flatMap_append,
        List.getElem?_append_left (by omega)] at hget
      exact hget.symm
    have hzend := Tree.end_le_of_flatMap hbetween
    omega

/-- A node other than the root has the parent below which it is listed last. -/
theorem parent?_ofTree_last (hsize : root < links.size) {x : NodeId} (hx : x ∈ t.preorder root)
    (hne : x ≠ root) :
    ∃ i k y, LastPlace (t.preorder root) k x ∧ t.ChildAt root i k ∧ (t.preorder root)[i]? = some y
      ∧ x ∈ t.children y ∧ (ofTree t links root outer).2.parent? x = some y := by
  obtain ⟨k, hk⟩ := exists_lastPlace hx
  rcases Walk.visit_parent ⟨#[], #[], links⟩ root (outer.map Section.root) hk
    (Nat.lt_of_le_of_lt (t.le_of_mem_preorder hx) hsize) with ⟨rfl, -⟩ | ⟨i, hi, hparent⟩
  · have hroot := hk.1
    rw [t.preorder_eq, List.getElem?_cons_zero] at hroot
    exact (hne (Option.some.inj hroot).symm).elim
  · obtain ⟨y, hy, hxy⟩ := hi.mem_children hk.1
    exact ⟨i, k, y, hk, hi, hy, hxy, hparent.trans hy⟩

/-- The root is listed once, so that it has the parent that it is given. -/
theorem parent?_ofTree_root (hsize : root < links.size) :
    (ofTree t links root outer).2.parent? root = outer.map Section.root := by
  have hlast : LastPlace (t.preorder root) 0 root := by
    rw [t.preorder_eq]
    refine ⟨rfl, fun hmem => ?_⟩
    obtain ⟨c, hc, hroot⟩ := List.mem_flatMap.1 hmem
    exact Nat.lt_irrefl root (Nat.lt_of_le_of_lt (t.le_of_mem_preorder hroot) (t.child_lt hc))
  rcases Walk.visit_parent ⟨#[], #[], links⟩ root (outer.map Section.root) hlast hsize
    with ⟨-, hparent⟩ | ⟨i, hi, -⟩
  · exact hparent
  · exact (Nat.not_lt_zero i hi.lt_weight.1).elim

/-- From a node of the section other than its root the links lead to the root. -/
theorem ancestorWithin?_ofTree (hsize : root < links.size) {x : NodeId} (hx : x ∈ t.preorder root)
    (hne : x ≠ root) {steps : Nat} (hsteps : root ≤ x + steps) :
    (ofTree t links root outer).2.ancestorWithin? (· == root) steps x = some root := by
  induction steps generalizing x with
  | zero => exact (hne (Nat.le_antisymm (t.le_of_mem_preorder hx) hsteps)).elim
  | succ steps ih =>
    obtain ⟨i, k, y, -, -, hy, hxy, hparent⟩ := parent?_ofTree_last links root outer hsize hx hne
    rw [Links.ancestorWithin?, hparent]
    by_cases hroot : y = root
    · simp [hroot]
    · have hsteps : root ≤ y + steps := calc
        root ≤ x + 1 + steps := by rw [Nat.add_right_comm]; exact hsteps
        _ ≤ y + steps := Nat.add_le_add_right (t.child_lt hxy) steps
      simpa [hroot] using ih (List.mem_of_getElem? hy) hroot hsteps

/-- **A section of a fresh tree contains what it lists**: no link leads into it from elsewhere. -/
theorem contains_iff (hsize : root < links.size) (hfresh : ∀ x, links.parent? x = none)
    (id : NodeId) :
    (ofTree t links root outer).1.contains (ofTree t links root outer).2 id = true
      ↔ id ∈ (ofTree t links root outer).1.nodes.toList := by
  rw [nodes_ofTree]
  unfold contains Links.isBelow
  rw [Bool.or_eq_true, beq_iff_eq]
  show id = root ∨ _ ↔ _
  by_cases hid : id ∈ t.preorder root
  · refine iff_of_true ?_ hid
    -- A node of the section is its root, or it has the root among its ancestors.
    by_cases hroot : id = root
    · exact .inl hroot
    · refine .inr (Option.isSome_iff_exists.2 ⟨root, ?_⟩)
      refine ancestorWithin?_ofTree links root outer hsize hid hroot ?_
      rw [size_links_ofTree]
      exact Nat.le_trans (Nat.le_of_lt hsize) (Nat.le_add_left _ _)
  · refine iff_of_false ?_ hid
    -- No other node has a parent, so nothing leads to the root.
    have hparent : (ofTree t links root outer).2.parent? id = none :=
      (parent?_ofTree_of_notMem outer hid).trans (hfresh id)
    rintro (rfl | hsome)
    · exact hid (t.self_mem_preorder id)
    · have hnone (steps : Nat) :
          (ofTree t links root outer).2.ancestorWithin? (· == root) steps id = none := by
        cases steps with
        | zero => rfl
        | succ steps => rw [Links.ancestorWithin?, hparent]
      have hsome' : ((ofTree t links root outer).2.ancestor? (· == root) id).isSome = true := hsome
      unfold Links.ancestor? at hsome'
      rw [hnone] at hsome'
      cases hsome'

/-- **What a section and its links record.**  The section lists the subtree of its root, with an
interval for each part.  A node that is listed has the parent whose interval is the closest one
around its last place; the root goes below the root of the section around it, and no other link
changes.  Where no node is a child twice none is listed twice, and a section of a fresh tree
contains what it lists. -/
theorem ofTree_records (hroot : root < t.size) (hlinks : links.size = t.size) :
    (ofTree t links root outer).1.Lists t root
      ∧ (∀ x ∈ t.preorder root, x ≠ root →
        ∃ i k y, LastPlace (ofTree t links root outer).1.nodes.toList k x
          ∧ (ofTree t links root outer).1.ClosestAround i k
          ∧ (ofTree t links root outer).1.nodes[i]? = some y
          ∧ (ofTree t links root outer).2.parent? x = some y)
      ∧ (ofTree t links root outer).2.parent? root = outer.map Section.root
      ∧ (∀ x, x ∉ t.preorder root →
        (ofTree t links root outer).2.parent? x = links.parent? x)
      ∧ (t.OneParent root → (ofTree t links root outer).1.nodes.toList.Nodup)
      ∧ (links = .unset t.size → ∀ id,
        (ofTree t links root outer).1.contains (ofTree t links root outer).2 id = true
          ↔ id ∈ (ofTree t links root outer).1.nodes.toList) := by
  have hsize : root < links.size := hlinks ▸ hroot
  refine ⟨lists_ofTree t links root outer, fun x hx hne => ?_,
    parent?_ofTree_root links root outer hsize, fun x hx => parent?_ofTree_of_notMem outer hx,
    fun hone => ?_, ?_⟩
  · obtain ⟨i, k, y, hlast, hi, hy, -, hparent⟩ := parent?_ofTree_last links root outer hsize hx hne
    simp only [nodes_ofTree, getElem?_nodes_ofTree]
    exact ⟨i, k, y, hlast, closestAround_of_childAt links root outer hi, hy, hparent⟩
  · rw [nodes_ofTree]
    exact Tree.nodup_preorder_iff.2 hone
  · rintro rfl
    exact contains_iff (.unset t.size) root outer hsize (Links.parent?_unset t.size)

end

end Section

/-- A block of two statements over one and the same number. -/
def Tree.sharesNumber : Tree where
  nodes :=
    #[⟨.literal (.number "1"), .nowhere⟩, ⟨.exprStmt 0, .nowhere⟩, ⟨.exprStmt 0, .nowhere⟩,
      ⟨.block [1, 2], .nowhere⟩]
  children_lt := by decide

/-- The number is listed twice and has the second statement for its parent.  Listed as a section of
its own inside the block, the first statement takes the number back. -/
theorem Section.sharesNumber_records :
    let t := Tree.sharesNumber
    let whole := ofTree t (.unset 4) 3 none
    let part := ofTree t whole.2 1 (some whole.1)
    (3 < t.size ∧ (Links.unset 4).size = t.size ∧ 1 < t.size ∧ whole.2.size = t.size)
      ∧ whole.1.nodes.toList = [3, 1, 0, 2, 0]
      ∧ (∃ i k y, LastPlace whole.1.nodes.toList k 0 ∧ whole.1.ClosestAround i k
        ∧ whole.1.nodes[i]? = some y ∧ whole.2.parent? 0 = some y)
      ∧ whole.2.parent? 0 = some 2 ∧ whole.2.parent? 3 = none
      ∧ (∀ id, whole.1.contains whole.2 id = true ↔ id ∈ whole.1.nodes.toList)
      ∧ t.OneParent 1 ∧ part.1.nodes.toList.Nodup
      ∧ part.2.parent? 1 = some 3 ∧ part.2.parent? 0 = some 1 ∧ part.2.parent? 2 = some 3 := by
  have hsize : (ofTree Tree.sharesNumber (.unset 4) 3 none).2.size = Tree.sharesNumber.size :=
    size_links_ofTree none
  have hone : Tree.sharesNumber.OneParent 1 := Tree.nodup_preorder_iff.1 (by decide +kernel)
  obtain ⟨hlists, hparents, hroot, -, -, hcontains⟩ :=
    ofTree_records (t := Tree.sharesNumber) (.unset 4) 3 none (by decide) rfl
  obtain ⟨-, -, hroot', hothers, hnodup, -⟩ :=
    ofTree_records (t := Tree.sharesNumber) _ 1
      (some (ofTree Tree.sharesNumber (.unset 4) 3 none).1) (by decide) hsize
  have hnumber : (0 : NodeId) ∈ Tree.sharesNumber.preorder 3 := by decide +kernel
  refine ⟨⟨by decide, rfl, by decide, hsize⟩, ?_, hparents 0 hnumber (by decide), by decide +kernel,
    hroot, hcontains rfl, hone, hnodup hone, hroot', by decide +kernel, ?_⟩
  · rw [hlists.nodes]
    decide +kernel
  · rw [hothers 2 (by decide +kernel)]
    decide +kernel

end MiddleEnd
