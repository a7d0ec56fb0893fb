import MiddleEnd.Proofs.Tree.Ancestors

/-!
# Positions and scopes

Where a node stands in the listing of a section, and which scopes are around it.  Both are read off
the tree alone; the links of a section that lists no node twice lead through the same scopes.

## Main definitions

* `Tree.position` — the position of a node in the listing of a section.
* `Tree.scopesAround` — the scopes that a node is inside of, innermost first.
* `Tree.scopeOf?` — the innermost of them.
* `Links.Follow` — the links of the nodes below a root are their parents.

## Main results

* `Tree.position_add` — the position of a part, counted from the whole.
* `Tree.mem_preorder_iff_position` — a part lies between the two ends of the whole.
* `Tree.siblings_apart` — the subtrees of siblings follow each other.
* `Tree.scopesAround_child` — the scopes around a node, from those around its parent.
* `Tree.scopesAround_append` — the scopes around a node, from those around a scope that it is in.
* `Links.Follow.enclosingScope?_eq` — the scope that the links lead to is the innermost one.
-/

namespace MiddleEnd

namespace Tree

variable {t : Tree} {root : NodeId}

/-- What passes from each node to its children holds of all nodes below the root. -/
theorem preorder_induction {P : (x : NodeId) → x ∈ t.preorder root → Prop}
    (hroot : P root (t.self_mem_preorder root))
    (hchild : ∀ y (hy : y ∈ t.preorder root), P y hy → ∀ x (hx : x ∈ t.children y),
      P x (t.mem_preorder_trans hy (t.child_mem_preorder hx))) (x : NodeId)
    (hx : x ∈ t.preorder root) : P x hx := by
  induction root using Nat.strongRecOn with
  | ind root ih =>
    rcases t.mem_preorder.1 hx with rfl | ⟨c, hc, hxc⟩
    · exact hroot
    · refine ih c (t.child_lt hc) (P := fun x hx => P x (t.mem_preorder_of_child hc hx))
        (hchild root (t.self_mem_preorder root) hroot c hc) ?_ hxc
      intro y hy
      exact hchild y (t.mem_preorder_of_child hc hy)

/-- The listing of a part has no repetition if that of the whole has none. -/
theorem nodup_of_mem (hnodup : (t.preorder root).Nodup) {x : NodeId} (hx : x ∈ t.preorder root) :
    (t.preorder x).Nodup := by
  obtain ⟨k, hk⟩ := List.mem_iff_getElem?.1 hx
  exact (hnodup.sublist (List.drop_sublist k _)).sublist (t.preorder_prefix_drop hk).sublist

/-! ### Positions -/

variable (t) in
/-- The position of a node in the listing of the section of `root`. -/
def position (root x : NodeId) : Nat := (t.preorder root).idxOf x

theorem getElem?_position {x : NodeId} (hx : x ∈ t.preorder root) :
    (t.preorder root)[t.position root x]? = some x := by
  have hlt := List.idxOf_lt_length_of_mem hx
  unfold position
  rw [List.getElem?_eq_getElem hlt, List.getElem_idxOf hlt]

theorem position_eq (hnodup : (t.preorder root).Nodup) {k : Nat} {x : NodeId}
    (hk : (t.preorder root)[k]? = some x) : t.position root x = k := by
  have hget := getElem?_position (List.mem_of_getElem? hk)
  have hlt := (List.getElem?_eq_some_iff.1 hk).1
  exact ((List.getElem?_inj hlt hnodup).1 (hk.trans hget.symm)).symm

theorem position_lt_weight {x : NodeId} (hx : x ∈ t.preorder root) :
    t.position root x < t.weight root := List.idxOf_lt_length_of_mem hx

theorem position_inj {x y : NodeId} (hx : x ∈ t.preorder root)
    (h : t.position root x = t.position root y) : x = y := by
  have hlt := position_lt_weight hx
  rw [h] at hlt
  have hy : y ∈ t.preorder root := List.idxOf_lt_length_iff.1 hlt
  have hget := getElem?_position hx
  rw [h, getElem?_position hy] at hget
  exact (Option.some.inj hget).symm

/-- **The position of a part is that of the whole and the position inside it.** -/
theorem position_add (hnodup : (t.preorder root).Nodup) {b x : NodeId} (hb : b ∈ t.preorder root)
    (hx : x ∈ t.preorder b) : t.position root x = t.position root b + t.position b x := by
  apply position_eq hnodup
  rw [t.getElem?_preorder_add (getElem?_position hb) (position_lt_weight hx)]
  exact getElem?_position hx

/-- **A node is inside another one if it stands between the two ends of that.** -/
theorem mem_preorder_iff_position (hnodup : (t.preorder root).Nodup) {b x : NodeId}
    (hb : b ∈ t.preorder root) (hx : x ∈ t.preorder root) :
    x ∈ t.preorder b ↔ t.position root b ≤ t.position root x
      ∧ t.position root x < t.position root b + t.weight b := by
  constructor
  · intro h
    have hlt := position_lt_weight h
    rw [position_add hnodup hb h]
    omega
  · rintro ⟨hle, hlt⟩
    have hadd := t.getElem?_preorder_add (getElem?_position hb)
      (j := t.position root x - t.position root b) (by omega)
    rw [Nat.add_sub_cancel' hle, getElem?_position hx] at hadd
    exact List.mem_of_getElem? hadd.symm

/-- What begins inside another part ends inside it. -/
theorem end_le_end (hnodup : (t.preorder root).Nodup) {b x : NodeId} (hb : b ∈ t.preorder root)
    (hx : x ∈ t.preorder b) :
    t.position root x + t.weight x ≤ t.position root b + t.weight b := by
  have hmem := t.mem_preorder_trans hb hx
  have hplace := (mem_preorder_iff_position hnodup hb hmem).1 hx
  exact t.nested (getElem?_position hb) (getElem?_position hmem) hplace.1 hplace.2

/-- A child follows its parent and the subtrees of the children before it. -/
theorem getElem?_child {y c : NodeId} {before after : List NodeId}
    (h : t.children y = before ++ c :: after) :
    (t.preorder y)[(before.flatMap t.preorder).length + 1]? = some c := by
  rw [t.preorder_eq y, h, List.getElem?_cons_succ, List.flatMap_append, List.flatMap_cons,
    List.getElem?_append_right (Nat.le_refl _), Nat.sub_self, t.preorder_eq c]
  rfl

/-- The first child comes right after its parent. -/
theorem position_first_child (hnodup : (t.preorder root).Nodup) {y c : NodeId} {after : List NodeId}
    (hy : y ∈ t.preorder root) (h : t.children y = c :: after) :
    t.position root c = t.position root y + 1 := by
  have hsplit : t.children y = [] ++ c :: after := h
  have hget : (t.preorder y)[1]? = some c := getElem?_child hsplit
  rw [position_add hnodup hy (List.mem_of_getElem? hget),
    position_eq (nodup_of_mem hnodup hy) hget]

/-- A subtree has more nodes than those of the children of its root. -/
theorem weight_lt_of_child {y c : NodeId} (hc : c ∈ t.children y) : t.weight c < t.weight y := by
  obtain ⟨before, after, h⟩ := List.append_of_mem hc
  unfold weight
  rw [t.preorder_eq y, h, List.length_cons, List.flatMap_append, List.flatMap_cons,
    List.length_append, List.length_append]
  omega

/-- **The subtrees of siblings follow each other.** -/
theorem siblings_apart (hnodup : (t.preorder root).Nodup) {y : NodeId} (hy : y ∈ t.preorder root) :
    (t.children y).Pairwise fun c c' => t.position root c + t.weight c ≤ t.position root c' := by
  have hplace : ∀ before c after, t.children y = before ++ c :: after →
      t.position root c = t.position root y + ((before.flatMap t.preorder).length + 1) := by
    intro before c after h
    have hget := getElem?_child h
    rw [position_add hnodup hy (List.mem_of_getElem? hget),
      position_eq (nodup_of_mem hnodup hy) hget]
  have hall : ∀ after before, t.children y = before ++ after →
      after.Pairwise fun c c' => t.position root c + t.weight c ≤ t.position root c' := by
    intro after
    induction after with
    | nil => exact fun _ _ => .nil
    | cons c after ih =>
      intro before h
      refine List.pairwise_cons.2 ⟨fun c' hc' => ?_, ih (before ++ [c]) (by simp [h])⟩
      obtain ⟨between, rest, rfl⟩ := List.append_of_mem hc'
      rw [hplace before c _ h, hplace (before ++ c :: between) c' rest (by simp [h])]
      simp only [List.flatMap_append, List.flatMap_cons, List.length_append, weight]
      omega
  exact hall (t.children y) [] rfl

theorem siblings_cases (hnodup : (t.preorder root).Nodup) {y c c' : NodeId}
    (hy : y ∈ t.preorder root) (hc : c ∈ t.children y) (hc' : c' ∈ t.children y) :
    c = c' ∨ t.position root c + t.weight c ≤ t.position root c'
      ∨ t.position root c' + t.weight c' ≤ t.position root c := by
  have hapart := siblings_apart hnodup hy
  obtain ⟨before, after, hsplit⟩ := List.append_of_mem hc
  rw [hsplit] at hapart hc'
  obtain ⟨-, hafter, hbefore⟩ := List.pairwise_append.1 hapart
  rcases List.mem_append.1 hc' with hmem | hmem
  · exact .inr (.inr (hbefore c' hmem c (.head _)))
  · rcases List.mem_cons.1 hmem with rfl | hmem
    · exact .inl rfl
    · exact .inr (.inl ((List.pairwise_cons.1 hafter).1 c' hmem))

/-- A section that lists no node twice lists no more than there are. -/
theorem weight_le_size (hnodup : (t.preorder root).Nodup) (hroot : root < t.size) :
    t.weight root ≤ t.size := by
  have hsubset : t.preorder root ⊆ List.range t.size := fun x hx =>
    List.mem_range.2 (Nat.lt_of_le_of_lt (t.le_of_mem_preorder hx) hroot)
  have hlength := hnodup.length_le_of_subset hsubset
  rwa [List.length_range] at hlength

theorem lt_size_of_isScope {x : NodeId} (h : t.isScope x = true) : x < t.size := by
  unfold isScope shape at h
  split at h
  · assumption
  · cases h

/-- A node has one parent. -/
theorem parent_unique (hnodup : (t.preorder root).Nodup) {x y y' : NodeId}
    (hy : y ∈ t.preorder root) (hx : x ∈ t.children y) (hy' : y' ∈ t.preorder root)
    (hx' : x ∈ t.children y') : y = y' := by
  -- A listing of the section links `x` to either parent.
  have hsize : x < (Links.unset (root + 1)).size := by
    have hle := t.le_of_mem_preorder (t.mem_preorder_trans hy (t.child_mem_preorder hx))
    simpa [Links.unset, Links.size] using Nat.lt_succ_of_le hle
  have hlinks := Section.Walk.visit_linksBelow (t := t) ⟨#[], #[], Links.unset (root + 1)⟩ root none
    hnodup
  rw [← (Section.Walk.visit_relinks (t := t) ⟨#[], #[], Links.unset (root + 1)⟩ root none).size]
    at hsize
  have hfirst := hlinks.below y hy x hx hsize
  rw [hlinks.below y' hy' x hx' hsize] at hfirst
  exact (Option.some.inj hfirst).symm

/-- A part that a child is in, other than the child, its parent is in too. -/
theorem parent_mem_preorder (hnodup : (t.preorder root).Nodup) {s x y : NodeId}
    (hs : s ∈ t.preorder root) (hy : y ∈ t.preorder root) (hx : x ∈ t.children y)
    (hxs : x ∈ t.preorder s) (hne : s ≠ x) : y ∈ t.preorder s := by
  obtain ⟨y', hy', hx'⟩ := exists_parent hxs (Ne.symm hne)
  rwa [parent_unique hnodup hy hx (t.mem_preorder_trans hs hy') hx']

/-! ### Scopes -/

variable (t) in
/-- The scopes of the section of `root` that a node is inside of, innermost first. -/
def scopesAround (root x : NodeId) : List NodeId :=
  ((t.preorder root).filter fun s => t.isScope s ∧ s ≠ x ∧ x ∈ t.preorder s).reverse

variable (t) in
/-- The innermost scope around a node. -/
def scopeOf? (root x : NodeId) : Option NodeId := (t.scopesAround root x).head?

theorem mem_scopesAround {s x : NodeId} : s ∈ t.scopesAround root x
    ↔ s ∈ t.preorder root ∧ t.isScope s = true ∧ s ≠ x ∧ x ∈ t.preorder s := by
  simp [scopesAround]

theorem scopesAround_root : t.scopesAround root root = [] := by
  rw [List.eq_nil_iff_forall_not_mem]
  intro s hs
  obtain ⟨hmem, -, hne, hroot⟩ := mem_scopesAround.1 hs
  exact hne (Nat.le_antisymm (t.le_of_mem_preorder hmem) (t.le_of_mem_preorder hroot))

/-- What is listed after a node does not contain it. -/
theorem notMem_preorder_of_after (hnodup : (t.preorder root).Nodup) {y s : NodeId}
    {before after : List NodeId} (hsplit : t.preorder root = before ++ y :: after)
    (hs : s ∈ after) : y ∉ t.preorder s := by
  intro hys
  obtain ⟨j, hj⟩ := List.mem_iff_getElem?.1 hs
  have hgety : (t.preorder root)[before.length]? = some y := by
    rw [hsplit, List.getElem?_append_right (Nat.le_refl _), Nat.sub_self, List.getElem?_cons_zero]
  have hgets : (t.preorder root)[before.length + (j + 1)]? = some s := by
    rw [hsplit, List.getElem?_append_right (Nat.le_add_right _ _), Nat.add_sub_cancel_left,
      List.getElem?_cons_succ, hj]
  have hplace := (mem_preorder_iff_position hnodup (List.mem_of_getElem? hgets)
    (List.mem_of_getElem? hgety)).1 hys
  rw [position_eq hnodup hgets, position_eq hnodup hgety] at hplace
  omega

/-- Around a child are its parent and what is around that. -/
theorem around_child_iff (hnodup : (t.preorder root).Nodup) {s x y : NodeId}
    (hs : s ∈ t.preorder root) (hy : y ∈ t.preorder root) (hx : x ∈ t.children y) :
    s ≠ x ∧ x ∈ t.preorder s ↔ y ∈ t.preorder s := by
  constructor
  · rintro ⟨hne, hxs⟩
    exact parent_mem_preorder hnodup hs hy hx hxs hne
  · intro hys
    have hlt := Nat.lt_of_lt_of_le (t.child_lt hx) (t.le_of_mem_preorder hys)
    exact ⟨Ne.symm (Nat.ne_of_lt hlt), t.mem_preorder_trans hys (t.child_mem_preorder hx)⟩

/-- **The scopes around a node are its parent, if that is one, and the scopes around the
parent.** -/
theorem scopesAround_child (hnodup : (t.preorder root).Nodup) {x y : NodeId}
    (hy : y ∈ t.preorder root) (hx : x ∈ t.children y) :
    t.scopesAround root x = (if t.isScope y then [y] else []) ++ t.scopesAround root y := by
  have hfilter : (t.preorder root).filter (fun s => t.isScope s ∧ s ≠ x ∧ x ∈ t.preorder s)
      = (t.preorder root).filter fun s => t.isScope s ∧ y ∈ t.preorder s := by
    apply List.filter_congr
    intro s hs
    simp only [around_child_iff hnodup hs hy hx]
  unfold scopesAround
  rw [hfilter]
  -- In both lists the scopes before `y` are the same, and none comes after it.
  obtain ⟨before, after, hsplit⟩ := List.append_of_mem hy
  have hafter : ∀ s ∈ after, y ∉ t.preorder s := fun s hs =>
    notMem_preorder_of_after hnodup hsplit hs
  have hbefore : ∀ s ∈ before, s ≠ y := by
    intro s hs h
    rw [hsplit, List.nodup_append] at hnodup
    exact hnodup.2.2 s hs y (.head _) h
  have hsame : (before.filter fun s => t.isScope s ∧ s ≠ y ∧ y ∈ t.preorder s)
      = before.filter fun s => t.isScope s ∧ y ∈ t.preorder s := by
    apply List.filter_congr
    intro s hs
    simp [hbefore s hs]
  have hnone : (after.filter fun s => t.isScope s ∧ y ∈ t.preorder s) = [] := by
    rw [List.filter_eq_nil_iff]
    intro s hs
    simp [hafter s hs]
  have hnone' : (after.filter fun s => t.isScope s ∧ s ≠ y ∧ y ∈ t.preorder s) = [] := by
    rw [List.filter_eq_nil_iff]
    intro s hs
    simp [hafter s hs]
  rw [hsplit]
  simp only [List.filter_append, List.filter_cons, List.reverse_append, hsame, hnone, hnone']
  cases t.isScope y <;> simp [t.self_mem_preorder y]

/-- The outermost scope around a node is the root. -/
theorem scopesAround_eq_append_root (hnodup : (t.preorder root).Nodup)
    (hscope : t.isScope root = true) {x : NodeId} (hx : x ∈ t.preorder root) (hne : x ≠ root) :
    ∃ between, t.scopesAround root x = between ++ [root] ∧ root ∉ between := by
  unfold scopesAround
  rw [t.preorder_eq root] at hnodup ⊢
  rw [List.filter_cons_of_pos (by simpa using ⟨hscope, Ne.symm hne, hx⟩), List.reverse_cons]
  refine ⟨_, rfl, fun hmem => (List.nodup_cons.1 hnodup).1 ?_⟩
  exact (List.mem_filter.1 (List.mem_reverse.1 hmem)).1

/-- **The scopes around a part of a scope are those inside the scope and those around it.** -/
theorem scopesAround_append (hnodup : (t.preorder root).Nodup) {b : NodeId}
    (hb : b ∈ t.preorder root) {x : NodeId} (hx : x ∈ t.preorder b) :
    t.scopesAround root x = t.scopesAround b x ++ t.scopesAround root b := by
  induction x, hx using preorder_induction with
  | hroot => rw [scopesAround_root, List.nil_append]
  | hchild y hy ih x hx =>
    rw [scopesAround_child hnodup (t.mem_preorder_trans hb hy) hx,
      scopesAround_child (nodup_of_mem hnodup hb) hy hx, ih, List.append_assoc]

/-- Nothing is inside of more scopes than there are nodes. -/
theorem length_scopesAround_le (root x : NodeId) :
    (t.scopesAround root x).length ≤ t.weight root := by
  unfold scopesAround weight
  rw [List.length_reverse]
  exact List.length_filter_le _ _

theorem scopeOf?_child (hnodup : (t.preorder root).Nodup) {x y : NodeId}
    (hy : y ∈ t.preorder root) (hx : x ∈ t.children y) :
    t.scopeOf? root x = if t.isScope y then some y else t.scopeOf? root y := by
  unfold scopeOf?
  rw [scopesAround_child hnodup hy hx]
  split <;> rfl

/-- Below a scope every node but it has a scope. -/
theorem isSome_scopeOf? (hscope : t.isScope root = true) {x : NodeId} (hx : x ∈ t.preorder root)
    (hne : x ≠ root) : (t.scopeOf? root x).isSome = true := by
  have hmem : root ∈ t.scopesAround root x :=
    mem_scopesAround.2 ⟨t.self_mem_preorder root, hscope, Ne.symm hne, hx⟩
  unfold scopeOf?
  rw [List.isSome_head?]
  exact List.ne_nil_of_mem hmem

theorem mem_of_scopeOf? {x s : NodeId} (h : t.scopeOf? root x = some s) :
    s ∈ t.scopesAround root x := List.mem_of_mem_head? (by rw [← scopeOf?, h]; rfl)

/-- The scopes around a node are the innermost one and the scopes around that. -/
theorem scopesAround_of_scopeOf? (hnodup : (t.preorder root).Nodup) {x s : NodeId}
    (hx : x ∈ t.preorder root) (h : t.scopeOf? root x = some s) :
    t.scopesAround root x = s :: t.scopesAround root s := by
  induction x, hx using preorder_induction with
  | hroot =>
    rw [scopeOf?, scopesAround_root] at h
    cases h
  | hchild y hy ih x hx =>
    rw [scopeOf?_child hnodup hy hx] at h
    rw [scopesAround_child hnodup hy hx]
    split at h
    · next hscope =>
      obtain rfl := Option.some.inj h
      rw [if_pos hscope, List.singleton_append]
    · next hscope =>
      rw [if_neg hscope, List.nil_append]
      exact ih h

end Tree

/-! ### Links -/

namespace Links

/-- The link of every node below `root` but that is its parent. -/
def Follow (l : Links) (t : Tree) (root : NodeId) : Prop :=
  ∀ y ∈ t.preorder root, ∀ x ∈ t.children y, l.parent? x = some y

variable {l : Links} {t : Tree} {root : NodeId}

/-- **The scope that the links lead to is the innermost one.** -/
theorem Follow.enclosingScope?_eq (h : l.Follow t root) (hnodup : (t.preorder root).Nodup)
    (hscope : t.isScope root = true) (hsize : root < l.size) {x : NodeId}
    (hx : x ∈ t.preorder root) (hne : x ≠ root) :
    l.enclosingScope? t x = t.scopeOf? root x := by
  -- Every link leads to a larger number, so that the root is met in time.
  have hsteps : ∀ steps x, x ∈ t.preorder root → x ≠ root → root ≤ x + steps →
      l.ancestorWithin? t.isScope steps x = t.scopeOf? root x := by
    intro steps
    induction steps with
    | zero =>
      intro x hx hne hle
      exact (hne (Nat.le_antisymm (t.le_of_mem_preorder hx) hle)).elim
    | succ steps ih =>
      intro x hx hne hle
      obtain ⟨y, hy, hxy⟩ := Tree.exists_parent hx hne
      rw [Tree.scopeOf?_child hnodup hy hxy]
      simp only [ancestorWithin?, h y hy x hxy]
      split
      · rfl
      · next hy' =>
        apply ih y hy (fun hroot => hy' (hroot ▸ hscope))
        calc
          root ≤ x + 1 + steps := by rw [Nat.add_right_comm]; exact hle
          _ ≤ y + steps := Nat.add_le_add_right (t.child_lt hxy) steps
  exact hsteps l.size x hx hne (Nat.le_trans (Nat.le_of_lt hsize) (Nat.le_add_left _ _))

theorem enclosingScope?_of_parent {x y : NodeId} (h : l.parent? x = some y)
    (hy : t.isScope y = true) : l.enclosingScope? t x = some y := by
  have hsize := lt_size_of_parent h
  obtain ⟨n, hn⟩ : ∃ n, l.size = n + 1 := ⟨l.size - 1, by omega⟩
  simp only [enclosingScope?, ancestor?, hn, ancestorWithin?, h, hy, if_true]

theorem enclosingScope?_of_no_parent {x : NodeId} (h : l.parent? x = none) :
    l.enclosingScope? t x = none := by
  unfold enclosingScope? ancestor?
  cases l.size with
  | zero => rfl
  | succ n => simp only [ancestorWithin?, h]

end Links

/-- A section that lists no node twice leaves links that follow the tree. -/
theorem Section.follow_ofTree {t : Tree} {links : Links} {root : NodeId} (outer : Option Section)
    (hnodup : (t.preorder root).Nodup) (hsize : root < links.size) :
    (ofTree t links root outer).2.Follow t root := by
  intro y hy x hx
  have hle := t.le_of_mem_preorder (t.mem_preorder_trans hy (t.child_mem_preorder hx))
  have hlinks := Walk.visit_linksBelow (t := t) ⟨#[], #[], links⟩ root (outer.map Section.root)
    hnodup
  refine hlinks.below y hy x hx ?_
  rw [(Walk.visit_relinks (t := t) ⟨#[], #[], links⟩ root (outer.map Section.root)).size]
  exact Nat.lt_of_le_of_lt hle hsize

/-- The root of a section is linked to the root of the section around it. -/
theorem Section.parent?_root_ofTree {t : Tree} {links : Links} {root : NodeId}
    (outer : Option Section) (hnodup : (t.preorder root).Nodup) (hsize : root < links.size) :
    (ofTree t links root outer).2.parent? root = outer.map Section.root := by
  have hlinks := Walk.visit_linksBelow (t := t) ⟨#[], #[], links⟩ root (outer.map Section.root)
    hnodup
  refine hlinks.root ?_
  rwa [(Walk.visit_relinks (t := t) ⟨#[], #[], links⟩ root (outer.map Section.root)).size]

/-- A section leaves the links of all other nodes as they are. -/
theorem Section.parent?_ofTree_of_notMem {t : Tree} {links : Links} {root x : NodeId}
    (outer : Option Section) (hx : x ∉ t.preorder root) :
    (ofTree t links root outer).2.parent? x = links.parent? x :=
  (Walk.visit_relinks (t := t) ⟨#[], #[], links⟩ root (outer.map Section.root)).others x hx

theorem Section.size_links_ofTree {t : Tree} {links : Links} {root : NodeId}
    (outer : Option Section) : (ofTree t links root outer).2.size = links.size :=
  (Walk.visit_relinks (t := t) ⟨#[], #[], links⟩ root (outer.map Section.root)).size

/-- The links of a section that stands alone lead to its root. -/
theorem Section.rooted_ofTree {t : Tree} {links : Links} {root : NodeId}
    (hnodup : (t.preorder root).Nodup) (hsize : root < links.size) :
    (ofTree t links root none).2.Rooted t root :=
  ⟨parent?_root_ofTree none hnodup hsize, follow_ofTree none hnodup hsize⟩

end MiddleEnd
