import MiddleEnd.Tree.Section

/-!
# Subtrees in preorder

The nodes below a node, as a section lists them.  The nodes below an entry of the list follow it
directly, so that the places of two subtrees in a list are nested or apart.

## Main definitions

* `Tree.preorder` — the nodes of a subtree, each before its children.
* `Tree.weight` — how many there are.

## Main results

* `Tree.mem_preorder_trans` — a part of a part is a part.
* `Tree.nested` — a subtree that begins inside another one ends inside it.
* `Section.nodes_ofTree`, `Section.subtreeEnd_ofTree` — a section lists a subtree in preorder, with
  the ends of its parts.
* `Section.parent?_ofTree` — a section records the parent of each node that it lists once.
-/

namespace MiddleEnd

namespace Tree

variable (t : Tree)

/-- The nodes of the subtree of `id`, each before its children. -/
def preorder (id : NodeId) : List NodeId :=
  id :: (t.children id).attach.flatMap fun c => preorder c.1
termination_by id
decreasing_by exact t.child_lt c.2

/-- Number of nodes of the subtree of `id`. -/
def weight (id : NodeId) : Nat := (t.preorder id).length

theorem preorder_eq (id : NodeId) : t.preorder id = id :: (t.children id).flatMap t.preorder := by
  rw [preorder, List.flatMap_def, List.flatMap_def, List.attach_map_val]

theorem self_mem_preorder (id : NodeId) : id ∈ t.preorder id := by
  rw [preorder_eq]
  exact .head _

theorem weight_pos (id : NodeId) : 0 < t.weight id :=
  List.length_pos_of_mem (t.self_mem_preorder id)

theorem mem_preorder {id x : NodeId} :
    x ∈ t.preorder id ↔ x = id ∨ ∃ c ∈ t.children id, x ∈ t.preorder c := by
  rw [preorder_eq, List.mem_cons, List.mem_flatMap]

theorem mem_preorder_of_child {id c x : NodeId} (hc : c ∈ t.children id)
    (hx : x ∈ t.preorder c) : x ∈ t.preorder id :=
  t.mem_preorder.2 (.inr ⟨c, hc, hx⟩)

theorem child_mem_preorder {id c : NodeId} (hc : c ∈ t.children id) : c ∈ t.preorder id :=
  t.mem_preorder_of_child hc (t.self_mem_preorder c)

/-- A part of a part is a part. -/
theorem mem_preorder_trans {a b x : NodeId} (hb : b ∈ t.preorder a) (hx : x ∈ t.preorder b) :
    x ∈ t.preorder a := by
  induction a using Nat.strongRecOn with
  | ind a ih =>
    rcases t.mem_preorder.1 hb with rfl | ⟨c, hc, hb⟩
    · exact hx
    · exact t.mem_preorder_of_child hc (ih c (t.child_lt hc) hb)

/-- A part has no larger number than the whole. -/
theorem le_of_mem_preorder {id x : NodeId} (hx : x ∈ t.preorder id) : x ≤ id := by
  induction id using Nat.strongRecOn with
  | ind id ih =>
    rcases t.mem_preorder.1 hx with rfl | ⟨c, hc, hx⟩
    · exact Nat.le_refl _
    · exact Nat.le_trans (ih c (t.child_lt hc) hx) (Nat.le_of_lt (t.child_lt hc))

section

variable {t} {id e x : NodeId}

/-- What is carried through each pair of parentheses holds of what is inside of them all. -/
theorem ungroup_induction {motive : NodeId → Prop} (h : motive id)
    (hgroup : ∀ x e, t.shape x = .group e → e ∈ t.children x → motive x → motive e) :
    motive (t.ungroup id) := by
  fun_induction ungroup t id with
  | case1 id e hshape ih =>
    exact ih (hgroup id e hshape (by simp [children, hshape, Shape.children]) h)
  | case2 id _ => exact h

variable (t id) in
/-- What is in parentheses is a part of them. -/
theorem ungroup_mem_preorder : t.ungroup id ∈ t.preorder id :=
  ungroup_induction (t.self_mem_preorder id) fun _ _ _ he hx =>
    t.mem_preorder_trans hx (t.child_mem_preorder he)

theorem ungroup_of_group (h : t.shape id = .group e) : t.ungroup id = t.ungroup e := by
  rw [ungroup]
  split
  · next x hshape => rw [Shape.group.inj (hshape.symm.trans h)]
  · next hno => exact (hno e h).elim

theorem ungroup_of_not_group (h : ∀ x, t.shape id ≠ .group x) : t.ungroup id = id := by
  rw [ungroup]
  split
  · next x hshape => exact (h x hshape).elim
  · rfl

variable (t id) in
/-- What is inside of all parentheses is not in parentheses. -/
theorem shape_ungroup_ne (e : NodeId) : t.shape (t.ungroup id) ≠ .group e := by
  fun_induction ungroup t id with
  | case1 id x hshape ih => exact ih
  | case2 id hno => exact hno e

/-- The parentheses around an expression hold nothing else. -/
theorem mem_preorder_ungroup (hx : x ∈ t.preorder e) (hgroup : ∀ y, t.shape x ≠ .group y) :
    x ∈ t.preorder (t.ungroup e) := by
  refine ungroup_induction (motive := fun y => x ∈ t.preorder y) hx fun y z hshape hz hx => ?_
  rcases t.mem_preorder.1 hx with rfl | ⟨z', hz', hx⟩
  · exact (hgroup z hshape).elim
  · obtain rfl : z' = z := by simpa [children, hshape, Shape.children] using hz'
    exact hx

/-- Around a leaf there are parentheses only. -/
theorem eq_ungroup_of_leaf (hleaf : (t.shape (t.ungroup e)).children = []) (hx : x ∈ t.preorder e)
    (hgroup : ∀ y, t.shape x ≠ .group y) : x = t.ungroup e := by
  have hmem := mem_preorder_ungroup hx hgroup
  rw [t.preorder_eq, children, hleaf] at hmem
  exact List.mem_singleton.1 hmem

/-- What is in parentheses around a leaf is around the same leaf. -/
theorem ungroup_of_mem_preorder (hleaf : (t.shape (t.ungroup e)).children = [])
    (hx : x ∈ t.preorder e) : t.ungroup x = t.ungroup e :=
  eq_ungroup_of_leaf hleaf (t.mem_preorder_trans hx (t.ungroup_mem_preorder x))
    (t.shape_ungroup_ne x)

end

/-- The subtree of an entry of a list in preorder follows it directly. -/
theorem preorder_prefix_drop {id : NodeId} {k : Nat} {x : NodeId}
    (hx : (t.preorder id)[k]? = some x) : t.preorder x <+: (t.preorder id).drop k := by
  induction id using Nat.strongRecOn generalizing k with
  | ind id ih =>
    rw [t.preorder_eq id] at hx
    cases k with
    | zero =>
      obtain rfl : id = x := by simpa using hx
      exact List.prefix_refl _
    -- Below the node: in the list of one of its children.
    | succ k =>
      rw [t.preorder_eq id]
      rw [List.getElem?_cons_succ] at hx
      rw [List.drop_succ_cons]
      have hsub : ∀ c ∈ t.children id, ∀ j, (t.preorder c)[j]? = some x →
          t.preorder x <+: (t.preorder c).drop j :=
        fun c hc j hj => ih c (t.child_lt hc) hj
      generalize t.children id = cs at hx hsub
      induction cs generalizing k with
      | nil => simp at hx
      | cons c cs ihcs =>
        rw [List.flatMap_cons] at hx ⊢
        -- The entry is in the list of the first child, or in that of the others.
        by_cases hk : k < (t.preorder c).length
        · rw [List.getElem?_append_left hk] at hx
          rw [List.drop_append_of_le_length (Nat.le_of_lt hk)]
          exact (hsub c (.head _) k hx).trans (List.prefix_append _ _)
        · have hk := Nat.le_of_not_lt hk
          rw [List.getElem?_append_right hk] at hx
          rw [List.drop_append, List.drop_eq_nil_of_le hk, List.nil_append]
          exact ihcs _ hx fun c' hc' => hsub c' (.tail _ hc')

/-- Positions inside the subtree of an entry, counted from the entry. -/
theorem getElem?_preorder_add {id : NodeId} {k j : Nat} {x : NodeId}
    (hx : (t.preorder id)[k]? = some x) (hj : j < t.weight x) :
    (t.preorder id)[k + j]? = (t.preorder x)[j]? := by
  obtain ⟨rest, hrest⟩ := t.preorder_prefix_drop hx
  rw [← List.getElem?_drop, ← hrest, List.getElem?_append_left hj]

/-- A part that begins inside another part ends inside it. -/
theorem nested {id : NodeId} {p k : Nat} {d x : NodeId} (hd : (t.preorder id)[p]? = some d)
    (hx : (t.preorder id)[k]? = some x) (hpk : p ≤ k) (hk : k < p + t.weight d) :
    k + t.weight x ≤ p + t.weight d := by
  have hget : (t.preorder d)[k - p]? = some x := by
    rw [← t.getElem?_preorder_add hd (by omega), Nat.add_sub_cancel' hpk, hx]
  have hlength := (t.preorder_prefix_drop hget).length_le
  rw [List.length_drop] at hlength
  unfold weight at *
  omega

end Tree

/-! ### Sections -/

namespace Section

variable {t : Tree}

/-- A walk has listed the nodes of `l`, each with the end of its subtree. -/
structure Walk.Lists (t : Tree) (w w' : Walk) (l : List NodeId) : Prop where
  /-- The nodes have been added at the end. -/
  nodes : w'.nodes.toList = w.nodes.toList ++ l
  /-- There is an end for each entry. -/
  size : w'.ends.size = w'.nodes.size
  /-- The ends of earlier entries have not changed. -/
  before : ∀ j, j < w.nodes.size → w'.ends[j]? = w.ends[j]?
  /-- An entry ends as many places later as its subtree has nodes. -/
  after : ∀ j x, l[j]? = some x →
    w'.ends[w.nodes.size + j]? = some (w.nodes.size + j + t.weight x)

namespace Walk.Lists

variable {w w₁ w₂ : Walk} {l₁ l₂ : List NodeId}

theorem nil (h : w.ends.size = w.nodes.size) : Lists t w w [] :=
  ⟨by simp, h, fun _ _ => rfl, by simp⟩

theorem size_nodes (h : Lists t w w₁ l₁) : w₁.nodes.size = w.nodes.size + l₁.length := by
  have hlength := congrArg List.length h.nodes
  simpa using hlength

theorem append (h₁ : Lists t w w₁ l₁) (h₂ : Lists t w₁ w₂ l₂) : Lists t w w₂ (l₁ ++ l₂) where
  nodes := by rw [h₂.nodes, h₁.nodes, List.append_assoc]
  size := h₂.size
  before j hj := by rw [h₂.before j (by rw [h₁.size_nodes]; omega), h₁.before j hj]
  after j x hx := by
    by_cases hj : j < l₁.length
    · rw [List.getElem?_append_left hj] at hx
      rw [h₂.before _ (by rw [h₁.size_nodes]; omega), h₁.after j x hx]
    · have hj := Nat.le_of_not_lt hj
      rw [List.getElem?_append_right hj] at hx
      have hafter := h₂.after _ x hx
      rw [h₁.size_nodes] at hafter
      have hindex : w.nodes.size + l₁.length + (j - l₁.length) = w.nodes.size + j := by omega
      rwa [hindex] at hafter

/-- A node is listed before what is listed while it is open, and its subtree ends where it is
left. -/
theorem around {id : NodeId} {above : Option NodeId} (h : Lists t (w.enter id above) w₁ l₁)
    (hw : w.ends.size = w.nodes.size) (hweight : t.weight id = l₁.length + 1) :
    Lists t w (w₁.leave w.nodes.size) (id :: l₁) where
  nodes := by
    simp only [Walk.leave]
    rw [h.nodes]
    simp [Walk.enter]
  size := by simp [Walk.leave, h.size]
  before j hj := by
    have hne : w.nodes.size ≠ j := Nat.ne_of_gt hj
    simp only [Walk.leave]
    rw [Array.getElem?_setIfInBounds_ne hne, h.before j (by simp [Walk.enter]; omega)]
    simp only [Walk.enter]
    rw [Array.getElem?_push, if_neg (by omega)]
  after j x hx := by
    have hsize := h.size_nodes
    simp only [Walk.enter, Array.size_push] at hsize
    simp only [Walk.leave]
    -- The node itself ends where it is left; for the others nothing has changed.
    cases j with
    | zero =>
      obtain rfl : id = x := by simpa using hx
      have hpos : w.nodes.size < w₁.ends.size := by
        rw [h.size]
        omega
      rw [Nat.add_zero, Array.getElem?_setIfInBounds_self_of_lt hpos, hweight]
      exact congrArg some (by omega)
    | succ j =>
      rw [List.getElem?_cons_succ] at hx
      have hafter := h.after j x hx
      simp only [Walk.enter, Array.size_push] at hafter
      rw [Array.getElem?_setIfInBounds_ne (by omega)]
      have hindex : w.nodes.size + (j + 1) = w.nodes.size + 1 + j := by omega
      rw [hindex]
      exact hafter

end Walk.Lists

/-- Visit siblings one after the other. -/
def Walk.visitAll (t : Tree) (w : Walk) (cs : List NodeId) (above : Option NodeId) : Walk :=
  cs.foldl (fun w c => Walk.visit t w c above) w

/-- Siblings are listed one after the other. -/
theorem Walk.visitAll_lists_of {cs : List NodeId} {above : Option NodeId}
    (h : ∀ c ∈ cs, ∀ w : Walk, w.ends.size = w.nodes.size →
      Walk.Lists t w (Walk.visit t w c above) (t.preorder c))
    (w : Walk) (hw : w.ends.size = w.nodes.size) :
    Walk.Lists t w (visitAll t w cs above) (cs.flatMap t.preorder) := by
  induction cs generalizing w with
  | nil => exact .nil hw
  | cons c cs ih =>
    have hc := h c (.head _) w hw
    exact hc.append (ih (fun c' hc' => h c' (.tail _ hc')) _ hc.size)

/-- Visiting a node lists its subtree. -/
theorem Walk.visit_lists (w : Walk) (id : NodeId) (above : Option NodeId)
    (hw : w.ends.size = w.nodes.size) :
    Walk.Lists t w (Walk.visit t w id above) (t.preorder id) := by
  induction id using Nat.strongRecOn generalizing w above with
  | ind id ih =>
    have hchildren := visitAll_lists_of
      (fun c hc w hw => ih c (t.child_lt hc) w (some id) hw) (w.enter id above)
      (by simp [Walk.enter, hw])
    rw [Walk.visit_eq, t.preorder_eq id]
    refine hchildren.around hw ?_
    rw [Tree.weight, t.preorder_eq id, List.length_cons]

/-- A section lists the subtree of its root in preorder. -/
theorem nodes_ofTree (t : Tree) (links : Links) (root : NodeId) (outer : Option Section) :
    (ofTree t links root outer).1.nodes.toList = t.preorder root := by
  have hlists := Walk.visit_lists (t := t) ⟨#[], #[], links⟩ root (outer.map Section.root) rfl
  simpa [ofTree] using hlists.nodes

/-- The subtree of an entry ends as many positions later as it has nodes. -/
theorem subtreeEnd_ofTree {t : Tree} {links : Links} {root : NodeId} {outer : Option Section}
    {k : Nat} {x : NodeId} (hx : (t.preorder root)[k]? = some x) :
    (ofTree t links root outer).1.subtreeEnd k = k + t.weight x := by
  have hlists := Walk.visit_lists (t := t) ⟨#[], #[], links⟩ root (outer.map Section.root) rfl
  have hafter := hlists.after k x hx
  simp only [List.size_toArray, List.length_nil, Nat.zero_add] at hafter
  simp [ofTree, subtreeEnd, hafter]

/-! ### Parents -/

/-- The links of `w'` are those of `w`, apart from the nodes of `l`. -/
structure Walk.Relinks (w w' : Walk) (l : List NodeId) : Prop where
  /-- There are as many links. -/
  size : w'.links.size = w.links.size
  /-- Other nodes have kept their parents. -/
  others : ∀ x, x ∉ l → w'.links.parent? x = w.links.parent? x

theorem Walk.Relinks.append {w w₁ w₂ : Walk} {l₁ l₂ : List NodeId} (h₁ : Relinks w w₁ l₁)
    (h₂ : Relinks w₁ w₂ l₂) : Relinks w w₂ (l₁ ++ l₂) where
  size := h₂.size.trans h₁.size
  others x hx := by
    rw [List.mem_append, not_or] at hx
    exact (h₂.others x hx.2).trans (h₁.others x hx.1)

theorem Walk.visitAll_relinks_of {cs : List NodeId} {above : Option NodeId}
    (h : ∀ c ∈ cs, ∀ w, Relinks w (Walk.visit t w c above) (t.preorder c)) (w : Walk) :
    Relinks w (visitAll t w cs above) (cs.flatMap t.preorder) := by
  induction cs generalizing w with
  | nil => exact ⟨rfl, fun _ _ => rfl⟩
  | cons c cs ih =>
    exact (h c (.head _) w).append (ih (fun c' hc' => h c' (.tail _ hc')) (Walk.visit t w c above))

/-- Visiting changes the links of the nodes listed and of no others. -/
theorem Walk.visit_relinks (w : Walk) (id : NodeId) (above : Option NodeId) :
    Relinks w (Walk.visit t w id above) (t.preorder id) := by
  induction id using Nat.strongRecOn generalizing w above with
  | ind id ih =>
    have hchildren := visitAll_relinks_of (fun c hc w => ih c (t.child_lt hc) w (some id))
      (w.enter id above)
    rw [Walk.visit_eq, t.preorder_eq id]
    refine ⟨hchildren.size.trans (by simp [Walk.enter]), fun x hx => ?_⟩
    rw [List.mem_cons, not_or] at hx
    refine (hchildren.others x hx.2).trans ?_
    simp only [Walk.enter, Links.setParent, Links.parent?]
    rw [Array.getElem?_setIfInBounds_ne (Ne.symm hx.1)]

theorem Walk.visitAll_relinks (w : Walk) (cs : List NodeId) (above : Option NodeId) :
    Relinks w (visitAll t w cs above) (cs.flatMap t.preorder) :=
  visitAll_relinks_of (fun c _ w => Walk.visit_relinks w c above) w

/-- The links of a subtree: its root is below `above` and every other node is below its parent. -/
structure Walk.LinksBelow (t : Tree) (w : Walk) (id : NodeId) (above : Option NodeId) : Prop where
  /-- The root is below the node that it was entered from. -/
  root : id < w.links.size → w.links.parent? id = above
  /-- Every other node is below its parent. -/
  below : ∀ y ∈ t.preorder id, ∀ x ∈ t.children y, x < w.links.size →
    w.links.parent? x = some y

/-- Links of a subtree outlast visits elsewhere. -/
theorem Walk.LinksBelow.keep {w w' : Walk} {id : NodeId} {above : Option NodeId} {l : List NodeId}
    (h : LinksBelow t w id above) (hw : Relinks w w' l) (hl : ∀ x ∈ t.preorder id, x ∉ l) :
    LinksBelow t w' id above where
  root hid := (hw.others id (hl id (t.self_mem_preorder id))).trans (h.root (hw.size ▸ hid))
  below y hy x hx hsize := by
    have hmem := t.mem_preorder_trans hy (t.child_mem_preorder hx)
    exact (hw.others x (hl x hmem)).trans (h.below y hy x hx (hw.size ▸ hsize))

theorem Walk.visitAll_linksBelow {cs : List NodeId} {above : Option NodeId}
    (h : ∀ c ∈ cs, (t.preorder c).Nodup → ∀ w, LinksBelow t (Walk.visit t w c above) c above)
    (hnodup : (cs.flatMap t.preorder).Nodup) (w : Walk) :
    ∀ c ∈ cs, LinksBelow t (visitAll t w cs above) c above := by
  induction cs generalizing w with
  | nil => exact fun _ hc => by cases hc
  | cons c cs ih =>
    rw [List.flatMap_cons, List.nodup_append] at hnodup
    obtain ⟨hc, hcs, hapart⟩ := hnodup
    intro c' hc'
    rcases List.mem_cons.1 hc' with rfl | hc'
    · refine (h c' (.head _) hc w).keep (Walk.visitAll_relinks _ cs above) ?_
      exact fun x hx hx' => hapart x hx x hx' rfl
    · exact ih (fun d hd => h d (.tail _ hd)) hcs _ c' hc'

/-- Visiting a subtree in which no node is listed twice links every node to its parent. -/
theorem Walk.visit_linksBelow (w : Walk) (id : NodeId) (above : Option NodeId)
    (hnodup : (t.preorder id).Nodup) : LinksBelow t (Walk.visit t w id above) id above := by
  induction id using Nat.strongRecOn generalizing w above with
  | ind id ih =>
    rw [t.preorder_eq id, List.nodup_cons] at hnodup
    have hchildren := visitAll_linksBelow
      (fun c hc hnodup w => ih c (t.child_lt hc) w (some id) hnodup) hnodup.2 (w.enter id above)
    have hrelinks := Walk.visitAll_relinks (t := t) (w.enter id above) (t.children id) (some id)
    rw [Walk.visit_eq]
    constructor
    · intro hid
      refine (hrelinks.others id hnodup.1).trans ?_
      have hid : id < w.links.size := by
        have hsize := hrelinks.size
        simp only [Walk.enter, Links.size_setParent] at hsize
        exact hsize ▸ hid
      show (w.links.setParent id above).parent? id = above
      rw [Links.parent?_setParent _ hid, if_pos rfl]
    · intro y hy x hx hsize
      rcases t.mem_preorder.1 hy with rfl | ⟨c, hc, hy⟩
      · exact (hchildren x hx).root hsize
      · exact (hchildren c hc).below y hy x hx hsize

/-- In a section that lists no node twice, every node but the root is below its parent. -/
theorem parent?_ofTree {t : Tree} {links : Links} {root : NodeId} (hnodup : (t.preorder root).Nodup)
    {y x : NodeId} (hy : y ∈ t.preorder root) (hx : x ∈ t.children y)
    (hparent : (ofTree t links root none).2.parent? x ≠ none) :
    (ofTree t links root none).2.parent? x = some y := by
  refine (Walk.visit_linksBelow (t := t) ⟨#[], #[], links⟩ root none hnodup).below y hy x hx ?_
  by_cases hsize : x < (ofTree t links root none).2.size
  · exact hsize
  · refine (hparent ?_).elim
    unfold Links.parent?
    rw [Array.getElem?_eq_none (Nat.le_of_not_lt hsize)]
    rfl

end Section

end MiddleEnd
