import MiddleEnd.Proofs.Resolution.Nested
import MiddleEnd.Proofs.Typing.Order

/-!
# Bodies of procedures as sections

The body of a procedure can be listed and resolved as a section of its own, inside the whole that it
is a part of.  If the procedure is inside no other scope than that of the whole, names in the body
are bound as in the whole.  But nothing else is: the nested resolution has no bindings outside of
the body.  And the listing links the body directly to the root of the whole, so that the procedure
is no longer found around its own body.

## Main definitions

* `Tree.DirectBody` — the body of a procedure that is inside no scope but that of the section.
* `Links.Relinked` — the links after a part has been listed as a section of its own.
* `Typing.Nests` — what links and names of such a body have in common with those of the whole.

## Main results

* `Typing.exists_nests` — **the body of a direct procedure nests in the whole.**
-/

namespace MiddleEnd

/-- Nothing is declared. -/
def Resolution.unbound : Resolution := ⟨∅, [], ∅, []⟩

@[simp] theorem Resolution.declaration?_unbound (x : NodeId) : unbound.declaration? x = none := by
  simp [declaration?, unbound]

/-! ### Bodies -/

/-- The body `b` of a procedure `p` that is inside no scope but that of the section of `root`. -/
structure Tree.DirectBody (t : Tree) (root p b : NodeId) : Prop where
  /-- The section is a tree with everything in its place. -/
  arranged : t.Arranged root
  /-- The procedure is in it. -/
  mem : p ∈ t.preorder root
  /-- This is its body. -/
  shape : ∃ result, t.shape p = .procedure result b
  /-- The body is a scope. -/
  scope : t.isScope b = true
  /-- No scope but the root is around the procedure. -/
  direct : t.scopesAround root p = [root]

namespace Tree.DirectBody

variable {t : Tree} {root p b x y : NodeId} (h : t.DirectBody root p b)

include h

theorem isProcedure : (t.shape p).isProcedure = true := by
  obtain ⟨result, hshape⟩ := h.shape
  rw [hshape]
  rfl

theorem child : b ∈ t.children p := by
  obtain ⟨result, hshape⟩ := h.shape
  simp [Tree.children, hshape, Shape.children]

theorem body_mem : b ∈ t.preorder root := t.mem_preorder_trans h.mem (t.child_mem_preorder h.child)

theorem mem_of_body (hx : x ∈ t.preorder b) : x ∈ t.preorder root :=
  t.mem_preorder_trans h.body_mem hx

theorem body_ne_root : b ≠ root :=
  Nat.ne_of_lt (Nat.lt_of_lt_of_le (t.child_lt h.child) (t.le_of_mem_preorder h.mem))

theorem procedure_notMem : p ∉ t.preorder b := fun hp =>
  Nat.not_lt.2 (t.le_of_mem_preorder hp) (t.child_lt h.child)

theorem scopesAround_body : t.scopesAround root b = [root] := by
  have hscope : t.isScope p = false := by
    obtain ⟨result, hshape⟩ := h.shape
    simp [Tree.isScope, hshape, Shape.isScope]
  rw [Tree.scopesAround_child h.arranged.nodup h.mem h.child, hscope, h.direct]
  rfl

/-- Only the procedure leads into its body. -/
theorem eq_of_child (hx : x ∈ t.preorder root) (hnot : x ∉ t.preorder b) (hy : y ∈ t.children x)
    (hyb : y ∈ t.preorder b) : x = p ∧ y = b := by
  have hnodup := h.arranged.nodup
  by_cases hne : y = b
  · subst hne
    exact ⟨Tree.parent_unique hnodup hx hy h.mem h.child, rfl⟩
  · exact (hnot (Tree.parent_mem_preorder hnodup h.body_mem hx hy hyb (Ne.symm hne))).elim

/-- Outside of the body nothing is asked that is in it. -/
theorem asked_notMem (hx : x ∈ t.preorder root) (hnot : x ∉ t.preorder b)
    (hy : y ∈ (t.shape x).asked) : y ∉ t.preorder b := by
  intro hyb
  obtain ⟨rfl, -⟩ := h.eq_of_child hx hnot (Shape.mem_children_of_asked hy) hyb
  obtain ⟨result, hshape⟩ := h.shape
  rw [hshape] at hy
  cases hy

/-- The declared result of a procedure outside of the body is outside too. -/
theorem result_notMem {q result : NodeId} (hq : q ∈ t.preorder root) (hnot : q ∉ t.preorder b)
    (hresult : (t.shape q).result? = some result) : result ∉ t.preorder b := by
  intro hmem
  obtain ⟨hchild, htype⟩ := Typing.isType_result h.arranged hq hresult
  obtain ⟨-, rfl⟩ := h.eq_of_child hq hnot hchild hmem
  -- A type is no scope.
  have hscope := h.scope
  unfold Tree.isScope at hscope
  cases hshape : t.shape result <;> rw [hshape] at htype hscope <;>
    first | (cases htype; done) | cases hscope

end Tree.DirectBody

/-! ### The part in the whole -/

/-- What links and names of the body `b` of `p`, listed and resolved on its own, have in common with
those of the whole: names of the body are bound as in the whole, others are not bound; a procedure
around a node is found unless it is `p`. -/
structure Typing.Nests (t : Tree) (root p b : NodeId) (c c' : Typing.Context) : Prop where
  /-- The whole is about the tree. -/
  tree : c.tree = t
  /-- So is the part. -/
  tree' : c'.tree = t
  /-- Names in the body are bound as in the whole. -/
  bound : ∀ x ∈ t.preorder b, c'.resolution.declaration? x = c.resolution.declaration? x
  /-- Names outside of it are not bound. -/
  unbound : ∀ x, x ∉ t.preorder b → c'.resolution.declaration? x = none
  /-- In the body the procedure around a node is the same, or it is the one whose body this is, and
  then the part finds none. -/
  inside : ∀ x ∈ t.preorder b, (∃ q ∈ t.preorder b, c.links.enclosingProcedure? t x = some q
      ∧ c'.links.enclosingProcedure? t x = some q)
    ∨ (c.links.enclosingProcedure? t x = some p ∧ c'.links.enclosingProcedure? t x = none)
  /-- Outside of the body the procedures around a node are the same. -/
  outside : ∀ x ∈ t.preorder root, x ∉ t.preorder b →
    c'.links.enclosingProcedure? t x = c.links.enclosingProcedure? t x

section

variable {t : Tree} {links : Links} {root p b : NodeId}

/-- The part has no bindings that the whole does not have. -/
theorem Typing.Nests.declaration?_le {c c' : Context} (hn : Nests t root p b c c') (x d : NodeId)
    (h : c'.resolution.declaration? x = some d) : c.resolution.declaration? x = some d := by
  by_cases hx : x ∈ t.preorder b
  · exact (hn.bound x hx).symm.trans h
  · cases (hn.unbound x hx).symm.trans h

/-- What encloses a node in the part does so in the whole. -/
theorem Typing.Nests.enclosing_le {c c' : Context} (hn : Nests t root p b c c') {x q : NodeId}
    (hx : x ∈ t.preorder root) (h : c'.links.enclosingProcedure? t x = some q) :
    c.links.enclosingProcedure? t x = some q := by
  by_cases hxb : x ∈ t.preorder b
  · rcases hn.inside x hxb with ⟨q', -, hhost, hhost'⟩ | ⟨-, hhost'⟩
    · exact hhost.trans (hhost'.symm.trans h)
    · cases hhost'.symm.trans h
  · exact (hn.outside x hx hxb).symm.trans h

/-- The links after a part `b` of the section of `root` has been listed as a section inside of it:
`b` is linked to `root`, and nothing else has changed. -/
structure Links.Relinked (t : Tree) (root b : NodeId) (l l' : Links) : Prop where
  /-- The links of the whole lead from every node to the root. -/
  rooted : l.Rooted t root
  /-- Those of the part lead from its nodes to its root. -/
  follow : l'.Follow t b
  /-- The root of the part is linked to that of the whole. -/
  part : l'.parent? b = some root
  /-- Nothing else has changed. -/
  others : ∀ x, x ∉ t.preorder b → l'.parent? x = l.parent? x

theorem Section.relinked_ofTree (h : t.DirectBody root p b) (hsize : root < links.size) :
    let whole := Section.ofTree t links root none
    Links.Relinked t root b whole.2 (Section.ofTree t whole.2 b (some whole.1)).2 := by
  intro whole
  have hnodup := h.arranged.nodup
  have hbnodup := Tree.nodup_of_mem hnodup h.body_mem
  have hbsize : b < whole.2.size := by
    rw [Section.size_links_ofTree]
    exact Nat.lt_of_le_of_lt (t.le_of_mem_preorder h.body_mem) hsize
  exact ⟨Section.rooted_ofTree hnodup hsize, Section.follow_ofTree _ hbnodup hbsize,
    Section.parent?_root_ofTree _ hbnodup hbsize, fun x hx => Section.parent?_ofTree_of_notMem _ hx⟩

namespace Links.Relinked

variable {l l' : Links} (hl : l.Relinked t root b l') (h : t.DirectBody root p b)

include hl h

/-- The new links lead to larger numbers too. -/
theorem ascends : l'.Ascends (· ∈ t.preorder root) := by
  intro x a hx ha
  by_cases hxb : x ∈ t.preorder b
  · by_cases hne : x = b
    · subst hne
      obtain rfl := Option.some.inj (hl.part.symm.trans ha)
      exact ⟨t.self_mem_preorder root, Nat.lt_of_le_of_ne (t.le_of_mem_preorder hx) h.body_ne_root⟩
    · obtain ⟨y, hy, hxy⟩ := Tree.exists_parent hxb hne
      obtain rfl := Option.some.inj ((hl.follow y hy x hxy).symm.trans ha)
      exact ⟨h.mem_of_body hy, t.child_lt hxy⟩
  · exact hl.rooted.ascends x a hx (hl.others x hxb ▸ ha)

/-- Inside the body the same procedures are found, except for the one of the body. -/
theorem inside {x : NodeId} (hx : x ∈ t.preorder b) :
    (∃ q ∈ t.preorder b, l.enclosingProcedure? t x = some q ∧ l'.enclosingProcedure? t x = some q)
      ∨ (l.enclosingProcedure? t x = some p ∧ l'.enclosingProcedure? t x = none) := by
  have hascends := hl.ascends h
  have hrooted := hl.rooted
  induction x, hx using Tree.preorder_induction with
  | hroot =>
    right
    have hnone : l'.parent? root = none :=
      (hl.others root (Resolution.root_notMem h.body_mem h.body_ne_root)).trans hrooted.root_parent
    have hscope : (t.shape root).isProcedure = false := by
      have hscope := h.arranged.root_scope
      unfold Tree.isScope at hscope
      cases hshape : t.shape root <;> rw [hshape] at hscope <;> first | rfl | cases hscope
    constructor
    · rw [enclosingProcedure?, hrooted.ancestor?_child _ h.mem h.child, if_pos h.isProcedure]
    · rw [enclosingProcedure?, hascends.ancestor?_eq _ h.body_mem, hl.part, Option.bind_some,
        if_neg (by simp [hscope]), hascends.ancestor?_eq _ (t.self_mem_preorder root), hnone]
      rfl
  | hchild y hy ih x hx =>
    have hxmem := h.mem_of_body (t.mem_preorder_trans hy (t.child_mem_preorder hx))
    unfold enclosingProcedure? at ih ⊢
    rw [hrooted.ancestor?_child _ (h.mem_of_body hy) hx, hascends.ancestor?_eq _ hxmem,
      hl.follow y hy x hx, Option.bind_some]
    split
    · exact .inl ⟨y, hy, rfl, rfl⟩
    · exact ih

/-- Outside of the body nothing has changed. -/
theorem outside {x : NodeId} (hx : x ∈ t.preorder root) (hxb : x ∉ t.preorder b) :
    l'.enclosingProcedure? t x = l.enclosingProcedure? t x := by
  have hascends := hl.ascends h
  have hrooted := hl.rooted
  unfold enclosingProcedure?
  induction x, hx using Tree.preorder_induction with
  | hroot =>
    rw [hascends.ancestor?_eq _ (t.self_mem_preorder root),
      hrooted.ascends.ancestor?_eq _ (t.self_mem_preorder root), hl.others root hxb,
      hrooted.root_parent]
    rfl
  | hchild y hy ih x hx =>
    have hxmem := t.mem_preorder_trans hy (t.child_mem_preorder hx)
    have hyb : y ∉ t.preorder b := fun hyb =>
      hxb (t.mem_preorder_trans hyb (t.child_mem_preorder hx))
    rw [hrooted.ancestor?_child _ hy hx, hascends.ancestor?_eq _ hxmem, hl.others x hxb,
      hrooted.parent y hy x hx, Option.bind_some, ih hyb]

end Links.Relinked

/-- **The body of a direct procedure nests in the whole.** -/
theorem Typing.exists_nests (h : t.DirectBody root p b) (hsize : root < links.size) :
    let whole := Section.ofTree t links root none
    let part := Section.ofTree t whole.2 b (some whole.1)
    ∃ outer inner, Resolution.ofSection t whole.2 whole.1 none = .ok outer
      ∧ Resolution.ofSection t part.2 part.1 (some outer) = .ok inner
      ∧ Resolution.Exact t root [] [] outer
      ∧ Nests t root p b ⟨t, whole.2, outer⟩ ⟨t, part.2, inner⟩ := by
  intro whole part
  have hnodup := h.arranged.nodup
  obtain ⟨outer, houter, hwhole⟩ := Resolution.exact_ofTree none h.arranged.root_scope hnodup hsize
  obtain ⟨inner, hinner, hpart⟩ := @Resolution.exact_of_regular [root] t part.2 part.1 (some outer)
    (Resolution.regular_nested h.arranged.root_scope hnodup hsize h.body_mem h.scope h.body_ne_root)
    (Section.nodes_ofTree t whole.2 b _) (fun _ _ => Section.subtreeEnd_ofTree)
  have hlinks : Links.Relinked t root b whole.2 part.2 := Section.relinked_ofTree h hsize
  refine ⟨outer, inner, houter, hinner, hwhole, rfl, rfl, fun x hx => ?_, fun x hx => ?_,
    fun x hx => hlinks.inside h hx, fun x hx hxb => hlinks.outside h hx hxb⟩
  · by_cases hname : ∃ name, t.shape x = .ident name
    · obtain ⟨name, hname⟩ := hname
      -- There are no scopes that the nested search passes over.
      obtain ⟨own, between, -, haround, -, hfound, hfound'⟩ := Resolution.searches_part
        h.arranged.root_scope hnodup h.body_mem h.scope h.body_ne_root hwhole hpart hx hname
      rw [h.scopesAround_body] at haround
      obtain rfl : between = [] := by
        rwa [List.self_eq_append_left] at haround
      show inner.declaration? x = outer.declaration? x
      rw [hfound, hfound']
      rfl
    · have hnone {root : NodeId} {base : List Entry} {tail : List NodeId} {r : Resolution}
          (h : Resolution.Exact t root base tail r) : r.declaration? x = none :=
        Classical.byContradiction fun hne => hname (h.idents x hne).2
      exact (hnone hpart).trans (hnone hwhole).symm
  · exact Classical.byContradiction fun hne => hx (hpart.idents x hne).1

end

end MiddleEnd
