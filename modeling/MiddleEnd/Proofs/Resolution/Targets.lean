import MiddleEnd.Proofs.Resolution.Scan

/-!
# What names lead to

The declaration that an identifier is bound to begins before the identifier, and it ends before it
unless it is a constant that is a procedure.  Names that are followed from one declaration to the
next therefore lead to the front of the section: the procedure that a callee denotes begins before
the callee ends.

## Main results

* `Resolution.Exact.declared_before` — where the declaration of an identifier stands.
* `Resolution.Exact.leads_lt` — what a name leads to stands before the name.
* `Resolution.Exact.target_before`, `Resolution.Exact.target_notMem_after` — where the procedure
  that a callee denotes stands.
-/

namespace MiddleEnd

namespace Tree

variable {t : Tree} {root : NodeId}

/-- Parentheses do not reach beyond a node that is none. -/
theorem position_ungroup_le (hnodup : (t.preorder root).Nodup) {y x : NodeId}
    (hy : y ∈ t.preorder root) (hle : t.position root y ≤ t.position root x)
    (hx : ∀ e, t.shape x ≠ .group e) : t.position root (t.ungroup y) ≤ t.position root x := by
  refine (ungroup_induction (motive := fun y => y ∈ t.preorder root
    ∧ t.position root y ≤ t.position root x) ⟨hy, hle⟩ fun y e hshape he ⟨hy, hle⟩ => ?_).2
  have hne : t.position root y ≠ t.position root x := by
    intro heq
    obtain rfl := position_inj hy heq
    exact hx e hshape
  have hchild : t.children y = [e] := by simp [children, hshape, Shape.children]
  refine ⟨t.mem_preorder_trans hy (t.child_mem_preorder he), ?_⟩
  rw [position_first_child hnodup hy hchild]
  omega

/-- What is inside parentheses ends with them or before. -/
theorem position_lt_of_ungroup (hnodup : (t.preorder root).Nodup) {y : NodeId}
    (hy : y ∈ t.preorder root) :
    t.position root (t.ungroup y) < t.position root y + t.weight y := by
  have hmem := t.ungroup_mem_preorder y
  exact ((mem_preorder_iff_position hnodup hy (t.mem_preorder_trans hy hmem)).1 hmem).2

end Tree

namespace Resolution

variable {t : Tree} {root : NodeId} {r : Resolution}

/-- **The declaration of an identifier begins before it**, and has ended there unless it is a
constant that is a procedure. -/
theorem Exact.declared_before (h : Exact t root [] [] r) {x decl : NodeId} {name : String}
    (hx : x ∈ t.preorder root) (hname : t.shape x = .ident name)
    (hdecl : r.declaration? x = some decl) :
    decl ∈ t.preorder root ∧ (t.shape decl).isDeclaration = true
      ∧ t.position root decl < t.position root x
      ∧ (t.namesProcedure decl = true
        ∨ t.position root decl + t.weight decl ≤ t.position root x) := by
  obtain ⟨own, hlisted, hfound⟩ := h.bound x hx name hname
  rw [hdecl, List.append_nil] at hfound
  obtain ⟨scope, -, hlatest⟩ := List.exists_of_findSome?_eq_some hfound.symm
  obtain ⟨e, he, rfl⟩ := latest?_mem hlatest
  obtain ⟨hentry, hbefore, hvisible⟩ := (hlisted.mem_iff e).1 he
  refine ⟨hentry.mem, ?_, hbefore, ?_⟩
  · unfold Shape.isDeclaration
    rw [hentry.name]
    rfl
  · rw [hentry.visibleFrom] at hvisible
    by_cases hproc : t.namesProcedure e.decl = true
    · exact .inl hproc
    · rw [Tree.visibleFrom_of_value (by simpa using hproc)] at hvisible
      exact .inr (Nat.le_of_lt_succ hvisible)

/-- A constant that is a procedure leads to one that begins before every use of its name. -/
theorem position_of_namesProcedure (hnodup : (t.preorder root).Nodup) {decl definition x : NodeId}
    {name ident : String} (hdecl : decl ∈ t.preorder root)
    (hshape : t.shape decl = .constant name definition) (hx : t.shape x = .ident ident)
    (hbefore : t.position root decl < t.position root x) :
    t.position root (t.ungroup definition) ≤ t.position root x := by
  have hchild : t.children decl = [definition] := by simp [Tree.children, hshape, Shape.children]
  have hmem : definition ∈ t.children decl := by simp [hchild]
  apply Tree.position_ungroup_le hnodup (t.mem_preorder_trans hdecl (t.child_mem_preorder hmem))
  · rw [Tree.position_first_child hnodup hdecl hchild]
    exact hbefore
  · intro e he
    rw [hx] at he
    cases he

/-- What is bound is a name, and its declaration begins before it. -/
theorem Exact.bound_before (h : Exact t root [] [] r) {x decl : NodeId}
    (hbound : r.declaration? x = some decl) :
    x ∈ t.preorder root ∧ (∃ name, t.shape x = .ident name) ∧ decl ∈ t.preorder root
      ∧ (t.shape decl).isDeclaration = true ∧ t.position root decl < t.position root x
      ∧ (t.position root decl + t.weight decl ≤ t.position root x
        ∨ t.namesProcedure decl = true) := by
  obtain ⟨hx, name, hname⟩ := h.idents x (by simp [hbound])
  obtain ⟨hdecl, hdeclares, hbefore, hplace⟩ := h.declared_before hx hname hbound
  exact ⟨hx, ⟨name, hname⟩, hdecl, hdeclares, hbefore, hplace.symm⟩

/-- **What a name leads to stands before the name**: the definition has ended there, or it is a
procedure that has begun. -/
theorem Exact.leads_lt (h : Exact t root [] [] r) (hnodup : (t.preorder root).Nodup)
    {callee e : NodeId} (hleads : r.Leads t e callee) :
    e ∈ t.preorder root
      ∧ t.position root (t.ungroup e) < t.position root (t.ungroup callee) := by
  obtain ⟨name, decl, hident, hbound, hdefinition⟩ := hleads
  obtain ⟨-, -, hdecl, -, hbefore, hplace⟩ := h.bound_before hbound
  have hchild := Tree.child_of_definition? hdefinition
  have hmem := t.mem_preorder_trans hdecl (t.child_mem_preorder hchild)
  refine ⟨hmem, ?_⟩
  rcases hplace.symm with hproc | hleft
  · obtain ⟨constant, hshape⟩ : ∃ constant, t.shape decl = .constant constant e := by
      unfold Tree.namesProcedure at hproc
      unfold Tree.definition? at hdefinition
      split at hproc <;> simp_all
    have hle := position_of_namesProcedure hnodup hdecl hshape hident hbefore
    refine Nat.lt_of_le_of_ne hle fun heq => ?_
    -- A procedure is no name.
    have hsame := Tree.position_inj (t.mem_preorder_trans hmem (t.ungroup_mem_preorder e)) heq
    simp [Tree.namesProcedure, hshape, isProcedureLiteral, hsame, hident,
      Shape.isProcedure] at hproc
  · have hinside := Tree.position_lt_of_ungroup hnodup hmem
    have hend := Tree.end_le_end hnodup hdecl (t.child_mem_preorder hchild)
    omega

/-- **The procedure that a callee denotes begins before the callee ends.** -/
theorem Exact.target_before (h : Exact t root [] [] r) (hnodup : (t.preorder root).Nodup)
    {callee p : NodeId} (hcallee : callee ∈ t.preorder root)
    (hp : r.procedureTarget? t callee = some p) :
    p ∈ t.preorder root ∧ (t.shape p).isProcedure = true
      ∧ t.position root p < t.position root callee + t.weight callee := by
  -- Every name that is followed leads to the front.
  have hfront {steps : Nat} {callee : NodeId} (hcallee : callee ∈ t.preorder root)
      (hp : targetWithin? t r steps callee = some p) :
      p ∈ t.preorder root ∧ t.position root p ≤ t.position root (t.ungroup callee) := by
    induction steps generalizing callee with
    | zero => cases hp
    | succ steps ih =>
      rcases targetWithin?_succ_iff.1 hp with ⟨rfl, -⟩ | ⟨e, hleads, hp⟩
      · exact ⟨t.mem_preorder_trans hcallee (t.ungroup_mem_preorder callee), Nat.le_refl _⟩
      · obtain ⟨hmem, hlt⟩ := h.leads_lt hnodup hleads
        obtain ⟨hpmem, hle⟩ := ih hmem hp
        exact ⟨hpmem, Nat.le_of_lt (Nat.lt_of_le_of_lt hle hlt)⟩
  obtain ⟨hmem, hle⟩ := hfront hcallee hp
  exact ⟨hmem, isProcedure_of_target hp,
    Nat.lt_of_le_of_lt hle (Tree.position_lt_of_ungroup hnodup hcallee)⟩

/-- **The procedure that a callee denotes is not listed after the callee.** -/
theorem Exact.target_notMem_after (h : Exact t root [] [] r) (hnodup : (t.preorder root).Nodup)
    {callee p : NodeId} {before after : List NodeId}
    (hlisting : t.preorder root = before ++ (t.preorder callee ++ after))
    (hp : r.procedureTarget? t callee = some p) : p ∉ after := by
  have hmem : callee ∈ t.preorder root := by
    rw [hlisting]
    exact List.mem_append_right _ (List.mem_append_left _ (t.self_mem_preorder callee))
  obtain ⟨-, -, hlt⟩ := h.target_before hnodup hmem hp
  intro hafter
  -- What is listed after the callee begins after its end.
  have hcallee : t.position root callee = before.length := by
    apply Tree.position_eq hnodup
    rw [hlisting, t.preorder_eq callee]
    simp
  obtain ⟨k, hk⟩ := List.mem_iff_getElem?.1 hafter
  have hplace : t.position root p = before.length + t.weight callee + k := by
    apply Tree.position_eq hnodup
    rw [hlisting, ← List.append_assoc, List.getElem?_append_right (by simp [Tree.weight])]
    simpa [Tree.weight] using hk
  omega

end Resolution

end MiddleEnd
