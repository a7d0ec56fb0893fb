import MiddleEnd.Proofs.Resolution.Grouping
import MiddleEnd.Proofs.Resolution.Lexical

/-!
# Following names to their end

A name leads to what its declaration is defined with, which may be a name again.  Every step leads
to an expression that stands before the name, so that no chain of names goes on for ever, and the
search for the procedure that a callee denotes needs no count of its steps.

A declaration is an item of a scope, and its name is bound only inside that scope.  What a procedure
declares is therefore unknown outside of it.

## Main results

* `Resolution.Exact.leads_acc` — **every chain of names ends.**
* `Resolution.Exact.procedureTarget?_step` — **the procedure of a callee, without a count of
  steps.**
* `Resolution.Exact.mem_of_declared` — what is declared in a part is used in that part.
-/

namespace MiddleEnd

namespace Resolution

variable {t : Tree} {root : NodeId} {r : Resolution}

/-! ### Chains of names -/

/-- **Every chain of names ends.** -/
theorem Exact.leads_acc (h : Exact t root [] [] r) (hnodup : (t.preorder root).Nodup)
    (callee : NodeId) : Acc (r.Leads t) callee := by
  -- By induction on the place of the name that is followed next.
  induction hplace :
    t.position root (t.ungroup callee) using Nat.strongRecOn generalizing callee with
  | ind place ih =>
    refine ⟨callee, fun e hleads => ?_⟩
    obtain ⟨-, hlt⟩ := h.leads_lt hnodup hleads
    exact ih _ (hplace ▸ hlt) e rfl

/-- **The procedure of a callee, without a count of steps**: it is the callee itself, or that of
what its name leads to. -/
theorem Exact.procedureTarget?_step (h : Exact t root [] [] r) (ht : t.WellFormed root)
    {callee : NodeId} (hcallee : callee ∈ t.preorder root) :
    r.procedureTarget? t callee =
      match t.shape (t.ungroup callee) with
      | .procedure _ _ => some (t.ungroup callee)
      | .ident _ => do
        let decl ← r.declaration? (t.ungroup callee)
        let e ← t.definition? decl
        r.procedureTarget? t e
      | _ => none := by
  have hname := t.mem_preorder_trans hcallee (t.ungroup_mem_preorder callee)
  have hplace := Tree.position_lt_weight hname
  have hweight := t.weight_le_size ht.nodup (Tree.lt_size_of_isScope ht.root_scope)
  -- One step less leads as far.
  have hstep {e : NodeId} (hleads : r.Leads t e callee) :
      targetWithin? t r t.size e = r.procedureTarget? t e := by
    obtain ⟨-, hlt⟩ := h.leads_lt ht.nodup hleads
    exact h.targetWithin?_congr ht.nodup (by omega) (by omega)
  rw [procedureTarget?, targetWithin?_succ]
  cases hident : t.shape (t.ungroup callee) <;> try rfl
  next name =>
  exact Option.bind_congr fun decl hbound => Option.bind_congr fun e hdefinition =>
    hstep ⟨name, decl, hident, hbound, hdefinition⟩

/-! ### Where names are known -/

/-- A name is bound to an item of a scope around it. -/
theorem Exact.declared_around (h : Exact t root [] [] r) (ht : t.WellFormed root) {x decl : NodeId}
    (hbound : r.declaration? x = some decl) :
    ∃ scope ∈ t.preorder root, t.isScope scope = true ∧ decl ∈ t.children scope
      ∧ x ∈ t.preorder scope := by
  obtain ⟨hx, ⟨name, hname⟩, -⟩ := h.bound_before hbound
  have hfinds := h.bound x hx name hname
  rw [hbound] at hfinds
  have hlexical := finds_eq_lexical? ht.nodup ht.root_scope ht.declares_in_scopes hname hfinds
  obtain ⟨-, -, scope, hin, hdecl, -⟩ := declaresAround_of_lexical? hname hlexical.symm
  obtain ⟨hmem, hscope, -, hinside⟩ := Tree.mem_scopesAround.1 hin
  exact ⟨scope, hmem, hscope, hdecl, hinside⟩

/-- **What is declared in a part is used in that part.** -/
theorem Exact.mem_of_declared (h : Exact t root [] [] r) (ht : t.WellFormed root)
    {x decl q : NodeId}
    (hbound : r.declaration? x = some decl) (hq : q ∈ t.preorder root) (hdecl : decl ∈ t.preorder q)
    (hne : decl ≠ q) : x ∈ t.preorder q := by
  obtain ⟨scope, hscope, -, hchild, hx⟩ := h.declared_around ht hbound
  exact t.mem_preorder_trans
    (Tree.parent_mem_preorder ht.nodup hq hscope hchild hdecl (Ne.symm hne)) hx

end Resolution

end MiddleEnd
