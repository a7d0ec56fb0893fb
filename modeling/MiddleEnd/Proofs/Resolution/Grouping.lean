import Mathlib.Data.List.Find
import MiddleEnd.Proofs.Resolution.Targets
import MiddleEnd.Proofs.Tree.Grouping

/-!
# Names in trees with more parentheses

Parentheses around expressions change no binding: an identifier is bound to the declaration that
stands for the one it was bound to, and a callee denotes the procedure that stands for the one it
denoted.

## Main results

* `Tree.Regroups.binding?_eq` — **names are bound to the same declarations.**
* `Resolution.Exact.targetWithin?_congr` — following names ends before the steps do.
* `Tree.Regroups.procedureTarget?_eq` — **callees denote the same procedures.**
-/

namespace MiddleEnd

namespace Shape

/-- An expression declares nothing. -/
theorem declaredName?_of_isExpr {s : Shape} (h : s.isExpr = true) : s.declaredName? = none := by
  cases s <;> first | rfl | cases h

end Shape

/-! ### Bindings -/

namespace Tree.Regroups

variable {t t' : Tree} {root root' : NodeId} {origin : NodeId → NodeId}
  (h : t.Regroups t' root root' origin) (ht : t.WellFormed root) (ht' : t'.WellFormed root')

include h ht ht'

/-- The latest item of a scope that declares a name is the same. -/
theorem declared?_eq {scope x : NodeId} (hscope : scope ∈ t'.preorder root')
    (hs : t'.isScope scope = true) (hx : x ∈ t'.preorder root') (hkept : t'.adds origin x = false)
    (name : String) :
    t.declared? root (t.position root (origin x)) name (origin scope)
      = (t'.declared? root' (t'.position root' x) name scope).map origin := by
  unfold declared?
  rw [h.children_eq hscope (adds_of_scope hs), ← List.map_reverse, List.find?_map]
  refine congrArg (Option.map origin) (List.find?_congr fun d hd => ?_)
  have hmem := ht'.child hscope (List.mem_reverse.1 hd)
  simp only [Function.comp_apply, decide_eq_decide]
  cases hadds : t'.adds origin d with
  | true =>
    obtain ⟨e, hshape, -⟩ := adds_iff.1 hadds
    rw [Shape.declaredName?_of_isExpr (h.isExpr_of_adds ht' hmem hadds), hshape]
    simp [Shape.declaredName?]
  | false =>
    rw [h.kept d hmem hadds, Shape.declaredName?_rename,
      h.visibleFrom_le_iff ht.nodup ht'.nodup hmem hadds hx hkept]

theorem lexical?_eq {x : NodeId} (hx : x ∈ t'.preorder root') (hkept : t'.adds origin x = false)
    (name : String) :
    t.lexical? root (origin x) (t.position root (origin x)) name
      = (t'.lexical? root' x (t'.position root' x) name).map origin := by
  unfold lexical?
  rw [h.scopesAround_eq ht.nodup ht'.nodup hx]
  have hscopes : ∀ scope ∈ t'.scopesAround root' x,
      scope ∈ t'.preorder root' ∧ t'.isScope scope = true := fun scope hscope =>
    ⟨(mem_scopesAround.1 hscope).1, (mem_scopesAround.1 hscope).2.1⟩
  generalize t'.scopesAround root' x = scopes at hscopes ⊢
  induction scopes with
  | nil => rfl
  | cons scope scopes ih =>
    obtain ⟨hmem, hs⟩ := hscopes scope (.head _)
    rw [List.map_cons, List.findSome?_cons, List.findSome?_cons,
      h.declared?_eq ht ht' hmem hs hx hkept,
      ih fun s hs => hscopes s (.tail _ hs)]
    cases t'.declared? root' (t'.position root' x) name scope <;> rfl

/-- **Names are bound to the same declarations.** -/
theorem binding?_eq {x : NodeId} (hx : x ∈ t'.preorder root') (hkept : t'.adds origin x = false) :
    t.binding? root (origin x) = (t'.binding? root' x).map origin := by
  unfold binding?
  rw [h.kept x hx hkept]
  cases t'.shape x <;> try rfl
  simp only [Shape.rename, if_pos hx, if_pos (h.origin_mem hx), h.lexical?_eq ht ht' hx hkept]

/-- If all names have declarations in one tree, they have in the other. -/
theorem unbound_eq_nil (hunbound : t.unbound root = []) : t'.unbound root' = [] := by
  rw [unbound, List.filter_eq_nil_iff] at hunbound ⊢
  intro x hx
  simp only [decide_eq_true_eq, not_and]
  intro hident hnone
  obtain ⟨name, hname⟩ := Shape.exists_of_isIdent hident
  have hkept : t'.adds origin x = false := adds_of_shape (by simp [hname])
  refine hunbound (origin x) (h.origin_mem hx) ?_
  rw [decide_eq_true_eq, h.binding?_eq ht ht' hx hkept, hnone, h.kept x hx hkept, hname]
  exact ⟨rfl, rfl⟩

end Tree.Regroups

/-! ### Callees -/

namespace Resolution

variable {t : Tree} {root : NodeId} {r : Resolution}

/-- **Following names ends before the steps do**: every step leads to a name before the last one, or
to a procedure. -/
theorem Exact.targetWithin?_congr (h : Exact t root [] [] r) (hnodup : (t.preorder root).Nodup)
    {m n : Nat} {callee : NodeId} (hm : t.position root (t.ungroup callee) < m)
    (hn : t.position root (t.ungroup callee) < n) :
    targetWithin? t r m callee = targetWithin? t r n callee := by
  induction m generalizing n callee with
  | zero => omega
  | succ m ih =>
    obtain ⟨n, rfl⟩ : ∃ k, n = k + 1 := ⟨n - 1, by omega⟩
    ext p
    rw [targetWithin?_succ_iff, targetWithin?_succ_iff]
    refine or_congr_right (exists_congr fun e => and_congr_right fun hleads => ?_)
    obtain ⟨-, hlt⟩ := h.leads_lt hnodup hleads
    rw [ih (n := n) (by omega) (by omega)]

/-- There are enough steps for all names of a section. -/
theorem Exact.procedureTarget?_eq (h : Exact t root [] [] r) (ht : t.WellFormed root)
    {callee : NodeId} (hcallee : callee ∈ t.preorder root) {n : Nat} (hn : t.size + 1 ≤ n) :
    r.procedureTarget? t callee = targetWithin? t r n callee := by
  have hplace :=
    Tree.position_lt_weight (t.mem_preorder_trans hcallee (t.ungroup_mem_preorder callee))
  have hweight := t.weight_le_size ht.nodup (Tree.lt_size_of_isScope ht.root_scope)
  exact h.targetWithin?_congr ht.nodup (by omega) (by omega)

end Resolution

namespace Tree.Regroups

variable {t t' : Tree} {root root' : NodeId} {origin : NodeId → NodeId} {r r' : Resolution}
  (h : t.Regroups t' root root' origin) (ht : t.WellFormed root) (ht' : t'.WellFormed root')
  (hexact : Resolution.Exact t root [] [] r) (hexact' : Resolution.Exact t' root' [] [] r')
  (hbound : ∀ x ∈ t'.preorder root', t'.adds origin x = false →
    r.declaration? (origin x) = (r'.declaration? x).map origin)

include h

/-- A declaration is defined with what stands for its definition. -/
theorem definition?_eq {decl : NodeId} (hdecl : decl ∈ t'.preorder root')
    (hkept : t'.adds origin decl = false) :
    t.definition? (origin decl) = (t'.definition? decl).map origin := by
  unfold definition?
  rw [h.kept decl hdecl hkept]
  cases t'.shape decl <;> rfl

include hexact' hbound

/-- Step by step the same names are followed. -/
theorem targetWithin?_eq (steps : Nat) {callee : NodeId} (hcallee : callee ∈ t'.preorder root') :
    Resolution.targetWithin? t r steps (origin callee)
      = (Resolution.targetWithin? t' r' steps callee).map origin := by
  induction steps generalizing callee with
  | zero => rfl
  | succ steps ih =>
    have hexpr := t'.mem_preorder_trans hcallee (t'.ungroup_mem_preorder callee)
    -- What is left when the parentheses are off has been kept.
    have hkept : t'.adds origin (t'.ungroup callee) = false :=
      adds_of_shape (t'.shape_ungroup_ne callee)
    rw [Resolution.targetWithin?_succ, Resolution.targetWithin?_succ, h.origin_ungroup hcallee,
      h.kept _ hexpr hkept, hbound _ hexpr hkept, Shape.isProcedure_rename, Shape.isIdent_rename]
    split
    · rfl
    split
    · -- A name leads on to its declaration, and from there to the definition.
      next hident =>
      obtain ⟨name, hname⟩ := Shape.exists_of_isIdent hident
      cases hdecl : r'.declaration? (t'.ungroup callee) with
      | none => rfl
      | some decl =>
        obtain ⟨hmem, hdeclares, -⟩ := hexact'.declared_before hexpr hname hdecl
        simp only [Option.map_some, Option.bind_some,
          h.definition?_eq hmem (adds_of_declaration hdeclares)]
        cases hdefinition : t'.definition? decl with
        | none => rfl
        | some e =>
          exact ih (t'.mem_preorder_trans hmem
            (t'.child_mem_preorder (child_of_definition? hdefinition)))
    · rfl

include ht ht' hexact

/-- **Callees denote the same procedures.** -/
theorem procedureTarget?_eq {callee : NodeId} (hcallee : callee ∈ t'.preorder root') :
    r.procedureTarget? t (origin callee) = (r'.procedureTarget? t' callee).map origin := by
  rw [hexact.procedureTarget?_eq ht (h.origin_mem hcallee)
      (n := max (t.size + 1) (t'.size + 1)) (Nat.le_max_left _ _),
    hexact'.procedureTarget?_eq ht' hcallee (n := max (t.size + 1) (t'.size + 1))
      (Nat.le_max_right _ _)]
  exact h.targetWithin?_eq hexact' hbound _ hcallee

end Tree.Regroups

end MiddleEnd
