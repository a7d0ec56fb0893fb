import Mathlib.Data.List.Pairwise
import MiddleEnd.Proofs.Resolution.Lexical
import MiddleEnd.Proofs.Tree.WellFormed

/-!
# Trees with more parentheses

One tree is another one with groups put around some of its expressions.  Nodes have other numbers
then, so that the two are related by the node of the first tree that each node of the second one
stands for.  The nodes that have not been added stand in the same order, and the same nodes are
inside of them.

## Main definitions

* `Shape.rename` — a shape with other numbers for the nodes that it mentions.
* `Tree.adds` — whether a node is a group that has been added.
* `Tree.Regroups` — one tree is another one with groups added around expressions.

## Main results

* `Tree.Regroups.preorder_eq` — the listing without the added groups is that of the other tree.
* `Tree.Regroups.position_le_iff`, `Tree.Regroups.mem_preorder_iff` — order and nesting are the
  same.
* `Tree.Regroups.origin_ungroup` — **what is inside of all parentheses is the same.**
* `Tree.Regroups.scopesAround_eq`, `Tree.Regroups.ancestor?_eq` — so is what is around a node.
-/

namespace MiddleEnd

namespace Shape

/-- The shape with other numbers for the nodes that it mentions. -/
def rename (f : NodeId → NodeId) : Shape → Shape
  | module items => module (items.map f)
  | block stmts => block (stmts.map f)
  | constant name definition => constant name (f definition)
  | var name ty init => var name (ty.map f) (init.map f)
  | procedure result body => procedure (result.map f) (f body)
  | struct fields => struct (fields.map f)
  | field name ty => field name (f ty)
  | enum variants => enum (variants.map f)
  | variant name => variant name
  | exprStmt expr => exprStmt (f expr)
  | assign target value => assign (f target) (f value)
  | parallel targets values => parallel (targets.map f) (values.map f)
  | ret value => ret (value.map f)
  | literal lit => literal lit
  | ident name => ident name
  | binary left op right => binary (f left) (f op) (f right)
  | signed op operand => signed (f op) (f operand)
  | group expr => group (f expr)
  | call callee => call (f callee)
  | cast expr ty => cast (f expr) (f ty)
  | native source inputs output => native source (inputs.map f) (output.map f)
  | slot target offset => slot (f target) offset
  | binaryOp op => binaryOp op
  | signOp op => signOp op
  | typeName name => typeName name
  | array elem len => array (f elem) (f len)

variable (f : NodeId → NodeId) (s : Shape)

theorem children_rename : (s.rename f).children = s.children.map f := by
  cases s
  case var name ty init => cases ty <;> cases init <;> rfl
  case procedure result body => cases result <;> rfl
  case parallel targets values => exact List.map_append.symm
  case ret value => cases value <;> rfl
  case native source inputs output => cases output <;> simp [rename, children]
  all_goals rfl

@[simp] theorem isScope_rename : (s.rename f).isScope = s.isScope := by cases s <;> rfl

@[simp] theorem isProcedure_rename : (s.rename f).isProcedure = s.isProcedure := by cases s <;> rfl

@[simp] theorem declaredName?_rename : (s.rename f).declaredName? = s.declaredName? := by
  cases s <;> rfl

@[simp] theorem isIdent_rename : (s.rename f).isIdent = s.isIdent := by cases s <;> rfl

@[simp] theorem isExpr_rename : (s.rename f).isExpr = s.isExpr := by cases s <;> rfl

end Shape

namespace Tree

/-- Whether a node is a group that has been added: it stands for the same node as what is in it. -/
def adds (t : Tree) (origin : NodeId → NodeId) (x : NodeId) : Bool :=
  match t.shape x with
  | .group e => origin e = origin x
  | _ => false

/-- `t'` below `root'` is `t` below `root` with groups added around expressions.  Each node of `t'`
stands for the node `origin` of `t`: an added group for what is in it, and every other node for one
of its own shape.  Added groups have the spans of what is in them, and the others keep theirs. -/
structure Regroups (t t' : Tree) (root root' : NodeId) (origin : NodeId → NodeId) : Prop where
  /-- The roots stand for each other. -/
  root_eq : origin root' = root
  /-- A node that has not been added has the shape of the one it stands for. -/
  kept : ∀ x ∈ t'.preorder root', t'.adds origin x = false →
    t.shape (origin x) = (t'.shape x).rename origin
  /-- Every node lies where the one lies that it stands for. -/
  span : ∀ x ∈ t'.preorder root', t'.span x = t.span (origin x)

instance (t t' : Tree) (root root' : NodeId) (origin : NodeId → NodeId) :
    Decidable (t.Regroups t' root root' origin) :=
  decidable_of_iff
    (origin root' = root
      ∧ (∀ x ∈ t'.preorder root', t'.adds origin x = false →
        t.shape (origin x) = (t'.shape x).rename origin)
      ∧ ∀ x ∈ t'.preorder root', t'.span x = t.span (origin x))
    ⟨fun ⟨h₁, h₂, h₃⟩ => ⟨h₁, h₂, h₃⟩, fun ⟨h₁, h₂, h₃⟩ => ⟨h₁, h₂, h₃⟩⟩

variable {t t' : Tree} {root root' : NodeId} {origin : NodeId → NodeId}

theorem adds_iff {x : NodeId} :
    t'.adds origin x = true ↔ ∃ e, t'.shape x = .group e ∧ origin e = origin x := by
  unfold adds
  split
  · next e hshape => simp [hshape]
  · next hno =>
    simp only [Bool.false_eq_true, false_iff]
    rintro ⟨e, hshape, -⟩
    exact hno e hshape

theorem adds_of_shape {x : NodeId} (h : ∀ e, t'.shape x ≠ .group e) : t'.adds origin x = false := by
  rw [Bool.eq_false_iff]
  intro hadds
  obtain ⟨e, he, -⟩ := adds_iff.1 hadds
  exact h e he

theorem adds_of_declaration {x : NodeId} (h : (t'.shape x).isDeclaration = true) :
    t'.adds origin x = false := adds_of_shape fun e he => by simp [he, Shape.isDeclaration,
      Shape.declaredName?] at h

theorem adds_of_scope {x : NodeId} (h : t'.isScope x = true) : t'.adds origin x = false :=
  adds_of_shape fun e he => by simp [isScope, he, Shape.isScope] at h

theorem adds_of_procedure {x : NodeId} (h : (t'.shape x).isProcedure = true) :
    t'.adds origin x = false := adds_of_shape fun e he => by simp [he, Shape.isProcedure] at h

/-- Positions grow along the listing. -/
theorem pairwise_position (ht : (t.preorder root).Nodup) :
    (t.preorder root).Pairwise fun x y => t.position root x < t.position root y := by
  rw [List.pairwise_iff_getElem]
  intro i j hi hj hij
  rwa [position_eq ht (List.getElem?_eq_getElem hi), position_eq ht (List.getElem?_eq_getElem hj)]

/-- Two members of a list in order are in order one way or the other. -/
theorem or_of_pairwise {α : Type} {R : α → α → Prop} {l : List α} (hl : l.Pairwise R) {a b : α}
    (ha : a ∈ l) (hb : b ∈ l) (hne : a ≠ b) : R a b ∨ R b a := by
  have hsymm : Std.Symm fun a b => R a b ∨ R b a := ⟨fun _ _ => Or.symm⟩
  exact (hl.imp (S := fun a b => R a b ∨ R b a) Or.inl).forall ha hb hne

namespace Regroups

variable (h : t.Regroups t' root root' origin)

include h

/-! ### Nodes -/

theorem children_eq {x : NodeId} (hx : x ∈ t'.preorder root') (hkept : t'.adds origin x = false) :
    t.children (origin x) = (t'.children x).map origin := by
  unfold children
  rw [h.kept x hx hkept, Shape.children_rename]

/-- The node that a child stands for is a child too, unless its parent has been added. -/
theorem child_mem {x y : NodeId} (hy : y ∈ t'.preorder root') (hkept : t'.adds origin y = false)
    (hx : x ∈ t'.children y) : origin x ∈ t.children (origin y) := by
  rw [h.children_eq hy hkept]
  exact List.mem_map_of_mem hx

omit h in
/-- Below an added group is one node, which stands for the same node. -/
theorem origin_of_adds {x y : NodeId} (hadds : t'.adds origin y = true)
    (hx : x ∈ t'.children y) : origin x = origin y := by
  obtain ⟨e, hshape, he⟩ := adds_iff.1 hadds
  obtain rfl : x = e := by simpa [children, hshape, Shape.children] using hx
  exact he

theorem origin_mem {x : NodeId} (hx : x ∈ t'.preorder root') : origin x ∈ t.preorder root := by
  induction x, hx using preorder_induction with
  | hroot =>
    rw [h.root_eq]
    exact t.self_mem_preorder root
  | hchild y hy ih x hx =>
    cases hadds : t'.adds origin y with
    | true => rwa [origin_of_adds hadds hx]
    | false => exact t.mem_preorder_trans ih (t.child_mem_preorder (h.child_mem hy hadds hx))

/-- **The listing without the added groups is that of the other tree.** -/
theorem preorder_eq {x : NodeId} (hx : x ∈ t'.preorder root') :
    t.preorder (origin x) = ((t'.preorder x).filter fun y => !t'.adds origin y).map origin := by
  induction x using Nat.strongRecOn with
  | ind x ih =>
    have hbelow {y : NodeId} (hy : y ∈ t'.children x) : t.preorder (origin y)
        = ((t'.preorder y).filter fun y => !t'.adds origin y).map origin :=
      ih y (t'.child_lt hy) (t'.mem_preorder_trans hx (t'.child_mem_preorder hy))
    rw [t'.preorder_eq x]
    cases hadds : t'.adds origin x with
    | true =>
      obtain ⟨e, hshape, he⟩ := adds_iff.1 hadds
      have hchildren : t'.children x = [e] := by simp [children, hshape, Shape.children]
      rw [List.filter_cons_of_neg (by simp [hadds]), hchildren, List.flatMap_singleton,
        ← hbelow (by simp [hchildren]), he]
    | false =>
      rw [List.filter_cons_of_pos (by simp [hadds]), List.map_cons, t.preorder_eq,
        h.children_eq hx hadds, List.flatMap_map, List.filter_flatMap, List.map_flatMap]
      exact congrArg _ (List.flatMap_congr fun y hy => hbelow hy)

/-- An added group is around an expression. -/
theorem isExpr_of_adds (ht' : t'.WellFormed root') {x : NodeId} (hx : x ∈ t'.preorder root')
    (hadds : t'.adds origin x = true) : (t.shape (origin x)).isExpr = true := by
  induction x using Nat.strongRecOn with
  | ind x ih =>
    obtain ⟨e, hshape, he⟩ := adds_iff.1 hadds
    have hchild : e ∈ t'.children x := by simp [children, hshape, Shape.children]
    have hmem := ht'.child hx hchild
    have hfits := ht'.fits x hx
    simp only [Tree.fits, hshape] at hfits
    rw [← he]
    cases hadds' : t'.adds origin e with
    | true => exact ih e (t'.child_lt hchild) hmem hadds'
    | false => rwa [h.kept e hmem hadds', Shape.isExpr_rename]

omit h in
/-- Above groups that have been added is a node that has not. -/
theorem exists_above (ht' : t'.WellFormed root') {x : NodeId} (hx : x ∈ t'.preorder root')
    (hadds : t'.adds origin x = true) :
    ∃ z ∈ t'.preorder root', t'.adds origin z = false ∧ ∃ e ∈ t'.children z, origin e = origin x
      ∧ t'.adds origin e = true := by
  induction x, hx using preorder_induction with
  | hroot =>
    rw [adds_of_scope ht'.root_scope] at hadds
    cases hadds
  | hchild y hy ih x hx =>
    cases habove : t'.adds origin y with
    | false => exact ⟨y, hy, habove, x, hx, rfl, hadds⟩
    | true =>
      obtain ⟨z, hz, hkept, e, he, horigin, hadded⟩ := ih habove
      exact ⟨z, hz, hkept, e, he, horigin.trans (origin_of_adds habove hx).symm, hadded⟩

theorem isScope_eq {x : NodeId} (hx : x ∈ t'.preorder root') (hkept : t'.adds origin x = false) :
    t.isScope (origin x) = t'.isScope x := by
  unfold isScope
  rw [h.kept x hx hkept, Shape.isScope_rename]

/-! ### Parentheses -/

/-- **What is inside of all parentheses is the same.** -/
theorem origin_ungroup {x : NodeId} (hx : x ∈ t'.preorder root') :
    t.ungroup (origin x) = origin (t'.ungroup x) := by
  induction x using Nat.strongRecOn with
  | ind x ih =>
    by_cases hgroup : ∃ e, t'.shape x = .group e
    · obtain ⟨e, hshape⟩ := hgroup
      have hchild : e ∈ t'.children x := by simp [children, hshape, Shape.children]
      have hbelow :=
        ih e (t'.child_lt hchild) (t'.mem_preorder_trans hx (t'.child_mem_preorder hchild))
      rw [ungroup_of_group hshape, ← hbelow]
      cases hadds : t'.adds origin x with
      | true => rw [origin_of_adds hadds hchild]
      | false =>
        have hkept := h.kept x hx hadds
        rw [hshape] at hkept
        exact ungroup_of_group hkept
    · have hno : ∀ e, t'.shape x ≠ .group e := fun e he => hgroup ⟨e, he⟩
      rw [ungroup_of_not_group hno, ungroup_of_not_group]
      intro e he
      rw [h.kept x hx (adds_of_shape hno)] at he
      cases hshape : t'.shape x <;> rw [hshape] at he
      case group e' => exact hno _ hshape
      all_goals cases he

/-- The shape inside of all parentheses. -/
theorem shape_ungroup {x : NodeId} (hx : x ∈ t'.preorder root') :
    t.shape (t.ungroup (origin x)) = (t'.shape (t'.ungroup x)).rename origin := by
  rw [h.origin_ungroup hx]
  exact h.kept _ (t'.mem_preorder_trans hx (t'.ungroup_mem_preorder x))
    (adds_of_shape (t'.shape_ungroup_ne x))

theorem namesProcedure_eq {d : NodeId} (hd : d ∈ t'.preorder root')
    (hkept : t'.adds origin d = false) : t.namesProcedure (origin d) = t'.namesProcedure d := by
  unfold namesProcedure
  have hshape := h.kept d hd hkept
  cases hd' : t'.shape d
  case constant name definition =>
    have hmem := t'.mem_preorder_trans hd (t'.child_mem_preorder
      (c := definition) (by simp [children, hd', Shape.children]))
    rw [hd'] at hshape
    simp only [hshape, Shape.rename, Resolution.isProcedureLiteral]
    rw [h.shape_ungroup hmem, Shape.isProcedure_rename]
  all_goals
    rw [hd'] at hshape
    simp only [hshape, Shape.rename]

/-! ### Order -/

section

variable (ht : (t.preorder root).Nodup) (ht' : (t'.preorder root').Nodup)

include ht ht'

/-- Of two nodes that have not been added the same one comes first in both trees. -/
theorem position_cases {x y : NodeId} (hx : x ∈ t'.preorder root') (hkx : t'.adds origin x = false)
    (hy : y ∈ t'.preorder root') (hky : t'.adds origin y = false) (hne : x ≠ y) :
    t'.position root' x < t'.position root' y
      ∧ t.position root (origin x) < t.position root (origin y)
      ∨ t'.position root' y < t'.position root' x
        ∧ t.position root (origin y) < t.position root (origin x) := by
  have hlisting := pairwise_position ht
  rw [← h.root_eq, h.preorder_eq (t'.self_mem_preorder root'), List.pairwise_map] at hlisting
  have hboth := ((pairwise_position ht').sublist
    (List.filter_sublist (p := fun y => !t'.adds origin y))).and hlisting
  rw [← h.root_eq]
  exact or_of_pairwise hboth (by simp [hx, hkx]) (by simp [hy, hky]) hne

/-- Nodes that have not been added stand for different nodes. -/
theorem origin_inj {x y : NodeId} (hx : x ∈ t'.preorder root') (hkx : t'.adds origin x = false)
    (hy : y ∈ t'.preorder root') (hky : t'.adds origin y = false) (heq : origin x = origin y) :
    x = y := by
  refine Decidable.byContradiction fun hne => ?_
  rcases h.position_cases ht ht' hx hkx hy hky hne with ⟨-, hlt⟩ | ⟨-, hlt⟩ <;>
    rw [heq] at hlt <;> exact Nat.lt_irrefl _ hlt

theorem origin_eq_iff {x y : NodeId} (hx : x ∈ t'.preorder root') (hkx : t'.adds origin x = false)
    (hy : y ∈ t'.preorder root') (hky : t'.adds origin y = false) : origin x = origin y ↔ x = y :=
  ⟨h.origin_inj ht ht' hx hkx hy hky, fun heq => heq ▸ rfl⟩

/-- **Nodes that have not been added keep their order.** -/
theorem position_le_iff {x y : NodeId} (hx : x ∈ t'.preorder root')
    (hkx : t'.adds origin x = false) (hy : y ∈ t'.preorder root') (hky : t'.adds origin y = false) :
    t.position root (origin x) ≤ t.position root (origin y)
      ↔ t'.position root' x ≤ t'.position root' y := by
  by_cases hne : x = y
  · simp [hne]
  · have hcases := h.position_cases ht ht' hx hkx hy hky hne
    omega

/-- **Nodes that have not been added are inside of the same ones.** -/
theorem mem_preorder_iff {b x : NodeId} (hb : b ∈ t'.preorder root') (hx : x ∈ t'.preorder root')
    (hkept : t'.adds origin x = false) : origin x ∈ t.preorder (origin b) ↔ x ∈ t'.preorder b := by
  rw [h.preorder_eq hb]
  constructor
  · intro hmem
    obtain ⟨y, hy, heq⟩ := List.mem_map.1 hmem
    obtain ⟨hy, hkept'⟩ := List.mem_filter.1 hy
    obtain rfl :=
      h.origin_inj ht ht' (t'.mem_preorder_trans hb hy) (by simpa using hkept') hx hkept heq
    exact hy
  · intro hmem
    exact List.mem_map_of_mem (List.mem_filter.2 ⟨hmem, by simp [hkept]⟩)

/-- A declaration that has not been added is visible at the same nodes. -/
theorem visibleFrom_le_iff {d x : NodeId} (hd : d ∈ t'.preorder root')
    (hkd : t'.adds origin d = false) (hx : x ∈ t'.preorder root') (hkx : t'.adds origin x = false) :
    t.visibleFrom root (origin d) ≤ t.position root (origin x)
      ↔ t'.visibleFrom root' d ≤ t'.position root' x := by
  have hle := h.position_le_iff ht ht' hd hkd hx hkx
  have hinside := h.mem_preorder_iff ht ht' hd hx hkx
  rw [mem_preorder_iff_position ht (h.origin_mem hd) (h.origin_mem hx),
    mem_preorder_iff_position ht' hd hx] at hinside
  unfold visibleFrom
  rw [h.namesProcedure_eq hd hkd]
  split <;> omega

/-! ### Around a node -/

/-- **Around a node are the same scopes.** -/
theorem scopesAround_eq {x : NodeId} (hx : x ∈ t'.preorder root') :
    t.scopesAround root (origin x) = (t'.scopesAround root' x).map origin := by
  induction x, hx using preorder_induction with
  | hroot => rw [h.root_eq, scopesAround_root, scopesAround_root, List.map_nil]
  | hchild y hy ih x hx =>
    rw [scopesAround_child ht' hy hx]
    cases hadds : t'.adds origin y with
    | true =>
      have hscope : t'.isScope y = false := Bool.eq_false_iff.2 fun hscope => by
        rw [adds_of_scope hscope] at hadds
        cases hadds
      rw [origin_of_adds hadds hx, ih, hscope]
      rfl
    | false =>
      rw [scopesAround_child ht (h.origin_mem hy) (h.child_mem hy hadds hx), ih,
        h.isScope_eq hy hadds, List.map_append]
      cases t'.isScope y <;> rfl

end

/-- **The nearest ancestor of a kind is the same**, if no group is of that kind. -/
theorem ancestor?_eq {l l' : Links} (hl : l.Rooted t root) (hl' : l'.Rooted t' root')
    (test : Shape → Bool) (hgroup : ∀ e, test (.group e) = false)
    (hrename : ∀ s : Shape, test (s.rename origin) = test s) {x : NodeId}
    (hx : x ∈ t'.preorder root') :
    l.ancestor? (fun y => test (t.shape y)) (origin x)
      = (l'.ancestor? (fun y => test (t'.shape y)) x).map origin := by
  induction x, hx using preorder_induction with
  | hroot =>
    rw [h.root_eq, hl.ascends.ancestor?_eq _ (t.self_mem_preorder root), hl.root_parent,
      hl'.ascends.ancestor?_eq _ (t'.self_mem_preorder root'), hl'.root_parent]
    rfl
  | hchild y hy ih x hx =>
    rw [hl'.ancestor?_child _ hy hx]
    cases hadds : t'.adds origin y with
    | true =>
      obtain ⟨e, hshape, -⟩ := adds_iff.1 hadds
      rw [origin_of_adds hadds hx, ih, hshape, hgroup]
      rfl
    | false =>
      rw [hl.ancestor?_child _ (h.origin_mem hy) (h.child_mem hy hadds hx), ih,
        h.kept y hy hadds, hrename]
      cases test (t'.shape y) <;> rfl

end Regroups

end Tree

end MiddleEnd
