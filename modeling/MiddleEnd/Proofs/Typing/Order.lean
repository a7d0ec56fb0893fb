import Mathlib.Data.Prod.Lex
import MiddleEnd.Proofs.Compiler
import MiddleEnd.Proofs.Resolution.Targets
import MiddleEnd.Proofs.Typing.Solves

/-!
# No type depends on itself

Names are bound to declarations that have ended before them, or to procedures, whose types are the
same whatever is in them.  Ordered by their ends, and at one end from the inside out, with types and
procedures before everything else, the nodes of a section are therefore typed from earlier ones
only.

## Main definitions

* `Tree.Arranged` — a tree with types and operators in their places.
* `Tree.isFixed` — types, procedures and what stands for a procedure by its form.
* `Tree.typingRank` — the place of a node in the order of typing.

## Main results

* `Typing.ranked_ofTree` — every equation of a section reads earlier nodes only.
* `Analysis.ofTree_solves` — **typing yields the one solution of the equations, and no node depends
  on itself.**
-/

namespace MiddleEnd

namespace Tree

variable (t : Tree)

/-- Types are in the places of types below a node, and operators in those of operators. -/
def keepsPlaces (id : NodeId) : Bool :=
  match t.shape id with
  | .var _ ty _ => ty.all fun x => (t.shape x).isType
  | .procedure result _ => result.all fun x => (t.shape x).isType
  | .field _ ty | .cast _ ty => (t.shape ty).isType
  | .array elem _ => (t.shape elem).isType
  | .binary _ op _ => (t.shape op).isBinaryOp
  | .signed op _ => (t.shape op).isSignOp
  | _ => true

/-- The nodes below a scope, each of them below one parent, with types and operators in their
places.  Nothing is asked of the places of expressions and statements. -/
structure Arranged (root : NodeId) : Prop where
  /-- The root is a scope. -/
  root_scope : t.isScope root = true
  /-- No node is below two others. -/
  nodup : (t.preorder root).Nodup
  /-- Types and operators are where they belong. -/
  places : ∀ x ∈ t.preorder root, t.keepsPlaces x = true

instance (root : NodeId) : Decidable (t.Arranged root) :=
  decidable_of_iff (t.isScope root = true ∧ (t.preorder root).Nodup
    ∧ ∀ x ∈ t.preorder root, t.keepsPlaces x = true)
    ⟨fun ⟨h₁, h₂, h₃⟩ => ⟨h₁, h₂, h₃⟩, fun ⟨h₁, h₂, h₃⟩ => ⟨h₁, h₂, h₃⟩⟩

/-- Types, procedures, and what stands for a procedure by its form: their types depend on no
value. -/
def isFixed (x : NodeId) : Bool :=
  (t.shape (t.ungroup x)).isType || (t.shape (t.ungroup x)).isProcedure || t.namesProcedure x

/-- The place of a node in the order of typing. -/
def typingRank (root x : NodeId) : ℕ ×ₗ ℕ :=
  toLex (if t.isFixed x then 0 else t.position root x + t.weight x, t.weight x)

variable {t} {root : NodeId}

theorem WellFormed.arranged (h : t.WellFormed root) : t.Arranged root where
  root_scope := h.root_scope
  nodup := h.nodup
  places x hx := by
    have hfits := h.fits x hx
    unfold Tree.fits at hfits
    unfold keepsPlaces
    cases hshape : t.shape x <;> rw [hshape] at hfits <;> simp_all

theorem isFixed_of_isType {x : NodeId} (h : (t.shape x).isType = true) : t.isFixed x = true := by
  have hsame : t.ungroup x = x := ungroup_of_not_group fun e hshape => by
    rw [hshape] at h
    cases h
  simp [isFixed, hsame, h]

theorem isFixed_of_group {x e : NodeId} (hshape : t.shape x = .group e)
    (hx : t.isFixed x = true) : t.isFixed e = true := by
  unfold isFixed at hx ⊢
  rw [ungroup_of_group hshape, show t.namesProcedure x = false by simp [namesProcedure, hshape],
    Bool.or_false] at hx
  rw [hx, Bool.true_or]

/-- What a node without a value asks for has no value either. -/
theorem isFixed_of_asked {x y : NodeId} (hx : t.isFixed x = true) (hy : y ∈ (t.shape x).asked) :
    t.isFixed y = true := by
  cases hshape : t.shape x
  case group e =>
    rw [hshape] at hy
    obtain rfl : y = e := by simpa [Shape.asked, Shape.children] using hy
    exact isFixed_of_group hshape hx
  case constant name definition =>
    rw [hshape] at hy
    obtain rfl : y = definition := by simpa [Shape.asked, Shape.children] using hy
    have hsame : t.ungroup x = x := ungroup_of_not_group (by simp [hshape])
    have hproc : (t.shape (t.ungroup y)).isProcedure = true := by
      simpa [isFixed, hsame, hshape, Shape.isType, Shape.isProcedure, namesProcedure,
        Resolution.isProcedureLiteral] using hx
    simp [isFixed, hproc]
  all_goals
    have hsame : t.ungroup x = x := ungroup_of_not_group (by simp [hshape])
    simp only [isFixed, hsame, hshape, Shape.isType, Shape.isProcedure, namesProcedure,
      Bool.or_self, Bool.false_eq_true] at hx
  all_goals
    rw [hshape] at hy
    cases hy

/-- Nodes with a value come after those without. -/
theorem typingRank_lt_of_isFixed {x y : NodeId} (hx : t.isFixed x = false)
    (hy : t.isFixed y = true) : t.typingRank root y < t.typingRank root x := by
  unfold typingRank
  rw [Prod.Lex.toLex_lt_toLex]
  left
  simp only [hx, hy, if_true, Bool.false_eq_true, if_false]
  have hpos := t.weight_pos x
  omega

/-- A node that has ended before another one with a value comes before it. -/
theorem typingRank_lt_of_end {x y : NodeId} (hx : t.isFixed x = false)
    (hend : t.position root y + t.weight y ≤ t.position root x) :
    t.typingRank root y < t.typingRank root x := by
  by_cases hy : t.isFixed y = true
  · exact typingRank_lt_of_isFixed hx hy
  · unfold typingRank
    rw [Prod.Lex.toLex_lt_toLex]
    left
    simp only [hx, hy, Bool.false_eq_true, if_false]
    have hpos := t.weight_pos x
    omega

/-- A node comes after the children that it asks for. -/
theorem typingRank_lt_of_asked (hnodup : (t.preorder root).Nodup) {x y : NodeId}
    (hx : x ∈ t.preorder root) (hy : y ∈ (t.shape x).asked) :
    t.typingRank root y < t.typingRank root x := by
  have hchild : y ∈ t.children x := Shape.mem_children_of_asked hy
  have hweight := weight_lt_of_child hchild
  have hend := end_le_end hnodup hx (t.child_mem_preorder hchild)
  cases hfixed : t.isFixed x with
  | true =>
    unfold typingRank
    rw [Prod.Lex.toLex_lt_toLex]
    right
    simp only [hfixed, isFixed_of_asked hfixed hy, if_true]
    exact ⟨trivial, hweight⟩
  | false =>
    by_cases hfixed' : t.isFixed y = true
    · exact typingRank_lt_of_isFixed hfixed hfixed'
    · unfold typingRank
      rw [Prod.Lex.toLex_lt_toLex]
      simp only [hfixed, hfixed', Bool.false_eq_true, if_false]
      omega

end Tree

namespace Typing

variable {t : Tree} {root : NodeId}

/-- The declared result of a procedure is a type below it. -/
theorem isType_result (ht : t.Arranged root) {p result : NodeId} (hp : p ∈ t.preorder root)
    (h : (t.shape p).result? = some result) :
    result ∈ t.children p ∧ (t.shape result).isType = true := by
  unfold Shape.result? at h
  split at h
  · next r body hshape =>
    subst h
    have hplaces := ht.places p hp
    simp only [Tree.keepsPlaces, hshape, Option.all_some] at hplaces
    exact ⟨by simp [Tree.children, hshape, Shape.children], hplaces⟩
  · cases h

theorem result_isFixed (ht : t.Arranged root) {p result : NodeId} (hp : p ∈ t.preorder root)
    (h : (t.shape p).result? = some result) :
    result ∈ t.preorder root ∧ t.isFixed result = true := by
  obtain ⟨hchild, htype⟩ := isType_result ht hp h
  exact ⟨t.mem_preorder_trans hp (t.child_mem_preorder hchild), Tree.isFixed_of_isType htype⟩

/-- **Every equation of a section reads earlier nodes only.** -/
theorem ranked_ofTree {links : Links} {r : Resolution} (ht : t.Arranged root)
    (hsize : root < links.size) (hexact : Resolution.Exact t root [] [] r) :
    Context.Ranked ⟨t, (Section.ofTree t links root none).2, r⟩ (· ∈ t.preorder root)
      (t.typingRank root) := by
  have hrooted := Section.rooted_ofTree ht.nodup hsize
  -- Nodes of these shapes have values: the rank of such a node is its end.
  have hvalue {x : NodeId} {s : Shape} (hshape : t.shape x = s) (hgroup : ∀ e, s ≠ .group e)
      (htype : s.isType = false) (hproc : s.isProcedure = false)
      (hconstant : ∀ name e, s ≠ .constant name e) : t.isFixed x = false := by
    have hsame : t.ungroup x = x :=
      Tree.ungroup_of_not_group fun e he => hgroup e (hshape.symm.trans he)
    have hnames : t.namesProcedure x = false := by
      unfold Tree.namesProcedure
      split
      · next name e he => exact (hconstant name e (hshape.symm.trans he)).elim
      · rfl
    simp [Tree.isFixed, hsame, hshape, htype, hproc, hnames]
  refine
    { lt := fun x hx => Nat.lt_of_le_of_lt (t.le_of_mem_preorder hx)
        (Tree.lt_size_of_isScope ht.root_scope)
      asked := fun x hx y hy => ⟨t.mem_preorder_trans hx (t.child_mem_preorder
        (Shape.mem_children_of_asked hy)), Tree.typingRank_lt_of_asked ht.nodup hx hy⟩
      ident := fun x name decl hx hname hdecl => ?_
      sign := fun x op operand hx hshape => ?_
      call := fun x callee result hx hshape hresult => ?_
      ret := fun x value result hx hshape hresult => ?_ }
  · obtain ⟨hmem, hdeclaration, -, hplace⟩ := hexact.declared_before hx hname hdecl
    have hfixed := hvalue hname (by simp) rfl rfl (by simp)
    refine ⟨hmem, hdeclaration, ?_⟩
    rcases hplace with hproc | hend
    · exact Tree.typingRank_lt_of_isFixed hfixed (by simp [Tree.isFixed, hproc])
    · exact Tree.typingRank_lt_of_end hfixed hend
  · have hplaces := ht.places x hx
    simp only [Tree.keepsPlaces, show t.shape x = .signed op operand from hshape] at hplaces
    show ∃ sign, t.shape op = .signOp sign
    cases hop : t.shape op <;> rw [hop] at hplaces <;> first | exact ⟨_, rfl⟩ | cases hplaces
  · have hcallee : callee ∈ t.preorder root := t.mem_preorder_trans hx (t.child_mem_preorder (by
      simp [Tree.children, show t.shape x = .call callee from hshape, Shape.children]))
    obtain ⟨p, htarget, hresult⟩ := Option.bind_eq_some_iff.1 hresult
    obtain ⟨hp, -⟩ := hexact.target_before ht.nodup hcallee htarget
    obtain ⟨hmem, hfixed⟩ := result_isFixed ht hp hresult
    exact ⟨hmem, Tree.typingRank_lt_of_isFixed (hvalue hshape (by simp) rfl rfl (by simp)) hfixed⟩
  · obtain ⟨p, hhost, hresult⟩ := Option.bind_eq_some_iff.1 hresult
    obtain ⟨hp, -⟩ := hrooted.mem_of_ancestor? hx hhost
    obtain ⟨hmem, hfixed⟩ := result_isFixed ht hp hresult
    exact ⟨hmem, Tree.typingRank_lt_of_isFixed (hvalue hshape (by simp) rfl rfl (by simp)) hfixed⟩

end Typing

/-! ### Sections -/

namespace Analysis

variable {t : Tree} {links : Links} {root : NodeId}

/-- A tree is analysed to the end: its names are resolved exactly, and its types solve the
equations. -/
theorem exists_ofTree (ht : t.Arranged root) (hsize : root < links.size) :
    ∃ a, ofTree t links root = .ok a ∧ a.links.Rooted t root
      ∧ Resolution.Exact t root [] [] a.resolution
      ∧ (a.context t).Ranked (· ∈ t.preorder root) (t.typingRank root)
      ∧ (∀ x ∈ t.preorder root, a.typing.typeOf x = (a.context t).equation a.typing.typeOf x)
      ∧ ∀ x, .selfReference x ∉ a.typing.problems := by
  obtain ⟨r, hr, hexact⟩ := Resolution.exact_ofTree none ht.root_scope ht.nodup hsize
  have hranked := Typing.ranked_ofTree ht hsize hexact
  have hnodes := Section.nodes_ofTree t links root none
  obtain ⟨ty, hty, hsolves, -, hacyclic⟩ := Typing.ofSection_solves hranked fun x => by rw [hnodes]
  refine ⟨⟨(Section.ofTree t links root none).2, r, ty⟩, ?_, Section.rooted_ofTree ht.nodup hsize,
    hexact, hranked, hsolves, hacyclic⟩
  unfold ofTree
  simp only [bind, Except.bind, hr, hty]
  rfl

/-- **Typing yields the one solution of the equations, and no node depends on itself.** -/
theorem ofTree_solves (ht : t.Arranged root) (hsize : root < links.size) :
    ∃ a, ofTree t links root = .ok a
      ∧ (∀ x ∈ t.preorder root, a.typing.typeOf x = (a.context t).equation a.typing.typeOf x)
      ∧ (∀ f : NodeId → Ty, (∀ x ∈ t.preorder root, f x = (a.context t).equation f x) →
          ∀ x ∈ t.preorder root, f x = a.typing.typeOf x)
      ∧ ∀ x, .selfReference x ∉ a.typing.problems := by
  obtain ⟨a, ha, -, -, hranked, hsolves, hacyclic⟩ := exists_ofTree ht hsize
  exact ⟨a, ha, hsolves, fun f hf => hranked.unique hf hsolves, hacyclic⟩

end Analysis

/-- `f :: proc int8 { return f() }; x := f(); y := z` -/
def Tree.callsItself : Tree where
  nodes :=
    #[⟨.typeName "int8", .nowhere⟩, ⟨.ident "f", .nowhere⟩, ⟨.call 1, .nowhere⟩,
      ⟨.ret (some 2), .nowhere⟩, ⟨.block [3], .nowhere⟩, ⟨.procedure (some 0) 4, .nowhere⟩,
      ⟨.constant "f" 5, .nowhere⟩, ⟨.ident "f", .nowhere⟩, ⟨.call 7, .nowhere⟩,
      ⟨.var "x" none (some 8), .nowhere⟩, ⟨.ident "z", .nowhere⟩,
      ⟨.var "y" none (some 10), .nowhere⟩, ⟨.module [6, 9, 11], .nowhere⟩]
  children_lt := by decide

/-- A procedure that calls itself has a type, and so has a variable whose value has none. -/
theorem Tree.callsItself_solves :
    Tree.callsItself.Arranged 12 ∧ ∃ a, Analysis.ofTree .callsItself (.unset 13) 12 = .ok a
      ∧ a.typing.typeOf 9 = .int8 ∧ a.typing.typeOf 11 = .unresolved
      ∧ ∀ x, .selfReference x ∉ a.typing.problems := by
  have ht : Tree.callsItself.Arranged 12 := by decide +kernel
  have hsize : 12 < (Links.unset 13).size := by decide
  obtain ⟨a, ha, -, -, hacyclic⟩ := Analysis.ofTree_solves ht hsize
  have htypes : (Analysis.ofTree .callsItself (.unset 13) 12).toOption.any (fun a =>
      a.typing.typeOf 9 == .int8 && a.typing.typeOf 11 == .unresolved) = true := by decide +kernel
  simp only [ha, Except.toOption, Option.any_some, Bool.and_eq_true, beq_iff_eq] at htypes
  exact ⟨ht, a, ha, htypes.1, htypes.2, hacyclic⟩

end MiddleEnd
