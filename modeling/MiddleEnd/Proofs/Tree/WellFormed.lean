import MiddleEnd.Proofs.Tree.Preorder

/-!
# Well-formed trees

The trees that a parser hands over.  Nodes refer to each other by number only, so that nothing but
this keeps a type out of the place of an expression, or a node from hanging below two parents.

## Main definitions

* `Shape.isExpr`, `Shape.isType`, `Shape.isStmt`, `Shape.isItem` — the syntactic classes.
* `Tree.fits` — the children of a node are of the classes that their places need.
* `Tree.WellFormed` — all nodes below the root fit, and none is below two parents.
* `Tree.statements` — the items of a scope in order, those of nested scopes included.

## Main results

* `Tree.WellFormed.child` — the child of a node of the tree is a node of the tree.
* `Tree.WellFormed.slot_ident` — native code reads and writes names.
* `Tree.statements_of_scope` — the statements of a scope are those of its items.
-/

namespace MiddleEnd

namespace Shape

/-- Definitions are expressions: a procedure, a structure or an enumeration may stand for a
value. -/
def isExpr : Shape → Bool
  | literal _ | ident _ | binary _ _ _ | signed _ _ | group _ | call _ | cast _ _ | native _ _ _
  | procedure _ _ | struct _ | enum _ => true
  | _ => false

/-- Whether the node stands for a type. -/
def isType : Shape → Bool
  | typeName _ | array _ _ => true
  | _ => false

/-- Whether the node is a statement that is no declaration. -/
def isStmt : Shape → Bool
  | exprStmt _ | assign _ _ | parallel _ _ | ret _ => true
  | _ => false

/-- Whether the node is a block. -/
def isBlock : Shape → Bool
  | block _ => true
  | _ => false

/-- Whether the node is a field. -/
def isField : Shape → Bool
  | field _ _ => true
  | _ => false

/-- Whether the node is a variant. -/
def isVariant : Shape → Bool
  | variant _ => true
  | _ => false

/-- Whether the node is an operator. -/
def isBinaryOp : Shape → Bool
  | binaryOp _ => true
  | _ => false

/-- Whether the node is a sign. -/
def isSignOp : Shape → Bool
  | signOp _ => true
  | _ => false

/-- Whether the node is a slot of native code. -/
def isSlot : Shape → Bool
  | slot _ _ => true
  | _ => false

/-- Whether the node is a name in the place of an expression. -/
def isIdent : Shape → Bool
  | ident _ => true
  | _ => false

/-- What may stand in a scope. -/
def isItem (s : Shape) : Bool := s.isDeclaration || s.isStmt || s.isScope || s.isExpr

theorem isItem_of_isExpr {s : Shape} (h : s.isExpr = true) : s.isItem = true := by simp [isItem, h]

theorem exists_of_isIdent {s : Shape} (h : s.isIdent = true) : ∃ name, s = .ident name := by
  cases s <;> first | exact ⟨_, rfl⟩ | cases h

theorem isExpr_of_isIdent {s : Shape} (h : s.isIdent = true) : s.isExpr = true := by
  cases s <;> first | rfl | cases h

theorem not_isScope_of_isExpr {s : Shape} (h : s.isExpr = true) : s.isScope = false := by
  cases s <;> first | rfl | cases h

theorem not_isScope_of_declaredName? {s : Shape} {name : String} (h : s.declaredName? = some name) :
    s.isScope = false := by
  cases s <;> first | rfl | cases h

end Shape

namespace Tree

variable (t : Tree)

/-- The children of a node are of the classes that their places need. -/
def fits (id : NodeId) : Bool :=
  match t.shape id with
  | .module items | .block items => items.all fun x => (t.shape x).isItem
  | .constant _ definition => (t.shape definition).isExpr
  | .var _ ty init =>
    (ty.all fun x => (t.shape x).isType) && init.all fun x => (t.shape x).isExpr
  | .procedure result body =>
    (result.all fun x => (t.shape x).isType) && (t.shape body).isBlock
  | .struct fields => fields.all fun x => (t.shape x).isField
  | .field _ ty => (t.shape ty).isType
  | .enum variants => variants.all fun x => (t.shape x).isVariant
  | .exprStmt expr | .group expr | .call expr => (t.shape expr).isExpr
  | .assign target value => (t.shape target).isExpr && (t.shape value).isExpr
  | .parallel targets values =>
    (targets.all fun x => (t.shape x).isExpr) && values.all fun x => (t.shape x).isExpr
  | .ret value => value.all fun x => (t.shape x).isExpr
  | .binary left op right =>
    (t.shape left).isExpr && (t.shape op).isBinaryOp && (t.shape right).isExpr
  | .signed op operand => (t.shape op).isSignOp && (t.shape operand).isExpr
  | .cast expr ty => (t.shape expr).isExpr && (t.shape ty).isType
  | .native _ inputs output =>
    (inputs.all fun x => (t.shape x).isSlot) && output.all fun x => (t.shape x).isSlot
  | .slot target _ => (t.shape target).isIdent
  | .array elem len => (t.shape elem).isType && (t.shape len).isExpr
  | .variant _ | .literal _ | .ident _ | .binaryOp _ | .signOp _ | .typeName _ => true

/-- The nodes below a scope, each of them below one parent and with children that fit. -/
structure WellFormed (root : NodeId) : Prop where
  /-- The root is a scope. -/
  root_scope : t.isScope root = true
  /-- No node is below two others. -/
  nodup : (t.preorder root).Nodup
  /-- The children of each node are what its shape asks for. -/
  fits : ∀ x ∈ t.preorder root, t.fits x = true

instance (root : NodeId) : Decidable (t.WellFormed root) :=
  decidable_of_iff
    (t.isScope root = true ∧ (t.preorder root).Nodup ∧ ∀ x ∈ t.preorder root, t.fits x = true)
    ⟨fun ⟨h₁, h₂, h₃⟩ => ⟨h₁, h₂, h₃⟩, fun ⟨h₁, h₂, h₃⟩ => ⟨h₁, h₂, h₃⟩⟩

variable {t}

theorem WellFormed.child {root id x : NodeId} (_h : t.WellFormed root)
    (hid : id ∈ t.preorder root) (hx : x ∈ t.children id) : x ∈ t.preorder root :=
  t.mem_preorder_trans hid (t.child_mem_preorder hx)

theorem WellFormed.isItem_root {root : NodeId} (h : t.WellFormed root) :
    (t.shape root).isItem = true := by
  have hscope := h.root_scope
  unfold isScope at hscope
  simp [Shape.isItem, hscope]

/-- The body of a procedure may stand in a scope. -/
theorem WellFormed.isItem_body {root id body : NodeId} {result : Option NodeId}
    (h : t.WellFormed root) (hid : id ∈ t.preorder root)
    (hshape : t.shape id = .procedure result body) : (t.shape body).isItem = true := by
  have hfits := h.fits id hid
  simp only [Tree.fits, hshape, Bool.and_eq_true] at hfits
  cases hbody : t.shape body <;> rw [hbody] at hfits <;> first | (cases hfits.2; done) | rfl

/-- Native code reads and writes names. -/
theorem WellFormed.slot_ident {root input target : NodeId} {offset : Nat} (h : t.WellFormed root)
    (hinput : input ∈ t.preorder root) (hslot : t.shape input = .slot target offset) :
    target ∈ t.preorder root ∧ ∃ name, t.shape target = .ident name := by
  have hchild : target ∈ t.children input := by
    unfold children
    rw [hslot]
    exact List.mem_singleton_self target
  have hfits := h.fits input hinput
  simp only [Tree.fits, hslot] at hfits
  exact ⟨h.child hinput hchild, Shape.exists_of_isIdent hfits⟩

/-! ### Statements -/

variable (t)

/-- The items of a scope in order, with those of nested scopes in the place of these.  Any other
node is one statement. -/
def statements (id : NodeId) : List NodeId :=
  match _h : t.shape id with
  | .module items | .block items => items.attach.flatMap fun item => statements item.1
  | _ => [id]
termination_by id
decreasing_by all_goals exact t.child_lt (by simp [children, *, Shape.children, item.2])

variable {t}

theorem statements_of_scope {id : NodeId} (h : t.isScope id = true) :
    t.statements id = (t.children id).flatMap t.statements := by
  unfold isScope at h
  rw [statements, children]
  split <;> simp_all [List.flatMap_def, Shape.isScope, Shape.children]

theorem statements_of_not_scope {id : NodeId} (h : t.isScope id = false) :
    t.statements id = [id] := by
  rw [statements]
  split <;> simp_all [isScope, Shape.isScope]

end Tree

end MiddleEnd
