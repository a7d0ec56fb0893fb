import Mathlib.Order.WellFounded
import MiddleEnd.Proofs.Typing.Judgement

/-!
# The equations of typing

What the type of a node is in terms of the types of other nodes, for every shape and with errors:
one equation per node.  If the nodes that an equation reads come before its node in some
well-founded order, the equations have exactly one solution.

## Main definitions

* `Literal.ty` — the type of a literal.
* `Typing.Context.equation` — the type of a node, given those of all nodes.
* `Shape.asked` — the children whose types are asked for.
* `Typing.Context.Ranked` — an order of the nodes in which every equation reads earlier nodes only.

## Main results

* `Typing.Context.equation_congr`, `Typing.Context.Ranked.equation_congr` — an equation depends on
  what it reads, and on earlier nodes only.
* `Typing.Context.Ranked.exists_solution`, `Typing.Context.Ranked.unique` — **the equations have one
  solution.**
-/

namespace MiddleEnd

namespace Literal

/-- The type of a literal; a number that is misspelled has none. -/
def ty : Literal → Ty
  | number spelling =>
    match Spelled.ofText spelling with
    | .ok (.decimal _) => .anyNumber
    | .ok (.octal _) => .anyUnsigned
    | .ok (.float _) => .anyFloat
    | .error _ => .uncastable
  | char _ => .char
  | text _ => .text

end Literal

/-- The children whose types the type of a node is made of or checked against.  Items, fields and
the parts of a procedure have types of their own, which nothing above them asks for. -/
def Shape.asked : Shape → List NodeId
  | module _ | block _ | struct _ | field _ _ | enum _ | procedure _ _ | array _ _ => []
  | s => s.children

theorem Shape.mem_children_of_asked {s : Shape} {x : NodeId} (h : x ∈ s.asked) :
    x ∈ s.children := by
  cases s <;> first | exact h | cases h

namespace Typing.Context

variable (c : Context) (f : NodeId → Ty)

/-- The type of a call: that of the declared result of the procedure, `empty` if none is
declared. -/
def callTy (callee : NodeId) : Ty :=
  if (f callee).isError then f callee
  else if f callee ≠ .procedure then .uncastable
  else
    match c.calleeResult? callee with
    | some result => f result
    | none => .empty

/-- The type of a cast: the one that is named, if values of the other can be cast to it. -/
def castTy (source dest : Ty) : Ty :=
  if source.isError then source
  else if dest.isError then dest
  else if Ty.canCast source dest then dest
  else .uncastable

/-- **The equation of a node**: its type in terms of the types `f` of all nodes. -/
def equation (id : NodeId) : Ty :=
  match c.tree.shape id with
  | .module _ | .block _ | .struct _ | .enum _ | .field _ _ | .variant _ | .binaryOp _
  | .signOp _ => .empty
  | .exprStmt _ | .assign _ _ | .parallel _ _ | .ret _ => .empty
  | .procedure _ _ => .procedure
  | .constant _ definition => f definition
  | .var _ (some ty) _ => f ty
  | .var _ none (some init) => f init
  | .var _ none none => .uncastable
  | .literal lit => lit.ty
  | .ident _ =>
    match c.resolution.declaration? id with
    | some decl => f decl
    | none => .unresolved
  | .binary left _ right => (f left).promote (f right)
  | .signed op operand =>
    match c.tree.shape op with
    | .signOp sign => (f operand).withSign sign
    | _ => .uncastable
  | .group expr => f expr
  | .call callee => c.callTy f callee
  | .cast expr ty => castTy (f expr) (f ty)
  | .native _ _ (some output) => f output
  | .native _ _ none => .empty
  | .slot target _ => f target
  | .typeName name => (Ty.ofName? name).getD .unresolved
  | .array _ _ => .uncastable

/-- An equation depends on what it reads: the types of the children that are asked, that of the
declaration of a name, and that of the declared result of a call. -/
theorem equation_congr {c c' : Context} {f g : NodeId → Ty} (htree : c'.tree = c.tree) {x : NodeId}
    (hasked : ∀ y ∈ (c.tree.shape x).asked, f y = g y)
    (hident : ∀ name, c.tree.shape x = .ident name →
      (c.resolution.declaration? x).map f = (c'.resolution.declaration? x).map g)
    (hcall : ∀ callee, c.tree.shape x = .call callee → g callee = .procedure →
      (c.calleeResult? callee).map f = (c'.calleeResult? callee).map g) :
    c.equation f x = c'.equation g x := by
  unfold equation
  rw [htree]
  cases hshape : c.tree.shape x <;> rw [hshape] at hasked
  case constant => exact hasked _ (by simp [Shape.asked, Shape.children])
  case group => exact hasked _ (by simp [Shape.asked, Shape.children])
  case slot => exact hasked _ (by simp [Shape.asked, Shape.children])
  case var name ty init =>
    cases ty with
    | some ty => exact hasked ty (by simp [Shape.asked, Shape.children])
    | none =>
      cases init with
      | some init => exact hasked init (by simp [Shape.asked, Shape.children])
      | none => rfl
  -- A name reads its declaration.
  case ident name =>
    have hdecl := hident name hshape
    simp only
    cases h : c.resolution.declaration? x <;> cases h' : c'.resolution.declaration? x <;>
      rw [h, h'] at hdecl <;> first | rfl | cases hdecl | exact Option.some.inj hdecl
  case binary left op right =>
    simp only
    rw [hasked left (by simp [Shape.asked, Shape.children]),
      hasked right (by simp [Shape.asked, Shape.children])]
  case signed op operand =>
    simp only
    rw [hasked operand (by simp [Shape.asked, Shape.children])]
  -- A call reads its callee, and the declared result if that is a procedure.
  case call callee =>
    have hresult := hcall callee hshape
    simp only [callTy]
    rw [hasked callee (by simp [Shape.asked, Shape.children])]
    split
    · rfl
    · split
      · rfl
      · next hproc =>
        have hresult := hresult (by simpa using hproc)
        cases h : c.calleeResult? callee <;> cases h' : c'.calleeResult? callee <;>
          rw [h, h'] at hresult <;> first | rfl | cases hresult | exact Option.some.inj hresult
  case cast expr ty =>
    simp only
    rw [hasked expr (by simp [Shape.asked, Shape.children]),
      hasked ty (by simp [Shape.asked, Shape.children])]
  case native source inputs output =>
    cases output with
    | none => rfl
    | some output => exact hasked output (by simp [Shape.asked, Shape.children])

/-! ### Order -/

/-- An order of the nodes of `S` in which every equation reads earlier nodes only: the children that
are asked, the declaration of a name, and the declared result of a call or a `return`. -/
structure Ranked {α : Type} [Preorder α] (S : NodeId → Prop) (rank : NodeId → α) : Prop where
  /-- The nodes are in the tree. -/
  lt : ∀ x, S x → x < c.tree.size
  /-- The children that are asked come before. -/
  asked : ∀ x, S x → ∀ y ∈ (c.tree.shape x).asked, S y ∧ rank y < rank x
  /-- The declaration of a name comes before. -/
  ident : ∀ x name decl, S x → c.tree.shape x = .ident name →
    c.resolution.declaration? x = some decl →
    S decl ∧ (c.tree.shape decl).isDeclaration = true ∧ rank decl < rank x
  /-- The operator of a signed expression is a sign. -/
  sign : ∀ x op operand, S x → c.tree.shape x = .signed op operand →
    ∃ sign, c.tree.shape op = .signOp sign
  /-- The declared result of a procedure comes before its calls. -/
  call : ∀ x callee result, S x → c.tree.shape x = .call callee →
    c.calleeResult? callee = some result → S result ∧ rank result < rank x
  /-- The declared result of a procedure comes before its returns. -/
  ret : ∀ x value result, S x → c.tree.shape x = .ret value → c.resultNode? x = some result →
    S result ∧ rank result < rank x

namespace Ranked

variable {c f} {g : NodeId → Ty} {α : Type} [Preorder α] {S : NodeId → Prop} {rank : NodeId → α}
  (h : c.Ranked S rank)

include h

/-- An equation depends on earlier nodes only. -/
theorem equation_congr {x : NodeId} (hx : S x) (hfg : ∀ y, S y → rank y < rank x → f y = g y) :
    c.equation f x = c.equation g x := by
  refine Context.equation_congr rfl (fun y hy => ?_) (fun name hshape => ?_) fun callee hshape _ =>
    ?_
  · obtain ⟨hS, hlt⟩ := h.asked x hx y hy
    exact hfg y hS hlt
  · refine Option.map_congr fun decl hdecl => ?_
    obtain ⟨hS, -, hlt⟩ := h.ident x name decl hx hshape hdecl
    exact hfg decl hS hlt
  · refine Option.map_congr fun result hresult => ?_
    obtain ⟨hS, hlt⟩ := h.call x callee result hx hshape hresult
    exact hfg result hS hlt

/-- **The equations have a solution**: types are given to the nodes in their order. -/
theorem exists_solution [WellFoundedLT α] : ∃ f : NodeId → Ty, ∀ x, S x → f x = c.equation f x := by
  classical
  let f : NodeId → Ty := (InvImage.wf rank wellFounded_lt).fix fun x below =>
    c.equation (fun y => if hlt : rank y < rank x then below y hlt else .empty) x
  refine ⟨f, fun x hx => ?_⟩
  have hf : f x = c.equation (fun y => if rank y < rank x then f y else .empty) x :=
    WellFounded.fix_eq _ _ x
  rw [hf]
  exact h.equation_congr hx fun y _ hlt => if_pos hlt

/-- **The equations have at most one solution.** -/
theorem unique [WellFoundedLT α] (hf : ∀ x, S x → f x = c.equation f x)
    (hg : ∀ x, S x → g x = c.equation g x) : ∀ x, S x → f x = g x := by
  intro x
  induction x using (InvImage.wf rank wellFounded_lt).induction with
  | _ x ih =>
    intro hx
    calc
      f x = c.equation f x := hf x hx
      _ = c.equation g x := h.equation_congr hx fun y hy hlt => ih y hlt hy
      _ = g x := (hg x hx).symm

end Ranked

end Typing.Context

end MiddleEnd
