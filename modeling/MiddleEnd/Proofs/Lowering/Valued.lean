import MiddleEnd.Proofs.Lowering.Faithful
import MiddleEnd.Proofs.Lowering.Types

/-!
# Numbers have values

An expression may have no value in a register, as the name of a procedure has none.  But its type
then has no kind either: every expression of a number or a character has a value, since the
declarations that it names come before it and have one.

## Main definitions

* `LowerContext.AllValued` — expressions and declarations of some nodes have values if their types
  have kinds.

## Main results

* `LowerContext.Sound.valued_of_hasKind` — every expression whose type has a kind has a value.
-/

namespace MiddleEnd.LowerContext

/-- The expressions and declarations among some nodes have values if their types have kinds. -/
def AllValued (c : LowerContext) (among : NodeId → Prop) : Prop :=
  ∀ x, among x → (c.tree.shape x).isExpr = true ∨ (c.tree.shape x).isDeclaration = true →
    (c.typeOf x).hasKind = true → c.Valued x

namespace Sound

variable {c : LowerContext} (hc : c.Sound) {x : NodeId}

include hc

/-- A node has a value if its children and the declaration that it names have one. -/
theorem valued_of_children (hx : x ∈ c.tree.preorder c.root)
    (hchildren : c.AllValued (· ∈ c.tree.children x))
    (hdecl : ∀ name decl, c.tree.shape x = .ident name →
      c.resolution.declaration? x = some decl → (c.typeOf decl).hasKind = true → c.Valued decl)
    (hshape : (c.tree.shape x).isExpr = true ∨ (c.tree.shape x).isDeclaration = true)
    (hkind : (c.typeOf x).hasKind = true) : c.Valued x := by
  have hfits := hc.tree.fits x hx
  have hty := hc.hasType hx
  unfold Tree.fits at hfits
  unfold Tree.children at hchildren
  cases h : c.tree.shape x <;> rw [h] at hshape hchildren hfits hty
  -- What is neither an expression nor a declaration does not count.
  case module | block | exprStmt | assign | parallel | ret | field | variant | binaryOp | signOp
      | typeName | array | slot => rcases hshape with hshape | hshape <;> cases hshape
  case literal => exact .literal h
  case binary => exact .binary h
  case signed => exact .signed h
  case call => exact .call h
  -- These have no type that a register could hold.
  case procedure | struct | enum =>
    generalize c.typeOf x = τ at hty hkind
    cases hty
    cases hkind
  -- A name has the value of the declaration that it stands for.
  case ident name =>
    obtain ⟨decl, hbound, -, -⟩ := hc.analysis.bound x name hx h
    have htypeOf := hc.typeOf_ident hx h hbound
    refine .ident h hbound (fun hprocedure => ?_) (hdecl name decl h hbound (htypeOf ▸ hkind))
    rw [htypeOf, hprocedure] at hkind
    cases hkind
  case group y =>
    rw [hc.typeOf_group hx h] at hkind
    exact .group h (hchildren y (by simp [Shape.children]) (.inl hfits) hkind)
  case cast y ty =>
    rw [← hc.hasKind_cast hx h] at hkind
    simp only [Bool.and_eq_true] at hfits
    exact .cast h (hchildren y (by simp [Shape.children]) (.inl hfits.1) hkind)
  -- Native code has a value if it has an output.
  case native source inputs output =>
    cases output with
    | some output => exact .native h
    | none =>
      generalize c.typeOf x = τ at hty hkind
      cases hty
      cases hkind
  case constant name y =>
    rw [hc.typeOf_constant hx h] at hkind
    exact .constant h (hchildren y (by simp [Shape.children]) (.inl hfits) hkind)
  case var name ty init =>
    cases init with
    | none => exact .varFresh h
    | some y =>
      rw [← hc.hasKind_var hx h] at hkind
      simp only [Bool.and_eq_true, Option.all_some] at hfits
      exact .var h (hchildren y (by simp [Shape.children]) (.inl hfits.2) hkind)

/-- What is below a node has values if what has been lowered before it has. -/
theorem allValued_of_served {done : NodeId → Prop} (hx : x ∈ c.tree.preorder c.root)
    (h : Resolution.Served c.tree c.resolution done x) (hdone : c.AllValued done) :
    c.AllValued (· ∈ c.tree.preorder x) := by
  -- By the number of the node: the parts of a node have smaller ones.
  induction x using Nat.strongRecOn generalizing done with
  | ind x ih =>
    -- Of siblings, each is served by what is done and by those before it.
    have siblings {xs : List NodeId} {done : NodeId → Prop}
        (hxs : ∀ y ∈ xs, y ∈ c.tree.children x)
        (h : Resolution.ServedAll c.tree c.resolution done xs) (hdone : c.AllValued done) :
        c.AllValued (· ∈ xs.flatMap c.tree.preorder) := by
      induction xs generalizing done with
      | nil => exact fun y hy => by cases hy
      | cons z zs ihrest =>
        cases h with
        | cons hz hzs =>
          have hmem := hxs z (.head _)
          have hbelow := ih z (c.tree.child_lt hmem) (hc.tree.child hx hmem) hz hdone
          have hrest := ihrest (fun y hy => hxs y (.tail _ hy)) hzs
            fun y hy => hy.elim (hdone y) (hbelow y)
          intro y hy
          rw [List.flatMap_cons, List.mem_append] at hy
          exact hy.elim (hbelow y) (hrest y)
    cases h with
    | node hident hchildren =>
      have hbelow := siblings (fun y hy => hy) hchildren hdone
      intro y hy
      rw [c.tree.preorder_eq] at hy
      rcases List.mem_cons.1 hy with rfl | hy
      · refine hc.valued_of_children hx (fun z hz => hbelow z ?_) fun name decl hshape hdecl => ?_
        · exact List.mem_flatMap.2 ⟨z, hz, c.tree.self_mem_preorder z⟩
        · -- The declaration of the name is done already, or it names a procedure and has no kind.
          obtain ⟨decl', hdecl', hbefore⟩ := hident name hshape
          obtain rfl := Option.some.inj (hdecl.symm.trans hdecl')
          obtain ⟨decl', hdecl', hmem, hdeclares⟩ := hc.analysis.bound y name hx hshape
          obtain rfl := Option.some.inj (hdecl.symm.trans hdecl')
          intro hkind
          rcases hbefore with hbefore | hnames
          · exact hdone decl hbefore (.inr hdeclares) hkind
          · rw [Lower.typeOf_of_namesProcedure hc hmem hnames] at hkind
            cases hkind
      · exact hbelow y hy

/-- **Every declaration whose type has a kind has a value**, and so does every expression. -/
theorem allValued : c.AllValued (· ∈ c.tree.preorder c.root) :=
  hc.allValued_of_served (c.tree.self_mem_preorder c.root) hc.analysis.served fun _ h => h.elim

/-- **Every expression whose type has a kind has a value.** -/
theorem valued_of_hasKind (hx : x ∈ c.tree.preorder c.root)
    (hshape : (c.tree.shape x).isExpr = true) (hkind : (c.typeOf x).hasKind = true) :
    c.Valued x :=
  hc.allValued x hx (.inl hshape) hkind

end Sound

end MiddleEnd.LowerContext
