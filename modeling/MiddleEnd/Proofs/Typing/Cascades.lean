import MiddleEnd.Proofs.Typing.Order
import MiddleEnd.Proofs.Typing.Reports

/-!
# Errors are reported, and reported once

A rule that finds an error among the types it compares passes it on and says nothing: whatever is
wrong there has been reported where it arose.  The other way round, a section in which nothing is
reported has no error in it.

## Main definitions

* `Cause.isMismatch` — the causes that are found by comparing types.
* `TypeProblem.types` — the types that a problem names.
* `Typing.Context.Compares` — the nodes whose types were compared where a problem was found.

## Main results

* `Typing.Context.Compares.of_reports` — a mismatch names the types of the nodes that were compared,
  and none of them is an error.
* `Typing.Context.Compares.unique` — a problem tells which nodes were compared.
* `Analysis.neither_silent_nor_cascading` — **no error is passed over in silence, and none leads to
  a second report.**
-/

namespace MiddleEnd

/-- Whether a cause is found by comparing types with each other or with what an operation takes. -/
def Cause.isMismatch : Cause → Bool
  | mismatch | signOperand | cast | notCallable | nativeType => true
  | _ => false

/-- The types that a problem names. -/
def TypeProblem.types : TypeProblem → List Ty
  | nativeType _ ty | signOperand _ _ ty | notCallable _ ty | missingReturn _ ty => [ty]
  | initializer _ _ dest source | store _ _ dest source => [dest, source]
  | operands _ _ _ _ leftTy rightTy => [leftTy, rightTy]
  | cast _ source dest => [source, dest]
  | returnType _ _ source dest => [dest, source]
  | _ => []

namespace Ty

variable {σ τ : Ty}

/-- Nothing is wrong with storing to or from an error. -/
theorem isError_of_not_canAssign (h : canAssign τ σ = false) :
    τ.isError = false ∧ σ.isError = false := by
  unfold canAssign at h
  cases hτ : τ.isError <;> cases hσ : σ.isError <;> simp_all

end Ty

namespace Typing.Context

variable (c : Context)

/-- The nodes whose types are compared at a node where a mismatch is found.  Each pair of a parallel
assignment is compared on its own. -/
inductive Compares (x : NodeId) : TypeProblem → List NodeId → Prop
  /-- The declared type and the initial value of a variable. -/
  | initializer {name : String} {ty init : NodeId} {dest source : Ty}
      (h : c.tree.shape x = .var name (some ty) (some init)) :
      Compares x (.initializer name init dest source) [ty, init]
  /-- The target and the value of an assignment. -/
  | assign {target value : NodeId} {dest source : Ty} (h : c.tree.shape x = .assign target value) :
      Compares x (.store target value dest source) [target, value]
  /-- The target and the value at one place of a parallel assignment. -/
  | parallel {targets values : List NodeId} {target value : NodeId} {dest source : Ty}
      (h : c.tree.shape x = .parallel targets values)
      (hpair : (target, value) ∈ targets.zip values) :
      Compares x (.store target value dest source) [target, value]
  /-- The declared result and the value that is returned. -/
  | returnType {value result : NodeId} {source dest : Ty} (h : c.tree.shape x = .ret (some value))
      (hresult : c.resultNode? x = some result) :
      Compares x (.returnType value result source dest) [result, value]
  /-- The declared result, where nothing is returned. -/
  | missingReturn {result : NodeId} {ty : Ty} (h : c.tree.shape x = .ret none)
      (hresult : c.resultNode? x = some result) : Compares x (.missingReturn x ty) [result]
  /-- The operands of an arithmetic expression. -/
  | operands {left op right : NodeId} {leftTy rightTy : Ty}
      (h : c.tree.shape x = .binary left op right) :
      Compares x (.operands x left op right leftTy rightTy) [left, right]
  /-- The operand of a signed expression. -/
  | signOperand {op operand : NodeId} {sign : Sign} {ty : Ty}
      (h : c.tree.shape x = .signed op operand) : Compares x (.signOperand x sign ty) [operand]
  /-- The callee of a call. -/
  | notCallable {callee : NodeId} {ty : Ty} (h : c.tree.shape x = .call callee) :
      Compares x (.notCallable x ty) [callee]
  /-- The operand and the target of a cast. -/
  | cast {expr ty : NodeId} {source dest : Ty} (h : c.tree.shape x = .cast expr ty) :
      Compares x (.cast x source dest) [expr, ty]
  /-- What a slot of native code is tied to. -/
  | nativeType {target : NodeId} {offset : Nat} {ty : Ty}
      (h : c.tree.shape x = .slot target offset) :
      Compares x (.nativeType x ty) [target]

variable {c} {f : NodeId → Ty} {x : NodeId} {P : TypeProblem}

/-- A mismatch in a store is one of the two types. -/
theorem StoreFails.eq_store {target value : NodeId} (h : c.StoreFails f target value P)
    (hcause : (P.diagnostic c.tree).cause.isMismatch = true) :
    P = .store target value (f target) (f value) ∧ Ty.canAssign (f target) (f value) = false := by
  cases h with
  | target h => cases h <;> cases hcause
  | procedure => cases hcause
  | mismatch _ _ h => exact ⟨rfl, h⟩

namespace Compares

/-- **A mismatch names the types of the nodes that were compared, and none of them is an error.** -/
theorem of_reports (hP : P ∈ c.reports f x)
    (hcause : (P.diagnostic c.tree).cause.isMismatch = true) :
    ∃ ys, c.Compares x P ys ∧ P.types = ys.map f ∧ ∀ y ∈ ys, (f y).isError = false := by
  have store {target value : NodeId} (h : c.StoreFails f target value P)
      (hcompares : ∀ dest source, c.Compares x (.store target value dest source) [target, value]) :
      ∃ ys, c.Compares x P ys ∧ P.types = ys.map f ∧ ∀ y ∈ ys, (f y).isError = false := by
    obtain ⟨rfl, hassign⟩ := h.eq_store hcause
    exact ⟨_, hcompares _ _, rfl, by simpa using Ty.isError_of_not_canAssign hassign⟩
  cases mem_reports_iff.1 hP with
  | initializer hshape h =>
    exact ⟨_, .initializer hshape, rfl, by simpa using Ty.isError_of_not_canAssign h⟩
  | assign hshape h => exact store h fun _ _ => .assign hshape
  | parallel hshape _ hpair h => exact store h fun _ _ => .parallel hshape hpair
  | ret hshape h =>
    cases h with
    | returnType hresult h =>
      exact ⟨_, .returnType hshape hresult, rfl, by simpa using Ty.isError_of_not_canAssign h⟩
    | missingReturn hresult _ hsound =>
      exact ⟨_, .missingReturn hshape hresult, rfl, by simpa using hsound⟩
  | operands hshape _ hleft hright => exact ⟨_, .operands hshape, rfl, by simp [hleft, hright]⟩
  | signOperand hshape _ _ hoperand => exact ⟨_, .signOperand hshape, rfl, by simpa using hoperand⟩
  | notCallable hshape hcallee => exact ⟨_, .notCallable hshape, rfl, by simpa using hcallee⟩
  | cast hshape hexpr hty => exact ⟨_, .cast hshape, rfl, by simp [hexpr, hty]⟩
  | nativeType hshape htarget => exact ⟨_, .nativeType hshape, rfl, by simpa using htarget⟩
  -- Of the rest, nothing is about types that do not go together.
  | output _ _ h => cases h <;> cases hcause
  | _ => cases hcause

/-- The nodes that are compared belong to the section. -/
theorem mem {α : Type} [Preorder α] {S : NodeId → Prop} {rank : NodeId → α} (hS : c.Ranked S rank)
    {ys : List NodeId} (h : c.Compares x P ys) (hx : S x) : ∀ y ∈ ys, S y := by
  have asked {y : NodeId} (hy : y ∈ (c.tree.shape x).asked) : S y := (hS.asked x hx y hy).1
  cases h with
  | initializer h | assign h | operands h | signOperand h | notCallable h | cast h | nativeType h =>
    rw [h] at asked
    simp_all [Shape.asked, Shape.children]
  | parallel h hpair =>
    obtain ⟨htarget, hvalue⟩ := List.of_mem_zip hpair
    rw [h] at asked
    simp_all [Shape.asked, Shape.children]
  | returnType h hresult =>
    rw [h] at asked
    simp_all [Shape.asked, Shape.children, (hS.ret x _ _ hx h hresult).1]
  | missingReturn h hresult => simp [(hS.ret x _ _ hx h hresult).1]

/-- **A problem tells which nodes were compared.**  An initial value has one variable that it is
for. -/
theorem unique {root x' : NodeId} {ys ys' : List NodeId} (hnodup : (c.tree.preorder root).Nodup)
    (h : c.Compares x P ys) (h' : c.Compares x' P ys') (hx : x ∈ c.tree.preorder root)
    (hx' : x' ∈ c.tree.preorder root) : ys = ys' := by
  cases h with
  | initializer h =>
    cases h' with
    | initializer h' =>
      have hchild {y ty init : NodeId} {name : String}
          (h : c.tree.shape y = .var name (some ty) (some init)) : init ∈ c.tree.children y := by
        simp [Tree.children, h, Shape.children]
      obtain rfl := Tree.parent_unique hnodup hx (hchild h) hx' (hchild h')
      simp_all
  | _ h => cases h' <;> simp_all

end Compares

end Typing.Context

/-! ### Sections -/

namespace Analysis

variable {t : Tree} {links : Links} {root : NodeId} {a : Analysis}

/-- The problems of a section are the failed checks of its nodes. -/
theorem mem_problems_iff (ht : t.Arranged root) (hsize : root < links.size)
    (h : ofTree t links root = .ok a) {P : TypeProblem} :
    P ∈ a.typing.problems ↔ ∃ x ∈ t.preorder root, P ∈ (a.context t).reports a.typing.typeOf x := by
  obtain ⟨a', ha, -, -, hranked, -⟩ := exists_ofTree ht hsize
  obtain rfl := Except.ok.inj (h.symm.trans ha)
  obtain ⟨hlinks, -, hty⟩ := ofTree_ok h
  have hnodes := Section.nodes_ofTree t links root none
  unfold context at hranked ⊢
  rw [hlinks] at hranked ⊢
  obtain ⟨ty, hty', -, htyped, -⟩ := Typing.ofSection_solves hranked fun x => by rw [hnodes]
  obtain rfl := Except.ok.inj (hty.symm.trans hty')
  rw [htyped.problems]
  constructor
  · rintro ⟨x, τ, hx, hP⟩
    exact ⟨x, (htyped.done x τ hx).1, hP⟩
  · rintro ⟨x, hx, hP⟩
    exact ⟨x, _, htyped.nodes x (hnodes ▸ hx), hP⟩

/-- Numbers and characters that are well typed have their values recorded. -/
theorem literal_of_hasType {c : Typing.Context} {ty : Typing} {x : NodeId} {lit : Literal} {τ : Ty}
    {v : LiteralValue} (h : Typing.HasType c ty x (.literal lit) τ) (hv : lit.value? = some v) :
    ty.literal? x = some v := by
  cases h with
  | decimal hspelled h | octal hspelled h | float hspelled h => simp_all [Literal.value?]
  | char h => simp_all [Literal.value?]
  | text => cases hv

/-- A literal that is well typed spells a value, unless it is a text. -/
theorem value?_of_hasType {c : Typing.Context} {ty : Typing} {x : NodeId} {lit : Literal} {τ : Ty}
    (h : Typing.HasType c ty x (.literal lit) τ) (htext : ∀ s, lit ≠ .text s) :
    ∃ v, lit.value? = some v := by
  cases h with
  | decimal hspelled _ | octal hspelled _ | float hspelled _ => simp [Literal.value?, hspelled]
  | char _ => simp [Literal.value?]
  | text => exact (htext _ rfl).elim

/-- **No error is passed over in silence, and none leads to a second report.**  Where neither names
nor types have a problem, no node has an error for a type and every number and character has its
value.  Whatever is reported, a mismatch was found between types none of which is an error: nodes of
which one has an error for a type are not reported. -/
theorem neither_silent_nor_cascading (ht : t.WellFormed root) (hsize : root < links.size) :
    ∃ a, ofTree t links root = .ok a
      ∧ (a.resolution.hasErrors = false → a.typing.hasErrors = false →
          ∀ x ∈ t.preorder root, a.typing.typeOf x ∉ [.uninferred, .unresolved, .uncastable]
            ∧ ∀ lit, t.shape x = .literal lit → (∀ s, lit ≠ .text s) →
              ∃ v, lit.value? = some v ∧ a.typing.literal? x = some v)
      ∧ (∀ P ∈ a.typing.problems, (P.diagnostic t).cause.isMismatch = true →
          ∃ x ∈ t.preorder root, ∃ ys, (a.context t).Compares x P ys
            ∧ P.types = ys.map a.typing.typeOf
            ∧ ∀ y ∈ ys, y ∈ t.preorder root
              ∧ a.typing.typeOf y ∉ [.uninferred, .unresolved, .uncastable])
      ∧ ∀ x ∈ t.preorder root, ∀ P ys, (a.context t).Compares x P ys →
          (∃ y ∈ ys, a.typing.typeOf y ∈ [.uninferred, .unresolved, .uncastable]) →
          P ∉ a.typing.problems := by
  -- The three types of errors, as the typing knows them.
  have herror (τ : Ty) : τ ∉ [.uninferred, .unresolved, .uncastable] ↔ τ.isError = false := by
    cases τ <;> decide
  obtain ⟨a, ha, -, -, hranked, -⟩ := exists_ofTree ht.arranged hsize
  -- A mismatch comes from a comparison of types that are no errors.
  have hmismatch (P : TypeProblem) (hP : P ∈ a.typing.problems)
      (hcause : (P.diagnostic t).cause.isMismatch = true) :
      ∃ x ∈ t.preorder root, ∃ ys, (a.context t).Compares x P ys ∧ P.types = ys.map a.typing.typeOf
        ∧ ∀ y ∈ ys, (a.typing.typeOf y).isError = false := by
    obtain ⟨x, hx, hP⟩ := (mem_problems_iff ht.arranged hsize ha).1 hP
    exact ⟨x, hx, Typing.Context.Compares.of_reports hP hcause⟩
  refine ⟨a, ha, fun hnames htypes x hx => ?_, fun P hP hcause => ?_,
    fun x hx P ys hys hbad hP => ?_⟩
  · have hsound := sound_of_ofTree ht ha (by simpa [Resolution.hasErrors] using hnames)
      (by simpa [Typing.hasErrors] using htypes)
    refine ⟨(herror _).2 (hsound.noError x hx), fun lit hshape htext => ?_⟩
    have htype := hshape ▸ hsound.wellTyped x hx
    obtain ⟨v, hv⟩ := value?_of_hasType htype htext
    exact ⟨v, hv, literal_of_hasType htype hv⟩
  · obtain ⟨x, hx, ys, hys, htypes, hsound⟩ := hmismatch P hP hcause
    exact ⟨x, hx, ys, hys, htypes, fun y hy =>
      ⟨hys.mem hranked hx y hy, (herror _).2 (hsound y hy)⟩⟩
  · -- The comparison of the report is the only one that gives it.
    have hcause : (P.diagnostic t).cause.isMismatch = true := by cases hys <;> rfl
    obtain ⟨x', hx', ys', hys', -, hsound⟩ := hmismatch P hP hcause
    obtain rfl := hys.unique ht.nodup hys' hx hx'
    obtain ⟨y, hy, hbad⟩ := hbad
    exact (herror _).2 (hsound y hy) hbad

end Analysis

/-- `x := nope + 1; y : int8 = x; z := "a" + 1; w : int8 = z` -/
def Tree.twoErrors : Tree where
  nodes :=
    #[⟨.ident "nope", .nowhere⟩, ⟨.binaryOp .add, .nowhere⟩, ⟨.literal (.number "1"), .nowhere⟩,
      ⟨.binary 0 1 2, .nowhere⟩, ⟨.var "x" none (some 3), .nowhere⟩,
      ⟨.typeName "int8", .nowhere⟩, ⟨.ident "x", .nowhere⟩, ⟨.var "y" (some 5) (some 6), .nowhere⟩,
      ⟨.literal (.text "a"), .nowhere⟩, ⟨.binaryOp .add, .nowhere⟩,
      ⟨.literal (.number "1"), .nowhere⟩, ⟨.binary 8 9 10, .nowhere⟩,
      ⟨.var "z" none (some 11), .nowhere⟩, ⟨.typeName "int8", .nowhere⟩, ⟨.ident "z", .nowhere⟩,
      ⟨.var "w" (some 13) (some 14), .nowhere⟩, ⟨.module [4, 7, 12, 15], .nowhere⟩]
  children_lt := by decide

/-- A name without a declaration and a text that is added are reported; the variables that start
with the one and the other are not. -/
theorem Tree.twoErrors_reported_once :
    Tree.twoErrors.WellFormed 16 ∧ 16 < (Links.unset 17).size
      ∧ ∃ a, Analysis.ofTree .twoErrors (.unset 17) 16 = .ok a
        ∧ a.resolution.missing.map (·.ident) = [0]
        ∧ a.typing.problems = #[.operands 11 8 9 10 .text .anyNumber]
        ∧ a.typing.typeOf 6 = .unresolved ∧ a.typing.typeOf 14 = .uncastable
        ∧ .initializer "y" 6 .int8 .unresolved ∉ a.typing.problems
        ∧ .initializer "w" 14 .int8 .uncastable ∉ a.typing.problems := by
  have ht : Tree.twoErrors.WellFormed 16 := by decide +kernel
  have hsize : 16 < (Links.unset 17).size := by decide
  obtain ⟨a, ha, -, -, hquiet⟩ := Analysis.neither_silent_nor_cascading ht hsize
  have hrun : (Analysis.ofTree .twoErrors (.unset 17) 16).toOption.any (fun a =>
      a.resolution.missing.map (·.ident) == [0]
        && a.typing.problems == #[.operands 11 8 9 10 .text .anyNumber]
        && a.typing.typeOf 6 == .unresolved && a.typing.typeOf 14 == .uncastable) = true := by
    decide +kernel
  simp only [ha, Except.toOption, Option.any_some, Bool.and_eq_true, beq_iff_eq] at hrun
  obtain ⟨⟨⟨hmissing, hproblems⟩, hx⟩, hz⟩ := hrun
  refine ⟨ht, hsize, a, ha, hmissing, hproblems, hx, hz,
    hquiet 7 (by decide +kernel) _ [5, 6] (.initializer rfl) ⟨6, by simp, by simp [hx]⟩,
    hquiet 15 (by decide +kernel) _ [13, 14] (.initializer rfl) ⟨14, by simp, by simp [hz]⟩⟩

end MiddleEnd
