import Mathlib.Data.List.Basic
import MiddleEnd.Proofs.Typing.Equations
import MiddleEnd.Proofs.Typing.Soundness

/-!
# What typing reports

Every rule compares the types of the nodes that it mentions.  Which of its checks fail depends on
these types alone, so that what is wrong with a node can be read off from the types of all nodes.
It is reported at the node or at one that it asks for.

## Main definitions

* `Typing.Context.reports` — the checks of a node that fail, given the types of all nodes.
* `Typing.Context.Fails` — the same as a relation, with one constructor for each check.
* `TypeProblem.node` — the node that a problem is reported at.
* `Tree.Asks` — one node asks for the type of another one.

## Main results

* `Typing.Context.mem_reports_iff` — **the checks of a node that fail are the ones listed**.
* `Typing.Context.of_reports` — where the failed checks of a node are reported.
* `Typing.Context.reports_congr` — **the checks of a node depend on what it reads.**
-/

namespace MiddleEnd

/-- The node that a problem is reported at. -/
def TypeProblem.node : TypeProblem → NodeId
  | selfReference id | nativeType id _ | unknownType id _ | arrayType id | badNumber id _
  | untyped id _ | operands id _ _ _ _ _ | signOperand id _ _ | notCallable id _ | cast id _ _
  | unbalanced id _ _ | missingReturn id _ => id
  | initializer _ init _ _ => init
  | procedureStore target | notVariable target | constantStore target _ _ => target
  | store _ value _ _ => value
  | returnType value _ _ _ => value

/-- Whether a problem is about what a procedure returns. -/
def TypeProblem.isReturn : TypeProblem → Bool
  | returnType _ _ _ _ | missingReturn _ _ => true
  | _ => false

/-- One node asks for the type of another one. -/
def Tree.Asks (t : Tree) (x y : NodeId) : Prop := y ∈ (t.shape x).asked

theorem Tree.ungroup_asks (t : Tree) (x : NodeId) : Relation.ReflTransGen t.Asks x (t.ungroup x) :=
  ungroup_induction .refl fun y e hshape _ hy =>
    hy.tail (show e ∈ (t.shape y).asked by simp [hshape, Shape.asked, Shape.children])

namespace Typing.Context

variable (c : Context) (f : NodeId → Ty)

/-- What is wrong with a target that is no variable.  A name without a declaration has been reported
before. -/
def targetReports (target : NodeId) : List TypeProblem :=
  match c.tree.shape (c.tree.ungroup target) with
  | .ident _ =>
    match c.resolution.declaration? (c.tree.ungroup target) with
    | none => []
    | some decl =>
      match c.tree.shape decl with
      | .constant name _ => [.constantStore (c.tree.ungroup target) decl name]
      | _ => []
  | _ => [.notVariable (c.tree.ungroup target)]

/-- Whether an expression names a variable. -/
def writes (target : NodeId) : Bool :=
  match c.tree.shape (c.tree.ungroup target) with
  | .ident _ =>
    match c.resolution.declaration? (c.tree.ungroup target) with
    | none => false
    | some decl =>
      match c.tree.shape decl with
      | .var _ _ _ => true
      | _ => false
  | _ => false

/-- What is reported about a store. -/
def storeReports (target value : NodeId) : List TypeProblem :=
  c.targetReports target
    ++ if c.writes target then
        if f target = .procedure then [.procedureStore target]
        else if !Ty.canAssign (f target) (f value) then [.store target value (f target) (f value)]
        else []
      else []

/-- What is reported about a return. -/
def returnReports (id : NodeId) (value : Option NodeId) : List TypeProblem :=
  match c.resultNode? id with
  | none => []
  | some result =>
    match value with
    | some value =>
      if !Ty.canAssign (f result) (f value) then [.returnType value result (f value) (f result)]
      else []
    | none =>
      if f result ≠ .empty ∧ !(f result).isError then [.missingReturn id (f result)] else []

/-- **The checks of a node that fail**, given the types `f` of all nodes. -/
def reports (id : NodeId) : List TypeProblem :=
  match c.tree.shape id with
  | .var name (some ty) (some init) =>
    if !Ty.canAssign (f ty) (f init) then [.initializer name init (f ty) (f init)] else []
  | .var name none none => [.untyped id name]
  | .assign target value => c.storeReports f target value
  | .parallel targets values =>
    if targets.length = values.length then
      (targets.zip values).flatMap fun pair => c.storeReports f pair.1 pair.2
    else [.unbalanced id targets.length values.length]
  | .ret value => c.returnReports f id value
  | .literal (.number spelling) =>
    match Spelled.ofText spelling with
    | .ok _ => []
    | .error e => [.badNumber id e]
  | .binary left op right =>
    if (f left).promote (f right) = .uncastable ∧ !(f left).isError ∧ !(f right).isError then
      [.operands id left op right (f left) (f right)]
    else []
  | .signed op operand =>
    match c.tree.shape op with
    | .signOp sign =>
      if (f operand).withSign sign = .uncastable ∧ !(f operand).isError then
        [.signOperand id sign (f operand)]
      else []
    | _ => []
  | .call callee =>
    if (f callee).isError then []
    else if f callee ≠ .procedure then [.notCallable id (f callee)]
    else []
  | .cast expr ty =>
    if (f expr).isError then []
    else if (f ty).isError then []
    else if !Ty.canCast (f expr) (f ty) then [.cast id (f expr) (f ty)]
    else []
  | .native _ _ (some output) =>
    match c.tree.shape output with
    | .slot target _ => c.targetReports target
    | _ => []
  | .slot target _ =>
    if !(f target).isError ∧ !(f target).isNumeric ∧ f target ≠ .char then
      [.nativeType id (f target)]
    else []
  | .typeName name =>
    match Ty.ofName? name with
    | some _ => []
    | none => [.unknownType id name]
  | .array _ _ => [.arrayType id]
  | _ => []

/-! ### The checks one by one -/

/-- What is wrong with a target that is no variable. -/
inductive TargetFails (target : NodeId) : TypeProblem → Prop
  /-- It is no name. -/
  | notVariable (h : ∀ name, c.tree.shape (c.tree.ungroup target) ≠ .ident name) :
      TargetFails target (.notVariable (c.tree.ungroup target))
  /-- It is the name of a constant. -/
  | constantStore {text name : String} {decl value : NodeId}
      (hident : c.tree.shape (c.tree.ungroup target) = .ident text)
      (hbound : c.resolution.declaration? (c.tree.ungroup target) = some decl)
      (hdecl : c.tree.shape decl = .constant name value) :
      TargetFails target (.constantStore (c.tree.ungroup target) decl name)

/-- What is wrong with storing a value to a target.  Types are compared for variables only, and a
variable for procedures takes no value at all. -/
inductive StoreFails (target value : NodeId) : TypeProblem → Prop
  /-- The target is no variable. -/
  | target {P : TypeProblem} (h : c.TargetFails target P) : StoreFails target value P
  /-- The variable holds a procedure. -/
  | procedure (hwrites : c.writes target = true) (h : f target = .procedure) :
      StoreFails target value (.procedureStore target)
  /-- The variable cannot hold the value. -/
  | mismatch (hwrites : c.writes target = true) (hdest : f target ≠ .procedure)
      (h : Ty.canAssign (f target) (f value) = false) :
      StoreFails target value (.store target value (f target) (f value))

/-- What is wrong with a `return`, given what its procedure returns. -/
inductive ReturnFails (x : NodeId) : Option NodeId → TypeProblem → Prop
  /-- The value does not fit the declared result. -/
  | returnType {value result : NodeId} (hresult : c.resultNode? x = some result)
      (h : Ty.canAssign (f result) (f value) = false) :
      ReturnFails x (some value) (.returnType value result (f value) (f result))
  /-- A result is declared and nothing is returned. -/
  | missingReturn {result : NodeId} (hresult : c.resultNode? x = some result)
      (h : f result ≠ .empty) (hsound : (f result).isError = false) :
      ReturnFails x none (.missingReturn x (f result))

/-- What is wrong with a node, one constructor for each of the checks. -/
inductive Fails (x : NodeId) : TypeProblem → Prop
  /-- The initial value of a variable does not fit its declared type. -/
  | initializer {name : String} {ty init : NodeId}
      (hshape : c.tree.shape x = .var name (some ty) (some init))
      (h : Ty.canAssign (f ty) (f init) = false) :
      Fails x (.initializer name init (f ty) (f init))
  /-- A variable has neither. -/
  | untyped {name : String} (hshape : c.tree.shape x = .var name none none) :
      Fails x (.untyped x name)
  /-- Something is wrong with a store. -/
  | assign {target value : NodeId} {P : TypeProblem}
      (hshape : c.tree.shape x = .assign target value)
      (h : c.StoreFails f target value P) : Fails x P
  /-- Something is wrong with one of the stores of a parallel assignment. -/
  | parallel {targets values : List NodeId} {target value : NodeId} {P : TypeProblem}
      (hshape : c.tree.shape x = .parallel targets values)
      (hlength : targets.length = values.length)
      (hpair : (target, value) ∈ targets.zip values) (h : c.StoreFails f target value P) : Fails x P
  /-- A parallel assignment has more targets than values, or fewer. -/
  | unbalanced {targets values : List NodeId} (hshape : c.tree.shape x = .parallel targets values)
      (h : targets.length ≠ values.length) : Fails x (.unbalanced x targets.length values.length)
  /-- Something is wrong with a return. -/
  | ret {value : Option NodeId} {P : TypeProblem} (hshape : c.tree.shape x = .ret value)
      (h : c.ReturnFails f x value P) : Fails x P
  /-- The spelling denotes no number. -/
  | badNumber {spelling : String} {e : SpellingError}
      (hshape : c.tree.shape x = .literal (.number spelling))
      (h : Spelled.ofText spelling = .error e) :
      Fails x (.badNumber x e)
  /-- Sound operands have no type in common. -/
  | operands {left op right : NodeId} (hshape : c.tree.shape x = .binary left op right)
      (h : (f left).promote (f right) = .uncastable) (hleft : (f left).isError = false)
      (hright : (f right).isError = false) : Fails x (.operands x left op right (f left) (f right))
  /-- A sound operand is no number. -/
  | signOperand {op operand : NodeId} {sign : Sign} (hshape : c.tree.shape x = .signed op operand)
      (hop : c.tree.shape op = .signOp sign) (h : (f operand).withSign sign = .uncastable)
      (hoperand : (f operand).isError = false) : Fails x (.signOperand x sign (f operand))
  /-- A sound callee is no procedure. -/
  | notCallable {callee : NodeId} (hshape : c.tree.shape x = .call callee)
      (hcallee : (f callee).isError = false) (h : f callee ≠ .procedure) :
      Fails x (.notCallable x (f callee))
  /-- A sound operand cannot be cast to a sound target. -/
  | cast {expr ty : NodeId} (hshape : c.tree.shape x = .cast expr ty)
      (hexpr : (f expr).isError = false) (hty : (f ty).isError = false)
      (h : Ty.canCast (f expr) (f ty) = false) : Fails x (.cast x (f expr) (f ty))
  /-- The output of native code is no variable. -/
  | output {source : String} {inputs : List NodeId} {output target : NodeId} {offset : Nat}
      {P : TypeProblem} (hshape : c.tree.shape x = .native source inputs (some output))
      (hslot : c.tree.shape output = .slot target offset) (h : c.TargetFails target P) : Fails x P
  /-- A sound value that native code exchanges is neither a number nor a character. -/
  | nativeType {target : NodeId} {offset : Nat} (hshape : c.tree.shape x = .slot target offset)
      (htarget : (f target).isError = false) (hnumeric : (f target).isNumeric = false)
      (hchar : f target ≠ .char) : Fails x (.nativeType x (f target))
  /-- The name of a type is not known. -/
  | unknownType {name : String} (hshape : c.tree.shape x = .typeName name)
      (h : Ty.ofName? name = none) : Fails x (.unknownType x name)
  /-- Array types are not supported. -/
  | arrayType {elem : NodeId} {len : Nat} (hshape : c.tree.shape x = .array elem len) :
      Fails x (.arrayType x)

variable {c f} {c' : Context} {g : NodeId → Ty} {x : NodeId} {P : TypeProblem}

/-- A check reports its problem exactly where its condition holds. -/
theorem mem_check_iff {p : Prop} [Decidable p] {Q : TypeProblem} :
    P ∈ (if p then [Q] else []) ↔ p ∧ P = Q := by
  rw [List.mem_ite_nil_right, List.mem_singleton]

theorem mem_targetReports_iff {target : NodeId} :
    P ∈ c.targetReports target ↔ c.TargetFails target P := by
  constructor
  · intro hP
    unfold targetReports at hP
    split at hP
    · next hident =>
      split at hP
      · cases hP
      · next hbound =>
        split at hP
        · next hdecl =>
          obtain rfl := List.mem_singleton.1 hP
          exact .constantStore hident hbound hdecl
        · cases hP
    · next hident =>
      obtain rfl := List.mem_singleton.1 hP
      exact .notVariable hident
  · intro h
    unfold targetReports
    cases h with
    | notVariable h => split <;> simp_all
    | constantStore hident hbound hdecl => simp [hident, hbound, hdecl]

theorem mem_storeReports_iff {target value : NodeId} :
    P ∈ c.storeReports f target value ↔ c.StoreFails f target value P := by
  unfold storeReports
  rw [List.mem_append, mem_targetReports_iff]
  constructor
  · rintro (htarget | hP)
    · exact .target htarget
    · split at hP
      · next hwrites =>
        split at hP
        · next hdest =>
          obtain rfl := List.mem_singleton.1 hP
          exact .procedure hwrites hdest
        · next hdest =>
          obtain ⟨h, rfl⟩ := mem_check_iff.1 hP
          exact .mismatch hwrites hdest (by simpa using h)
      · cases hP
  · intro h
    cases h with
    | target h => exact .inl h
    | procedure hwrites h => simp [hwrites, h]
    | mismatch hwrites hdest h => simp [hwrites, hdest, h]

theorem mem_returnReports_iff {value : Option NodeId} :
    P ∈ c.returnReports f x value ↔ c.ReturnFails f x value P := by
  unfold returnReports
  constructor
  · intro hP
    split at hP
    · cases hP
    · next result hresult =>
      cases value with
      | some value =>
        obtain ⟨h, rfl⟩ := mem_check_iff.1 hP
        exact .returnType hresult (by simpa using h)
      | none =>
        obtain ⟨⟨h, hsound⟩, rfl⟩ := mem_check_iff.1 hP
        exact .missingReturn hresult h (by simpa using hsound)
  · intro h
    cases h with
    | returnType hresult h => simp [hresult, h]
    | missingReturn hresult h hsound => simp [hresult, h, hsound]

/-- What is reported comes from one of the branches, and each is a failure by its conditions. -/
theorem fails_of_mem_reports (hP : P ∈ c.reports f x) : c.Fails f x P := by
  unfold reports at hP
  cases hshape : c.tree.shape x <;> rw [hshape] at hP <;> simp only at hP
  case var name ty init =>
    cases ty <;> cases init <;> simp only at hP
    case none.none =>
      obtain rfl := List.mem_singleton.1 hP
      exact .untyped hshape
    case some.some ty init =>
      obtain ⟨h, rfl⟩ := mem_check_iff.1 hP
      exact .initializer hshape (by simpa using h)
    all_goals cases hP
  case assign target value => exact .assign hshape (mem_storeReports_iff.1 hP)
  case parallel targets values =>
    split at hP
    · next hlength =>
      obtain ⟨⟨target, value⟩, hpair, hP⟩ := List.mem_flatMap.1 hP
      exact .parallel hshape hlength hpair (mem_storeReports_iff.1 hP)
    · next hlength =>
      obtain rfl := List.mem_singleton.1 hP
      exact .unbalanced hshape hlength
  case ret value => exact .ret hshape (mem_returnReports_iff.1 hP)
  case literal lit =>
    cases lit <;> simp only at hP
    case number spelling =>
      split at hP
      · cases hP
      · next h =>
        obtain rfl := List.mem_singleton.1 hP
        exact .badNumber hshape h
    all_goals cases hP
  case binary left op right =>
    obtain ⟨⟨h, hleft, hright⟩, rfl⟩ := mem_check_iff.1 hP
    exact .operands hshape h (by simpa using hleft) (by simpa using hright)
  case signed op operand =>
    split at hP
    · next hop =>
      obtain ⟨⟨h, hoperand⟩, rfl⟩ := mem_check_iff.1 hP
      exact .signOperand hshape hop h (by simpa using hoperand)
    · cases hP
  case call callee =>
    obtain ⟨hcallee, hP⟩ := List.mem_ite_nil_left.1 hP
    obtain ⟨h, rfl⟩ := mem_check_iff.1 hP
    exact .notCallable hshape (by simpa using hcallee) h
  case cast expr ty =>
    obtain ⟨hexpr, hP⟩ := List.mem_ite_nil_left.1 hP
    obtain ⟨hty, hP⟩ := List.mem_ite_nil_left.1 hP
    obtain ⟨h, rfl⟩ := mem_check_iff.1 hP
    exact .cast hshape (by simpa using hexpr) (by simpa using hty) (by simpa using h)
  case native source inputs output =>
    cases output <;> simp only at hP
    case none => cases hP
    case some output =>
      split at hP
      · next hslot => exact .output hshape hslot (mem_targetReports_iff.1 hP)
      · cases hP
  case slot target offset =>
    obtain ⟨⟨htarget, hnumeric, hchar⟩, rfl⟩ := mem_check_iff.1 hP
    exact .nativeType hshape (by simpa using htarget) (by simpa using hnumeric) hchar
  case typeName name =>
    split at hP
    · cases hP
    · next h =>
      obtain rfl := List.mem_singleton.1 hP
      exact .unknownType hshape h
  case array elem len =>
    obtain rfl := List.mem_singleton.1 hP
    exact .arrayType hshape
  all_goals cases hP

/-- A failure takes its branch. -/
theorem Fails.mem_reports (h : c.Fails f x P) : P ∈ c.reports f x := by
  unfold reports
  cases h with
  | assign hshape h => simpa [hshape] using mem_storeReports_iff.2 h
  | parallel hshape hlength hpair h =>
    simp only [hshape, if_pos hlength]
    exact List.mem_flatMap.2 ⟨_, hpair, mem_storeReports_iff.2 h⟩
  | ret hshape h => simpa [hshape] using mem_returnReports_iff.2 h
  | output hshape hslot h => simpa [hshape, hslot] using mem_targetReports_iff.2 h
  | _ => simp_all

/-- **The checks of a node that fail are the ones listed.** -/
theorem mem_reports_iff : P ∈ c.reports f x ↔ c.Fails f x P :=
  ⟨fails_of_mem_reports, Fails.mem_reports⟩

/-! ### Where problems are reported -/

theorem TargetFails.node_eq {target : NodeId} (h : c.TargetFails target P) :
    P.node = c.tree.ungroup target ∧ P.isReturn = false := by
  cases h <;> exact ⟨rfl, rfl⟩

theorem StoreFails.node_eq {target value : NodeId} (h : c.StoreFails f target value P) :
    (P.node = c.tree.ungroup target ∨ P.node = target ∨ P.node = value) ∧ P.isReturn = false := by
  cases h with
  | target h => exact ⟨.inl h.node_eq.1, h.node_eq.2⟩
  | procedure => exact ⟨.inr (.inl rfl), rfl⟩
  | mismatch => exact ⟨.inr (.inr rfl), rfl⟩

/-- What is reported about a `return` is about its value, or about itself if it has none. -/
theorem of_returnReports {value : Option NodeId} (hP : P ∈ c.returnReports f x value) :
    (∃ v τ σ result, value = some v ∧ P = .returnType v result τ σ)
      ∨ ∃ τ, value = none ∧ P = .missingReturn x τ := by
  cases mem_returnReports_iff.1 hP with
  | returnType => exact .inl ⟨_, _, _, _, rfl, rfl⟩
  | missingReturn => exact .inr ⟨_, rfl, rfl⟩

/-- What is reported about a node is about what its procedure returns, or it is reported at the node
or at one that it asks for. -/
theorem of_reports (hP : P ∈ c.reports f x) :
    (P.isReturn = false ∧ Relation.ReflTransGen c.tree.Asks x P.node)
      ∨ ∃ value, c.tree.shape x = .ret value ∧ P ∈ c.returnReports f x value := by
  have store {target value : NodeId} (ht : c.tree.Asks x target) (hv : c.tree.Asks x value)
      (h : c.StoreFails f target value P) :
      P.isReturn = false ∧ Relation.ReflTransGen c.tree.Asks x P.node := by
    obtain ⟨hnode | hnode | hnode, hreturn⟩ := h.node_eq <;> refine ⟨hreturn, hnode ▸ ?_⟩
    · exact .head ht (c.tree.ungroup_asks target)
    · exact .single ht
    · exact .single hv
  cases mem_reports_iff.1 hP with
  | ret hshape h => exact .inr ⟨_, hshape, mem_returnReports_iff.2 h⟩
  | initializer hshape =>
    exact .inl ⟨rfl, .single (by simp [Tree.Asks, hshape, Shape.asked, Shape.children,
      TypeProblem.node])⟩
  | assign hshape h =>
    exact .inl (store (by simp [Tree.Asks, hshape, Shape.asked, Shape.children])
      (by simp [Tree.Asks, hshape, Shape.asked, Shape.children]) h)
  | parallel hshape _ hpair h =>
    obtain ⟨ht, hv⟩ := List.of_mem_zip hpair
    exact .inl (store (by simp [Tree.Asks, hshape, Shape.asked, Shape.children, ht])
      (by simp [Tree.Asks, hshape, Shape.asked, Shape.children, hv]) h)
  | @output _ _ o y _ _ hshape hslot h =>
    have hout : c.tree.Asks x o := by simp [Tree.Asks, hshape, Shape.asked, Shape.children]
    have hy : c.tree.Asks o y := by simp [Tree.Asks, hslot, Shape.asked, Shape.children]
    exact .inl ⟨h.node_eq.2, h.node_eq.1 ▸ .head hout (.head hy (c.tree.ungroup_asks y))⟩
  | _ => exact .inl ⟨rfl, .refl⟩

theorem returnReports_eq_nil {value : Option NodeId} (hshape : c.tree.shape x = .ret value)
    (h : ∀ P ∈ c.reports f x, P.isReturn = false) : c.returnReports f x value = [] := by
  refine List.eq_nil_iff_forall_not_mem.2 fun P hP => ?_
  have hreturn := h P (by unfold reports; rw [hshape]; exact hP)
  rcases of_returnReports hP with ⟨_, _, _, _, -, rfl⟩ | ⟨_, -, rfl⟩ <;> cases hreturn

/-- **The checks of a node depend on what it reads.** -/
theorem reports_congr (htree : c'.tree = c.tree)
    (hasked : ∀ y ∈ (c.tree.shape x).asked, f y = g y)
    (hbound : ∀ y, Relation.ReflTransGen c.tree.Asks x y →
      c.resolution.declaration? y = c'.resolution.declaration? y)
    (hreturn : ∀ value, c.tree.shape x = .ret value →
      c.returnReports f x value = c'.returnReports g x value) :
    c.reports f x = c'.reports g x := by
  -- What is said of a target depends on what its name is bound to.
  have target {y : NodeId} (hy : Relation.ReflTransGen c.tree.Asks x y) :
      c.targetReports y = c'.targetReports y ∧ c.writes y = c'.writes y := by
    have hsame := hbound _ (hy.trans (c.tree.ungroup_asks y))
    unfold targetReports writes
    rw [htree, hsame]
    exact ⟨rfl, rfl⟩
  -- What is said of a store depends on that and on two types.
  have store {y z : NodeId} (hy : y ∈ (c.tree.shape x).asked) (hz : z ∈ (c.tree.shape x).asked) :
      c.storeReports f y z = c'.storeReports g y z := by
    obtain ⟨htarget, hwrites⟩ := target (.single hy)
    unfold storeReports
    rw [htarget, hwrites, hasked y hy, hasked z hz]
  unfold reports
  rw [htree]
  cases hshape : c.tree.shape x <;> rw [hshape] at hasked store <;> try simp only
  case literal lit => cases lit <;> rfl
  case var name ty init =>
    cases ty with
    | none => cases init <;> rfl
    | some ty =>
      cases init with
      | none => rfl
      | some init =>
        simp only
        rw [hasked ty (by simp [Shape.asked, Shape.children]),
          hasked init (by simp [Shape.asked, Shape.children])]
  case assign y z =>
    exact store (by simp [Shape.asked, Shape.children]) (by simp [Shape.asked, Shape.children])
  case parallel targets values =>
    split
    · refine List.flatMap_congr fun pair hpair => ?_
      obtain ⟨ht, hv⟩ := List.of_mem_zip hpair
      exact store (by simp [Shape.asked, Shape.children, ht])
        (by simp [Shape.asked, Shape.children, hv])
    · rfl
  case ret value => exact hreturn value hshape
  case binary left op right =>
    rw [hasked left (by simp [Shape.asked, Shape.children]),
      hasked right (by simp [Shape.asked, Shape.children])]
  case signed op operand =>
    rw [hasked operand (by simp [Shape.asked, Shape.children])]
  case call callee => rw [hasked callee (by simp [Shape.asked, Shape.children])]
  case cast expr ty =>
    rw [hasked expr (by simp [Shape.asked, Shape.children]),
      hasked ty (by simp [Shape.asked, Shape.children])]
  case native source inputs output =>
    cases output with
    | none => rfl
    | some o =>
      simp only
      split
      · next y offset hslot =>
        have hout : c.tree.Asks x o := by simp [Tree.Asks, hshape, Shape.asked, Shape.children]
        have hy : c.tree.Asks o y := by simp [Tree.Asks, hslot, Shape.asked, Shape.children]
        exact (target (.head hout (.single hy))).1
      · rfl
  case slot y offset => rw [hasked y (by simp [Shape.asked, Shape.children])]

/-- No check is about a node that depends on itself. -/
theorem selfReference_notMem_reports {y : NodeId} : .selfReference y ∉ c.reports f x := by
  have htarget {z : NodeId} : ¬c.TargetFails z (.selfReference y) := nofun
  have hstore {z v : NodeId} : ¬c.StoreFails f z v (.selfReference y) := fun h => by
    cases h with
    | target h => exact htarget h
  intro hP
  cases mem_reports_iff.1 hP with
  | assign _ h | parallel _ _ _ h => exact hstore h
  | output _ _ h => exact htarget h
  | ret _ h => cases h

end Typing.Context

end MiddleEnd
