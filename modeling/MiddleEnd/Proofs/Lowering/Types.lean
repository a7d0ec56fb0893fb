import MiddleEnd.Proofs.Lowering.Progress
import MiddleEnd.Proofs.Typing.Kinds

/-!
# Types of lowered nodes

What the typing judgement says of the nodes of a sound tree, rule by rule and in the terms of
lowering: which types are equal, and which have a kind if another one has.

## Main definitions

* `LowerContext.kindOf` — the kind in which the values of a node are kept.
* `LowerContext.CallGives`, `LowerContext.Declares` — the declared result kind of a procedure.
* `LowerContext.NativeWrites` — the variable that native code writes.

## Main results

* `LowerContext.Sound.typeOf_home` — a variable has the type of its declaration.
* `LowerContext.Sound.hasKind_assign`, `LowerContext.Sound.hasKind_ret` — stored and returned values
  have a kind exactly if their destination has one.
* `LowerContext.Sound.declares` — the kind of a call is the one that the procedure declares.
-/

namespace MiddleEnd

theorem Shape.exists_of_isProcedure {s : Shape} (h : s.isProcedure = true) :
    ∃ result body, s = .procedure result body := by
  cases s with
  | procedure result body => exact ⟨result, body, rfl⟩
  | _ => cases h

namespace LowerContext

/-- The kind in which the values of a node are kept. -/
def kindOf (c : LowerContext) (x : NodeId) : Option Kind := Kind.ofTy? (c.typeOf x)

/-- The kind of the result that is declared around a node. -/
def resultKind? (c : LowerContext) (id : NodeId) : Option Kind := (c.resultTy? id).bind Kind.ofTy?

/-- The procedure with index `j` is declared to return values of kind `k`. -/
def CallGives (c : LowerContext) (ℓ : Linkage) (j : Nat) (k : Kind) : Prop :=
  ∃ id result body, ℓ.targets[id]? = some j ∧ c.tree.shape id = .procedure (some result) body
    ∧ c.kindOf result = some k

/-- The procedure with index `j` declares a result of the kind `o`; one without a declared result,
or with a result of a type without a kind, declares none. -/
def Declares (c : LowerContext) (ℓ : Linkage) (j : Nat) (o : Option Kind) : Prop :=
  ∃ id result body, ℓ.targets[id]? = some j ∧ c.tree.shape id = .procedure result body
    ∧ o = result.bind c.kindOf

theorem Declares.gives {c : LowerContext} {ℓ : Linkage} {j : Nat} {k : Kind}
    (h : c.Declares ℓ j (some k)) : c.CallGives ℓ j k := by
  obtain ⟨id, result, body, hj, hshape, hk⟩ := h
  obtain ⟨x, rfl, hx⟩ := Option.bind_eq_some_iff.1 hk.symm
  exact ⟨id, x, body, hj, hshape, hx⟩

/-- Native code with the index `j` writes the register `r` for the variable that `decl` declares. -/
def NativeWrites (c : LowerContext) (ℓ : Linkage) (j : Nat) (decl : NodeId) (r : Register) : Prop :=
  ∃ id source inputs output target offset slots, id ∈ c.tree.preorder c.root
    ∧ c.tree.shape id = .native source inputs (some output)
    ∧ c.tree.shape output = .slot target offset
    ∧ c.resolution.declaration? (c.tree.ungroup target) = some decl
    ∧ ℓ.natives[j]? = some ⟨source, slots, some ⟨Lower.slotName c target, offset, r⟩⟩

namespace Sound

variable {c : LowerContext} {ℓ : Linkage} (hc : c.Sound) {id x y target value decl : NodeId}
  {name : String}

include hc

theorem isError (hx : x ∈ c.tree.preorder c.root) : (c.typeOf x).isError = false :=
  hc.analysis.noError x hx

variable (hid : id ∈ c.tree.preorder c.root)

include hid

theorem isError_child {shape : Shape} (hshape : c.tree.shape id = shape) (hx : x ∈ shape.children) :
    (c.typeOf x).isError = false :=
  hc.isError (hc.tree.child hid (by rwa [Tree.children_of_shape hshape]))

/-! ### Expressions -/

theorem typeOf_group (hshape : c.tree.shape id = .group x) : c.typeOf id = c.typeOf x := by
  obtain ⟨τ, hτ, hty⟩ := hc.judged hid hshape
  rw [hτ]
  cases hty with
  | group h => exact h.typeOf.symm

omit hid in
theorem typeOf_ungroup (hx : x ∈ c.tree.preorder c.root) :
    c.typeOf (c.tree.ungroup x) = c.typeOf x :=
  (Tree.ungroup_induction (motive := fun y => y ∈ c.tree.preorder c.root ∧ c.typeOf y = c.typeOf x)
    ⟨hx, rfl⟩ fun _ _ hshape he ⟨hy, hsame⟩ =>
      ⟨hc.tree.child hy he, (hc.typeOf_group hy hshape).symm.trans hsame⟩).2

theorem typeOf_ident (hshape : c.tree.shape id = .ident name)
    (hdecl : c.resolution.declaration? id = some decl) : c.typeOf id = c.typeOf decl := by
  obtain ⟨τ, hτ, hty⟩ := hc.judged hid hshape
  rw [hτ]
  cases hty with
  | ident hdecl' h =>
    obtain rfl := Option.some.inj (hdecl.symm.trans hdecl')
    exact h.typeOf.symm

theorem typeOf_constant (hshape : c.tree.shape id = .constant name x) :
    c.typeOf id = c.typeOf x := by
  obtain ⟨τ, hτ, hty⟩ := hc.judged hid hshape
  rw [hτ]
  cases hty with
  | constant h => exact h.typeOf.symm

/-- The constant that stands for a literal has the type of the literal. -/
theorem literalConstant {lit : Literal}
    (h : Lower.literalConstant? c.tree id = some (x, lit)) :
    x ∈ c.tree.preorder c.root ∧ c.tree.shape x = .literal lit ∧ c.typeOf x = c.typeOf id := by
  unfold Lower.literalConstant? at h
  split at h
  · next name y hshape =>
    split at h
    · next lit' hlit =>
      cases h
      have hy : y ∈ c.tree.children id := by simp [Tree.children_of_shape hshape, Shape.children]
      have hy := hc.tree.child hid hy
      refine ⟨c.tree.mem_preorder_trans hy (c.tree.ungroup_mem_preorder y), hlit, ?_⟩
      rw [hc.typeOf_ungroup hy, hc.typeOf_constant hid hshape]
    · cases h
  · cases h

theorem typeOf_slot {offset : Nat} (hshape : c.tree.shape id = .slot target offset) :
    c.typeOf id = c.typeOf target := by
  obtain ⟨τ, hτ, hty⟩ := hc.judged hid hshape
  rw [hτ]
  cases hty with
  | slot h _ => exact h.typeOf.symm

theorem hasKind_cast (hshape : c.tree.shape id = .cast x y) :
    (c.typeOf x).hasKind = (c.typeOf id).hasKind := by
  have hx := hc.isError_child hid hshape (x := x) (by simp [Shape.children])
  have hid' := hc.isError hid
  obtain ⟨τ, hτ, hty⟩ := hc.judged hid hshape
  rw [hτ] at hid' ⊢
  cases hty with
  | cast hdone _ hcan =>
    rw [← hdone.typeOf] at hcan
    exact Ty.hasKind_of_canCast hx hid' hcan

theorem hasKind_binary {op : NodeId} (hshape : c.tree.shape id = .binary x op y) :
    (c.typeOf x).hasKind = true ∧ (c.typeOf y).hasKind = true := by
  have hx := hc.isError_child hid hshape (x := x) (by simp [Shape.children])
  have hy := hc.isError_child hid hshape (x := y) (by simp [Shape.children])
  obtain ⟨τ, -, hty⟩ := hc.judged hid hshape
  cases hty with
  | binary hleft hright h =>
    rw [← hleft.typeOf, ← hright.typeOf] at h
    exact Ty.hasKind_of_promote hx hy h

/-- Numbers are computed by operators. -/
theorem hasKind_operator {op : NodeId} (hshape : c.tree.shape id = .binary x op y) :
    (c.typeOf id).hasKind = true := by
  have hx := hc.isError_child hid hshape (x := x) (by simp [Shape.children])
  have hy := hc.isError_child hid hshape (x := y) (by simp [Shape.children])
  obtain ⟨τ, hτ, hty⟩ := hc.judged hid hshape
  rw [hτ]
  cases hty with
  | binary hleft hright h =>
    rw [← hleft.typeOf, ← hright.typeOf] at h ⊢
    exact Ty.hasKind_promote hx hy h

/-- A literal has a value, unless it is a text. -/
theorem literal_value {lit : Literal} (hshape : c.tree.shape id = .literal lit) :
    (∃ contents, lit = .text contents) ∨ ∃ v, c.typing.literal? id = some v := by
  obtain ⟨τ, -, hty⟩ := hc.judged hid hshape
  cases hty with
  | decimal _ h | octal _ h | float _ h | char h => exact .inr ⟨_, h⟩
  | text => exact .inl ⟨_, rfl⟩

theorem hasKind_signed {op : NodeId} (hshape : c.tree.shape id = .signed op x) :
    (c.typeOf x).hasKind = true ∧ (c.typeOf id).hasKind = true := by
  have hx := hc.isError_child hid hshape (x := x) (by simp [Shape.children])
  obtain ⟨τ, hτ, hty⟩ := hc.judged hid hshape
  rw [hτ]
  cases hty with
  | signed hop hdone h =>
    rw [← hdone.typeOf] at h
    have hsigned := Ty.hasKind_withSign hx h
    rw [show c.typeOf x = _ from hdone.typeOf] at hsigned
    exact ⟨Ty.hasKind_of_withSign hx h, hsigned⟩

/-- The kind of a call is the one that the procedure declares, and none if it declares none. -/
theorem declares {j : Nat} (hshape : c.tree.shape id = .call x)
    (htarget : c.resolution.procedureTarget? c.tree x = some target)
    (hj : ℓ.targets[target]? = some j) : c.Declares ℓ j (c.kindOf id) := by
  obtain ⟨result, body, hprocedure⟩ :=
    Shape.exists_of_isProcedure (Resolution.isProcedure_of_target htarget)
  have hcallee : c.typingContext.calleeResult? x = result := by
    unfold Typing.Context.calleeResult?
    rw [show c.typingContext.resolution.procedureTarget? c.typingContext.tree x = some target
      from htarget, Option.bind_some, show c.typingContext.tree.shape target = _ from hprocedure]
    rfl
  refine ⟨target, result, body, hj, hprocedure, ?_⟩
  have hty := hc.hasType hid
  rw [hshape] at hty
  unfold kindOf
  generalize c.typeOf id = τ at hty ⊢
  cases hty with
  | callEmpty _ hresult =>
    rw [← hcallee, hresult]
    rfl
  | callTyped _ hresult h =>
    rw [← hcallee, hresult]
    exact congrArg Kind.ofTy? h.typeOf.symm

theorem native_output {source : String} {inputs : List NodeId} {output : NodeId} {offset : Nat}
    (hshape : c.tree.shape id = .native source inputs (some output))
    (hslot : c.tree.shape output = .slot target offset) :
    c.typeOf id = c.typeOf output ∧ c.typingContext.IsVariable target := by
  obtain ⟨τ, hτ, hty⟩ := hc.judged hid hshape
  rw [hτ]
  cases hty with
  | native _ h htarget => exact ⟨h.typeOf.symm, htarget target offset hslot⟩

omit hid in
/-- A variable has the type of its declaration. -/
theorem typeOf_home (htarget : target ∈ c.tree.preorder c.root)
    (hvariable : c.typingContext.IsVariable target)
    (hdecl : c.resolution.declaration? (c.tree.ungroup target) = some decl) :
    c.typeOf target = c.typeOf decl := by
  obtain ⟨-, -, -, -, -, -, name, hname⟩ := hvariable
  have hmem := c.tree.mem_preorder_trans htarget (c.tree.ungroup_mem_preorder target)
  rw [← hc.typeOf_ungroup htarget, hc.typeOf_ident hmem hname hdecl]

/-! ### Declarations and statements -/

theorem hasKind_var {ty : Option NodeId} (hshape : c.tree.shape id = .var name ty (some x)) :
    (c.typeOf x).hasKind = (c.typeOf id).hasKind := by
  have hx := hc.isError_child hid hshape (x := x) (by simp [Shape.children])
  have hid' := hc.isError hid
  obtain ⟨τ, hτ, hty⟩ := hc.judged hid hshape
  rw [hτ] at hid' ⊢
  cases hty with
  | var _ hinit h =>
    rw [← hinit.typeOf] at h
    exact Ty.hasKind_of_canAssign hid' hx h
  | varInferred h => rw [show c.typeOf x = _ from h.typeOf]

omit hid in
theorem hasKind_canStore (htarget : target ∈ c.tree.preorder c.root)
    (hvalue : value ∈ c.tree.preorder c.root)
    (h : Typing.CanStore c.typingContext c.typing target value) :
    c.typingContext.IsVariable target ∧ (c.typeOf value).hasKind = (c.typeOf target).hasKind := by
  have hcan := h.canAssign
  obtain ⟨-, -, -, -, hvariable, -⟩ := h
  exact ⟨hvariable, Ty.hasKind_of_canAssign (hc.isError htarget) (hc.isError hvalue) hcan⟩

theorem hasKind_assign (hshape : c.tree.shape id = .assign target value) :
    c.typingContext.IsVariable target ∧ (c.typeOf value).hasKind = (c.typeOf target).hasKind := by
  have htarget : target ∈ c.tree.children id := by
    simp [Tree.children_of_shape hshape, Shape.children]
  have hvalue : value ∈ c.tree.children id := by
    simp [Tree.children_of_shape hshape, Shape.children]
  obtain ⟨τ, -, hty⟩ := hc.judged hid hshape
  cases hty with
  | assign h => exact hc.hasKind_canStore (hc.tree.child hid htarget) (hc.tree.child hid hvalue) h

theorem hasKind_parallel {targets values : List NodeId}
    (hshape : c.tree.shape id = .parallel targets values) :
    ∀ pair ∈ targets.zip values, c.typingContext.IsVariable pair.1
      ∧ (c.typeOf pair.2).hasKind = (c.typeOf pair.1).hasKind := by
  intro pair hpair
  have hmem := List.of_mem_zip hpair
  have htarget : pair.1 ∈ c.tree.children id := by
    simp [Tree.children_of_shape hshape, Shape.children, hmem.1]
  have hvalue : pair.2 ∈ c.tree.children id := by
    simp [Tree.children_of_shape hshape, Shape.children, hmem.2]
  obtain ⟨τ, -, hty⟩ := hc.judged hid hshape
  cases hty with
  | parallel _ h =>
    exact hc.hasKind_canStore (hc.tree.child hid htarget) (hc.tree.child hid hvalue) (h pair hpair)

/-- Every target of a parallel assignment has a value. -/
theorem length_parallel {targets values : List NodeId}
    (hshape : c.tree.shape id = .parallel targets values) : targets.length = values.length := by
  obtain ⟨τ, -, hty⟩ := hc.judged hid hshape
  cases hty with
  | parallel hlength _ => exact hlength

/-- What a parallel assignment stores to is a variable. -/
theorem isVariable_parallel {targets values : List NodeId}
    (hshape : c.tree.shape id = .parallel targets values) (hx : x ∈ targets) :
    c.typingContext.IsVariable x := by
  obtain ⟨n, hn, rfl⟩ := List.getElem_of_mem hx
  have hlength := hc.length_parallel hid hshape
  have hpair : (targets[n], values[n]) ∈ targets.zip values :=
    List.mem_iff_getElem.2 ⟨n, by simp [hn, ← hlength], by simp⟩
  exact (hc.hasKind_parallel hid hshape _ hpair).1

/-- The declared result around a node of the tree is a node of the tree. -/
theorem mem_of_resultNode? {result : NodeId} (h : c.typingContext.resultNode? id = some result) :
    result ∈ c.tree.preorder c.root := by
  unfold Typing.Context.resultNode? at h
  obtain ⟨p, hp, hresult⟩ := Option.bind_eq_some_iff.1 h
  obtain ⟨hmem, -⟩ := hc.analysis.rooted.mem_of_ancestor? hid hp
  change (c.tree.shape p).result? = some result at hresult
  cases hshape : c.tree.shape p <;> rw [hshape] at hresult <;>
    first | (cases hresult; done) | skip
  next body =>
  obtain rfl : _ = some result := hresult
  refine hc.tree.child hmem ?_
  simp [Tree.children_of_shape hshape, Shape.children]

/-- A value is returned where its type has a kind exactly if the declared result has one. -/
theorem hasKind_ret {τ : Ty} (hshape : c.tree.shape id = .ret (some x))
    (hresult : c.resultTy? id = some τ) : (c.typeOf x).hasKind = τ.hasKind := by
  have hx := hc.isError_child hid hshape (x := x) (by simp [Shape.children])
  have hty := hc.hasType hid
  rw [hshape] at hty
  unfold resultTy? at hresult
  generalize c.typeOf id = ρ at hty
  cases hty with
  | retFree hnone _ =>
    rw [hnone] at hresult
    cases hresult
  | retValue hnode hρ hσ h =>
    have hτ := hc.isError (hc.mem_of_resultNode? hid hnode)
    rw [hnode, Option.map_some] at hresult
    obtain rfl := Option.some.inj hresult
    rw [← hρ.typeOf, ← hσ.typeOf] at h
    exact Ty.hasKind_of_canAssign hτ hx h

/-- Nothing is returned only where no result with a kind is declared. -/
theorem resultKind?_ret_none (hshape : c.tree.shape id = .ret none) : c.resultKind? id = none := by
  have hty := hc.hasType hid
  rw [hshape] at hty
  unfold resultKind? resultTy?
  generalize c.typeOf id = ρ at hty
  cases hty with
  | retFree hnone _ =>
    rw [hnone]
    rfl
  | retNothing hnode h =>
    rw [hnode]
    exact congrArg Kind.ofTy? h.typeOf

end Sound

end LowerContext

end MiddleEnd
