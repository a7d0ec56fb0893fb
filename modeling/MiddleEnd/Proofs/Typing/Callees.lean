import MiddleEnd.Proofs.Resolution.Callees
import MiddleEnd.Proofs.Typing.Cascades
import MiddleEnd.Proofs.Typing.Kinds
import MiddleEnd.Proofs.Typing.Nested

/-!
# What has the type of a procedure

No operator, cast or call computes a procedure, and native code cannot take or give one.  Where
nothing is reported, an expression of that type is therefore a procedure or the name of one, and
what a declaration of that type is defined with is of that type again.  So every chain of names that
starts from such an expression ends at a procedure.

Nothing stores to such a declaration: a constant cannot be written at all, and a variable that holds
a procedure keeps it.

## Main definitions

* `Typing.Context.Accepts` — types of a well-formed tree that nothing is reported about.

## Main results

* `Typing.Context.Accepts.procedure_or_name` — **what an expression of the type of a procedure is.**
* `Typing.Context.Accepts.exists_definition` — what a declaration of that type is defined with.
* `Typing.Context.Accepts.exists_target` — **every callee denotes a procedure.**
* `Typing.Context.Accepts.isError_of_asked` — **errors come in with names only.**
* `Typing.Context.Accepts.ne_procedure_of_assign`,
  `Typing.Context.Accepts.ne_procedure_of_parallel`, `Typing.Context.Accepts.ne_procedure_of_native`
  — **nothing is stored to what holds a procedure.**
-/

namespace MiddleEnd

namespace Ty

variable {σ τ : Ty}

/-- No operator computes a procedure. -/
theorem promote_ne_procedure : σ.promote τ ≠ .procedure := by
  intro h
  have hor := promote_eq_or (σ := σ) (τ := τ) (by rw [h]; decide)
  rcases hor with heq | heq <;> rw [h] at heq <;> subst heq
  · cases τ <;> cases h
  · cases σ <;> cases h

theorem withSign_ne_procedure {sign : Sign} : σ.withSign sign ≠ .procedure := by
  intro h
  cases σ <;> cases h

end Ty

namespace Literal

theorem ty_ne_procedure (lit : Literal) : lit.ty ≠ .procedure := by
  intro h
  cases lit with
  | number spelling =>
    simp only [ty] at h
    split at h <;> cases h
  | char _ | text _ => cases h

end Literal

/-- What is inside the parentheses of an expression is an expression. -/
theorem Tree.WellFormed.isExpr_ungroup {t : Tree} {root x : NodeId} (h : t.WellFormed root)
    (hx : x ∈ t.preorder root) (hexpr : (t.shape x).isExpr = true) :
    (t.shape (t.ungroup x)).isExpr = true := by
  refine (Tree.ungroup_induction
    (motive := fun y => y ∈ t.preorder root ∧ (t.shape y).isExpr = true)
    ⟨hx, hexpr⟩ fun y e hshape he ⟨hy, _⟩ => ⟨h.child hy he, ?_⟩).2
  have hfits := h.fits y hy
  simpa only [Tree.fits, hshape] using hfits

namespace Typing.Context

theorem castTy_ne_procedure {source dest : Ty} (hdest : dest ≠ .procedure) :
    castTy source dest ≠ .procedure := by
  unfold castTy
  split
  · next herror =>
    rintro rfl
    cases herror
  · split
    · exact hdest
    · split
      · exact hdest
      · nofun

/-- The types `f` of a well-formed tree, about which nothing is reported. -/
structure Accepts (c : Context) (root : NodeId) (f : NodeId → Ty) : Prop where
  /-- The tree is well formed. -/
  tree : c.tree.WellFormed root
  /-- Its names are bound to what they see. -/
  exact : Resolution.Exact c.tree root [] [] c.resolution
  /-- The types solve the equations of the tree. -/
  solves : c.Solves root f
  /-- No check fails. -/
  quiet : ∀ x ∈ c.tree.preorder root, c.reports f x = []

namespace Accepts

variable {c : Context} {root : NodeId} {f : NodeId → Ty} (h : c.Accepts root f)

include h

/-! ### Expressions and declarations -/

theorem ne_procedure_of_isType {x : NodeId} (hx : x ∈ c.tree.preorder root)
    (htype : (c.tree.shape x).isType = true) : f x ≠ .procedure := by
  rw [h.solves x hx]
  exact equation_ne_procedure htype

/-- No check fails. -/
theorem not_fails {x : NodeId} (hx : x ∈ c.tree.preorder root) {P : TypeProblem} :
    ¬c.Fails f x P := by
  intro hP
  have hmem := mem_reports_iff.2 hP
  rw [h.quiet x hx] at hmem
  cases hmem

/-- There are no array types. -/
theorem ne_array {x elem len : NodeId} (hx : x ∈ c.tree.preorder root) :
    c.tree.shape x ≠ .array elem len := fun hshape => h.not_fails hx (.arrayType hshape)

/-- Native code takes and gives no procedure. -/
theorem ne_procedure_of_slot {x target : NodeId} {offset : Nat} (hx : x ∈ c.tree.preorder root)
    (hshape : c.tree.shape x = .slot target offset) : f target ≠ .procedure := fun hproc =>
  h.not_fails hx (.nativeType hshape (by rw [hproc]; rfl) (by rw [hproc]; rfl) (by simp [hproc]))

/-- The declared result of the procedure that is called is a type. -/
theorem isType_calleeResult {callee result : NodeId} (hcallee : callee ∈ c.tree.preorder root)
    (hresult : c.calleeResult? callee = some result) :
    result ∈ c.tree.preorder root ∧ (c.tree.shape result).isType = true := by
  obtain ⟨p, hp, hresult⟩ := Option.bind_eq_some_iff.1 hresult
  obtain ⟨hp, -⟩ := h.exact.target_before h.tree.nodup hcallee hp
  obtain ⟨hresult, htype⟩ := isType_result h.tree.arranged hp hresult
  exact ⟨h.tree.child hp hresult, htype⟩

/-- No procedure gives back a procedure. -/
theorem callTy_ne_procedure {callee : NodeId} (hcallee : callee ∈ c.tree.preorder root) :
    c.callTy f callee ≠ .procedure := by
  unfold callTy
  split
  · next herror =>
    intro hproc
    rw [hproc] at herror
    cases herror
  · split
    · nofun
    · split
      · next result hresult =>
        obtain ⟨hmem, htype⟩ := h.isType_calleeResult hcallee hresult
        exact h.ne_procedure_of_isType hmem htype
      · nofun

/-- **An expression of the type of a procedure is a procedure, or the name of a declaration of that
type**, perhaps in parentheses. -/
theorem procedure_or_name {x : NodeId} (hx : x ∈ c.tree.preorder root)
    (hexpr : (c.tree.shape x).isExpr = true) (hproc : f x = .procedure) :
    (c.tree.shape (c.tree.ungroup x)).isProcedure = true
      ∨ ∃ name decl, c.tree.shape (c.tree.ungroup x) = .ident name
          ∧ c.resolution.declaration? (c.tree.ungroup x) = some decl ∧ f decl = .procedure := by
  -- The expression inside the parentheses has the same type, and its equation gives the shape.
  have hmem := c.tree.mem_preorder_trans hx (c.tree.ungroup_mem_preorder x)
  have hinside := h.tree.isExpr_ungroup hx hexpr
  have hequation := h.solves _ hmem
  rw [h.solves.ungroup hx, hproc] at hequation
  have hfits := h.tree.fits _ hmem
  have hchild {y : NodeId} (hy : y ∈ c.tree.children (c.tree.ungroup x)) :
    y ∈ c.tree.preorder root :=
    h.tree.child hmem hy
  cases hshape : c.tree.shape (c.tree.ungroup x) <;> rw [hshape] at hinside <;>
    first | (cases hinside; done) | skip
  all_goals simp only [equation, hshape] at hequation
  case procedure result body => exact .inl rfl
  case ident name =>
    right
    cases hdecl : c.resolution.declaration? (c.tree.ungroup x) with
    | none => simp [hdecl] at hequation
    | some decl => exact ⟨name, decl, rfl, rfl, by simpa [hdecl] using hequation.symm⟩
  -- No parentheses are left.
  case group e => exact (c.tree.shape_ungroup_ne x e hshape).elim
  case literal lit => exact (lit.ty_ne_procedure hequation.symm).elim
  case binary left op right => exact (Ty.promote_ne_procedure hequation.symm).elim
  case signed op operand =>
    split at hequation
    · exact (Ty.withSign_ne_procedure hequation.symm).elim
    · cases hequation
  -- A call gives a value, never a procedure.
  case call callee =>
    have hcallee := hchild (y := callee) (by simp [Tree.children, hshape, Shape.children])
    exact (h.callTy_ne_procedure hcallee hequation.symm).elim
  case cast e ty =>
    simp only [Tree.fits, hshape, Bool.and_eq_true] at hfits
    have hty := h.ne_procedure_of_isType
      (hchild (y := ty) (by simp [Tree.children, hshape, Shape.children])) hfits.2
    exact (castTy_ne_procedure hty hequation.symm).elim
  -- Native code has the type of its target, which is no procedure.
  case native source inputs output =>
    cases output with
    | none => cases hequation
    | some output =>
      have houtput := hchild (y := output) (by simp [Tree.children, hshape, Shape.children])
      simp only [Tree.fits, hshape, Bool.and_eq_true, Option.all_some] at hfits
      obtain ⟨target, offset, hslot⟩ : ∃ target offset, c.tree.shape output
        = .slot target offset := by
        cases hslot : c.tree.shape output <;> rw [hslot] at hfits <;>
          first | exact ⟨_, _, rfl⟩ | cases hfits.2
      have hsame := h.solves output houtput
      simp only [equation, hslot] at hsame
      exact (h.ne_procedure_of_slot houtput hslot (hsame ▸ hequation.symm)).elim
  all_goals cases hequation

/-- **A declaration of the type of a procedure is defined with an expression of that type.** -/
theorem exists_definition {decl : NodeId} (hdecl : decl ∈ c.tree.preorder root)
    (hdeclares : (c.tree.shape decl).isDeclaration = true) (hproc : f decl = .procedure) :
    ∃ e, c.tree.definition? decl = some e ∧ e ∈ c.tree.preorder root
      ∧ (c.tree.shape e).isExpr = true ∧ f e = .procedure := by
  have hequation := h.solves decl hdecl
  have hfits := h.tree.fits decl hdecl
  have hchild {y : NodeId} (hy : y ∈ c.tree.children decl) : y ∈ c.tree.preorder root :=
    h.tree.child hdecl hy
  rw [hproc] at hequation
  cases hshape : c.tree.shape decl <;> rw [hshape] at hdeclares <;>
    first | (cases hdeclares; done) | skip
  case constant name e =>
    simp only [Tree.fits, hshape] at hfits
    simp only [equation, hshape] at hequation
    exact ⟨e, by simp [Tree.definition?, hshape],
      hchild (by simp [Tree.children, hshape, Shape.children]), hfits, hequation.symm⟩
  -- A variable of a declared type is no procedure, so it is one with an initial value.
  case var name ty init =>
    simp only [Tree.fits, hshape, Bool.and_eq_true] at hfits
    cases ty with
    | some ty =>
      simp only [equation, hshape] at hequation
      exact (h.ne_procedure_of_isType (hchild (by simp [Tree.children, hshape, Shape.children]))
        (by simpa using hfits.1) hequation.symm).elim
    | none =>
      cases init with
      | none => simp [equation, hshape] at hequation
      | some e =>
        simp only [equation, hshape] at hequation
        exact ⟨e, by simp [Tree.definition?, hshape],
          hchild (by simp [Tree.children, hshape, Shape.children]), by simpa using hfits.2,
          hequation.symm⟩

/-- **Every callee denotes a procedure**: chains of names of procedures end at one. -/
theorem exists_target {callee : NodeId} (hcallee : callee ∈ c.tree.preorder root)
    (hexpr : (c.tree.shape callee).isExpr = true) (hproc : f callee = .procedure) :
    ∃ p, c.resolution.procedureTarget? c.tree callee = some p ∧ p ∈ c.tree.preorder root
      ∧ (c.tree.shape p).isProcedure = true := by
  have hsome : ∃ p, c.resolution.procedureTarget? c.tree callee = some p := by
    induction h.exact.leads_acc h.tree.nodup callee with
    | intro callee _ ih =>
      rw [h.exact.procedureTarget?_step h.tree hcallee]
      rcases h.procedure_or_name hcallee hexpr hproc with
        hliteral | ⟨name, decl, hname, hbound, hdecl⟩
      · cases hshape : c.tree.shape (c.tree.ungroup callee) <;> rw [hshape] at hliteral <;>
          first | exact ⟨_, rfl⟩ | cases hliteral
      · obtain ⟨-, -, hmem, hdeclares, -⟩ := h.exact.bound_before hbound
        obtain ⟨e, hdefinition, he, hexpr, hproc⟩ := h.exists_definition hmem hdeclares hdecl
        obtain ⟨p, hp⟩ := ih e ⟨name, decl, hname, hbound, hdefinition⟩ he hexpr hproc
        exact ⟨p, by simp [hname, hbound, hdefinition, hp]⟩
  obtain ⟨p, hp⟩ := hsome
  obtain ⟨hmem, hliteral, -⟩ := h.exact.target_before h.tree.nodup hcallee hp
  exact ⟨p, hp, hmem, hliteral⟩

/-! ### Errors -/

/-- What stands for a type names one. -/
theorem isError_of_isType {x : NodeId} (hx : x ∈ c.tree.preorder root)
    (htype : (c.tree.shape x).isType = true) : (f x).isError = false := by
  have hequation := h.solves x hx
  cases hshape : c.tree.shape x <;> rw [hshape] at htype <;> first | (cases htype; done) | skip
  case typeName name =>
    cases hname : Ty.ofName? name with
    | none => exact (h.not_fails hx (.unknownType hshape hname)).elim
    | some τ => simpa [hequation, equation, hshape, hname] using isError_ofName? hname
  case array elem len => exact (h.ne_array hx hshape).elim

/-- **Errors come in with names only**: a node has an error for its type if what it is made of has,
or if it is a name that is bound to nothing. -/
theorem isError_of_asked {x : NodeId} (hx : x ∈ c.tree.preorder root)
    (hasked : ∀ y ∈ (c.tree.shape x).asked, (f y).isError = false)
    (hname : ∀ name, c.tree.shape x = .ident name →
      ∃ decl, c.resolution.declaration? x = some decl ∧ (f decl).isError = false) :
    (f x).isError = false := by
  have hequation := h.solves x hx
  have hfits := h.tree.fits x hx
  -- By the shape: the type is one of those that are asked, or a check would have failed.
  rw [hequation]
  cases hshape : c.tree.shape x <;> rw [hshape] at hasked <;>
    simp only [equation, hshape, Tree.fits] at hfits ⊢
  case constant name e => exact hasked e (by simp [Shape.asked, Shape.children])
  case var name ty init =>
    cases ty with
    | some ty => exact hasked ty (by simp [Shape.asked, Shape.children])
    | none =>
      cases init with
      | some e => exact hasked e (by simp [Shape.asked, Shape.children])
      | none => exact (h.not_fails hx (.untyped hshape)).elim
  case literal lit =>
    cases lit with
    | number spelling =>
      cases hspelled : Spelled.ofText spelling with
      | error e => exact (h.not_fails hx (.badNumber hshape hspelled)).elim
      | ok spelled => cases spelled <;> simp [Literal.ty, hspelled, Ty.isError, Ty.families]
    | char _ | text _ => rfl
  -- A name has the type of its declaration.
  case ident name =>
    obtain ⟨decl, hbound, herror⟩ := hname name hshape
    simpa only [hbound] using herror
  case binary left op right =>
    have hleft := hasked left (by simp [Shape.asked, Shape.children])
    have hright := hasked right (by simp [Shape.asked, Shape.children])
    exact isError_promote hleft hright fun hnone =>
      h.not_fails hx (.operands hshape hnone hleft hright)
  case signed op operand =>
    have hoperand := hasked operand (by simp [Shape.asked, Shape.children])
    cases hop : c.tree.shape op <;> simp only [hop, Shape.isSignOp, Bool.and_eq_true] at hfits <;>
      first | (cases hfits.1; done) | skip
    exact isError_withSign hoperand fun hnone =>
      h.not_fails hx (.signOperand hshape hop hnone hoperand)
  case group e => exact hasked e (by simp [Shape.asked, Shape.children])
  -- A call has the declared result of its callee.
  case call callee =>
    have hcallee := hasked callee (by simp [Shape.asked, Shape.children])
    by_cases hproc : f callee = .procedure
    · simp only [callTy, hproc]
      cases hresult : c.calleeResult? callee with
      | none => rfl
      | some result =>
        obtain ⟨hmem, htype⟩ := h.isType_calleeResult
          (h.tree.child hx (by simp [Tree.children, hshape, Shape.children])) hresult
        exact h.isError_of_isType hmem htype
    · exact (h.not_fails hx (.notCallable hshape hcallee hproc)).elim
  case cast e ty =>
    have he := hasked e (by simp [Shape.asked, Shape.children])
    have hty := hasked ty (by simp [Shape.asked, Shape.children])
    cases hcast : Ty.canCast (f e) (f ty) with
    | true => simp [castTy, he, hty, hcast]
    | false => exact (h.not_fails hx (.cast hshape he hty hcast)).elim
  case native source inputs output =>
    cases output with
    | none => rfl
    | some output => exact hasked output (by simp [Shape.asked, Shape.children])
  case slot target offset => exact hasked target (by simp [Shape.asked, Shape.children])
  case typeName name =>
    have herror := h.isError_of_isType hx (by simp [hshape, Shape.isType])
    simpa only [hequation, equation, hshape] using herror
  case array elem len => exact (h.ne_array hx hshape).elim
  all_goals rfl

/-! ### Stores -/

/-- The target of a store is the name of a variable, if it is bound at all. -/
theorem var_of_targetReports {target decl : NodeId} (htarget : target ∈ c.tree.preorder root)
    (hquiet : c.targetReports target = [])
    (hbound : c.resolution.declaration? (c.tree.ungroup target) = some decl) :
    c.writes target = true ∧ f target = f decl := by
  have hmem := c.tree.mem_preorder_trans htarget (c.tree.ungroup_mem_preorder target)
  obtain ⟨-, ⟨name, hname⟩, -, hdeclares, -⟩ := h.exact.bound_before hbound
  have hequation := h.solves _ hmem
  simp only [equation, hname, hbound] at hequation
  refine ⟨?_, (h.solves.ungroup htarget).symm.trans hequation⟩
  simp only [targetReports, hname, hbound] at hquiet
  simp only [writes, hname, hbound]
  cases hshape : c.tree.shape decl <;> rw [hshape] at hquiet hdeclares <;>
    first | rfl | (cases hdeclares; done) | cases hquiet

/-- A store that is not reported is to nothing that holds a procedure. -/
theorem ne_procedure_of_storeReports {target value decl : NodeId}
    (htarget : target ∈ c.tree.preorder root) (hquiet : c.storeReports f target value = [])
    (hbound : c.resolution.declaration? (c.tree.ungroup target) = some decl) :
    f decl ≠ .procedure := by
  unfold storeReports at hquiet
  obtain ⟨hquiet, hstore⟩ := List.append_eq_nil_iff.1 hquiet
  obtain ⟨hwrites, hsame⟩ := h.var_of_targetReports htarget hquiet hbound
  intro hproc
  simp [hwrites, hsame, hproc] at hstore

/-- **No assignment stores to what holds a procedure.** -/
theorem ne_procedure_of_assign {x target value decl : NodeId} (hx : x ∈ c.tree.preorder root)
    (hshape : c.tree.shape x = .assign target value)
    (hbound : c.resolution.declaration? (c.tree.ungroup target) = some decl) :
    f decl ≠ .procedure := by
  have hquiet : c.storeReports f target value = [] := by
    simpa only [reports, hshape] using h.quiet x hx
  refine h.ne_procedure_of_storeReports (h.tree.child hx ?_) hquiet hbound
  simp [Tree.children, hshape, Shape.children]

/-- A parallel assignment has as many values as targets, and its stores are checked one by one. -/
theorem storeReports_of_parallel {x target : NodeId} {targets values : List NodeId}
    (hx : x ∈ c.tree.preorder root) (hshape : c.tree.shape x = .parallel targets values)
    (htarget : target ∈ targets) :
    ∃ value, targets.length = values.length ∧ c.storeReports f target value = [] := by
  have hquiet := h.quiet x hx
  simp only [reports, hshape] at hquiet
  split at hquiet
  · next hlength =>
    obtain ⟨i, hi, rfl⟩ := List.getElem_of_mem htarget
    have hpair : (targets[i], values[i]) ∈ targets.zip values :=
      List.mem_iff_getElem.2 ⟨i, by simpa using ⟨hi, hlength ▸ hi⟩, by simp⟩
    exact ⟨values[i], hlength, List.flatMap_eq_nil_iff.1 hquiet _ hpair⟩
  · cases hquiet

/-- **Nor does any store of a parallel assignment.** -/
theorem ne_procedure_of_parallel {x target decl : NodeId} {targets values : List NodeId}
    (hx : x ∈ c.tree.preorder root) (hshape : c.tree.shape x = .parallel targets values)
    (htarget : target ∈ targets)
    (hbound : c.resolution.declaration? (c.tree.ungroup target) = some decl) :
    f decl ≠ .procedure := by
  obtain ⟨value, -, hquiet⟩ := h.storeReports_of_parallel hx hshape htarget
  refine h.ne_procedure_of_storeReports (h.tree.child hx ?_) hquiet hbound
  simp [Tree.children, hshape, Shape.children, htarget]

/-- **Nor does native code.** -/
theorem ne_procedure_of_native {x output target decl : NodeId} {source : String}
    {inputs : List NodeId} {offset : Nat} (hx : x ∈ c.tree.preorder root)
    (hshape : c.tree.shape x = .native source inputs (some output))
    (hslot : c.tree.shape output = .slot target offset)
    (hbound : c.resolution.declaration? (c.tree.ungroup target) = some decl) :
    f decl ≠ .procedure := by
  have houtput := h.tree.child hx (x := output) (by simp [Tree.children, hshape, Shape.children])
  have htarget :=
    h.tree.child houtput (x := target) (by simp [Tree.children, hslot, Shape.children])
  have hquiet := h.quiet x hx
  simp only [reports, hshape, hslot] at hquiet
  rw [← (h.var_of_targetReports htarget hquiet hbound).2]
  exact h.ne_procedure_of_slot houtput hslot

end Accepts

end Typing.Context

/-- What nothing is reported about is accepted. -/
theorem Analysis.accepts {t : Tree} {links : Links} {root : NodeId} {a : Analysis}
    (ht : t.WellFormed root) (hsize : root < links.size) (ha : ofTree t links root = .ok a)
    (hproblems : a.typing.problems = #[]) : (a.context t).Accepts root a.typing.typeOf := by
  obtain ⟨a', ha', -, hexact, -, hsolves, -⟩ := exists_ofTree ht.arranged hsize
  obtain rfl := Except.ok.inj (ha.symm.trans ha')
  refine ⟨ht, hexact, hsolves, fun x hx => List.eq_nil_iff_forall_not_mem.2 fun P hP => ?_⟩
  have hmem := (mem_problems_iff ht.arranged hsize ha).2 ⟨x, hx, hP⟩
  simp [hproblems] at hmem

end MiddleEnd
