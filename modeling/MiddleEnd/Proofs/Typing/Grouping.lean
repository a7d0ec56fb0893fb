import Mathlib.Data.List.Forall2
import MiddleEnd.Proofs.Resolution.Grouping
import MiddleEnd.Proofs.Typing.Cascades

/-!
# Types in trees with more parentheses

A group has the type of what is in it, and nothing else asks whether an expression is in
parentheses.  The types of a tree therefore solve the equations of the tree with more parentheses,
and where no check fails in the one, none fails in the other.

## Main definitions

* `Typing.Context.Regroups` — names and links agree in two trees of which one has more parentheses.

## Main results

* `Typing.Context.Regroups.equation_eq` — **the types of one tree solve the equations of the
  other.**
* `Typing.Context.Regroups.exists_fails` — **a check that fails with more parentheses fails without
  them.**
* `Typing.Context.Regroups.reports_eq_nil` — **what is well typed is so with more parentheses.**
* `Analysis.no_problems` — **without problems in a tree there are none with more parentheses.**
-/

namespace MiddleEnd

/-- The declared result of a procedure with other numbers for its nodes. -/
theorem Shape.result?_rename (f : NodeId → NodeId) (s : Shape) :
    (s.rename f).result? = s.result?.map f := by cases s <;> rfl

namespace Typing.Context

/-- The tree of `c'` is that of `c` with more parentheses, and its nodes are bound, call, and are
hosted like those that they stand for. -/
structure Regroups (c c' : Context) (root root' : NodeId) (origin : NodeId → NodeId) : Prop where
  /-- The tree has more parentheses. -/
  tree : c.tree.Regroups c'.tree root root' origin
  /-- It is well formed. -/
  wellFormed : c'.tree.WellFormed root'
  /-- Names are bound to what stands for the same declaration. -/
  bound : ∀ x ∈ c'.tree.preorder root', c'.tree.adds origin x = false →
    c.resolution.declaration? (origin x) = (c'.resolution.declaration? x).map origin
  /-- They are bound to declarations of the tree. -/
  declares : ∀ x d, c'.resolution.declaration? x = some d →
    d ∈ c'.tree.preorder root' ∧ (c'.tree.shape d).isDeclaration = true
  /-- Callees stand for procedures that stand for the same one. -/
  target : ∀ x ∈ c'.tree.preorder root', c.resolution.procedureTarget? c.tree (origin x)
    = (c'.resolution.procedureTarget? c'.tree x).map origin
  /-- Those are procedures of the tree. -/
  target_mem : ∀ x ∈ c'.tree.preorder root', ∀ p,
    c'.resolution.procedureTarget? c'.tree x = some p →
    p ∈ c'.tree.preorder root' ∧ (c'.tree.shape p).isProcedure = true
  /-- The procedures around a node stand for each other. -/
  host : ∀ x ∈ c'.tree.preorder root', c.links.enclosingProcedure? c.tree (origin x)
    = (c'.links.enclosingProcedure? c'.tree x).map origin
  /-- Those are procedures of the tree. -/
  host_mem : ∀ x ∈ c'.tree.preorder root', ∀ p, c'.links.enclosingProcedure? c'.tree x = some p →
    p ∈ c'.tree.preorder root' ∧ (c'.tree.shape p).isProcedure = true

namespace Regroups

variable {c c' : Context} {root root' : NodeId} {origin : NodeId → NodeId} {f : NodeId → Ty}
  (h : c.Regroups c' root root' origin)

include h

/-- Procedures that stand for each other have results that do. -/
theorem result_eq {o o' : Option NodeId} (ho : o = o'.map origin)
    (hmem : ∀ p, o' = some p → p ∈ c'.tree.preorder root' ∧ (c'.tree.shape p).isProcedure = true) :
    (o.bind fun p => (c.tree.shape p).result?)
      = (o'.bind fun p => (c'.tree.shape p).result?).map origin := by
  cases o' with
  | none =>
    rw [ho]
    rfl
  | some p =>
    obtain ⟨hp, hproc⟩ := hmem p rfl
    rw [ho, Option.map_some, Option.bind_some, Option.bind_some,
      h.tree.kept p hp (Tree.adds_of_procedure hproc), Shape.result?_rename]

theorem calleeResult?_eq {x : NodeId} (hx : x ∈ c'.tree.preorder root') :
    c.calleeResult? (origin x) = (c'.calleeResult? x).map origin :=
  h.result_eq (h.target x hx) (h.target_mem x hx)

theorem resultNode?_eq {x : NodeId} (hx : x ∈ c'.tree.preorder root') :
    c.resultNode? (origin x) = (c'.resultNode? x).map origin :=
  h.result_eq (h.host x hx) (h.host_mem x hx)

/-- The operator of a sign is the same. -/
theorem signOp_eq {x op operand : NodeId} (hx : x ∈ c'.tree.preorder root')
    (hshape : c'.tree.shape x = .signed op operand) :
    ∃ sign, c'.tree.shape op = .signOp sign ∧ c.tree.shape (origin op) = .signOp sign := by
  have hmem := h.wellFormed.child hx (x := op) (by simp [Tree.children, hshape, Shape.children])
  have hfits := h.wellFormed.fits x hx
  simp only [Tree.fits, hshape, Bool.and_eq_true] at hfits
  cases hop : c'.tree.shape op <;> rw [hop] at hfits <;> first | (cases hfits.1; done) | skip
  next sign =>
  have hkept := h.tree.kept op hmem (Tree.adds_of_shape (by simp [hop]))
  rw [hop] at hkept
  exact ⟨sign, rfl, hkept⟩

/-- A node that has not been added has the same equation. -/
theorem equation_kept {x : NodeId} (hx : x ∈ c'.tree.preorder root')
    (hkept : c'.tree.adds origin x = false) :
    c'.equation (f ∘ origin) x = c.equation f (origin x) := by
  have hchild : ∀ y ∈ (c'.tree.shape x).children, y ∈ c'.tree.preorder root' := fun y hy =>
    h.wellFormed.child hx hy
  unfold equation
  rw [h.tree.kept x hx hkept]
  cases hshape : c'.tree.shape x <;> rw [hshape] at hchild
  case var name ty init => cases ty <;> cases init <;> rfl
  case ident name =>
    simp only [Shape.rename, h.bound x hx hkept]
    cases c'.resolution.declaration? x <;> rfl
  case signed op operand =>
    obtain ⟨sign, hop', hop⟩ := h.signOp_eq hx hshape
    simp only [Shape.rename, hop, hop', Function.comp_apply]
  case call callee =>
    simp only [Shape.rename, callTy, h.calleeResult?_eq (hchild callee (by simp [Shape.children])),
      Function.comp_apply]
    cases c'.calleeResult? callee <;> rfl
  case native source inputs output => cases output <;> rfl
  all_goals rfl

/-- **The types of one tree solve the equations of the other.** -/
theorem equation_eq (hf : ∀ x ∈ c.tree.preorder root, f x = c.equation f x) {x : NodeId}
    (hx : x ∈ c'.tree.preorder root') : (f ∘ origin) x = c'.equation (f ∘ origin) x := by
  cases hadds : c'.tree.adds origin x with
  | true =>
    obtain ⟨e, hshape, he⟩ := Tree.adds_iff.1 hadds
    simp only [equation, hshape, Function.comp_apply, he]
  | false => rw [h.equation_kept hx hadds, Function.comp_apply, ← hf _ (h.tree.origin_mem hx)]

/-! ### Checks -/

/-- What is in the parentheses around a target is the same, and so is what it is bound to. -/
theorem ungroup_kept {target : NodeId} (ht : target ∈ c'.tree.preorder root') :
    c.tree.shape (c.tree.ungroup (origin target))
        = (c'.tree.shape (c'.tree.ungroup target)).rename origin
      ∧ c.resolution.declaration? (c.tree.ungroup (origin target))
        = (c'.resolution.declaration? (c'.tree.ungroup target)).map origin := by
  have hmem := c'.tree.mem_preorder_trans ht (c'.tree.ungroup_mem_preorder target)
  have hkept : c'.tree.adds origin (c'.tree.ungroup target) = false :=
    Tree.adds_of_shape (c'.tree.shape_ungroup_ne target)
  rw [h.tree.origin_ungroup ht]
  exact ⟨h.tree.kept _ hmem hkept, h.bound _ hmem hkept⟩

theorem shape_declaration {x d : NodeId} (hd : c'.resolution.declaration? x = some d) :
    c.tree.shape (origin d) = (c'.tree.shape d).rename origin := by
  obtain ⟨hmem, hdeclares⟩ := h.declares x d hd
  exact h.tree.kept d hmem (Tree.adds_of_declaration hdeclares)

/-- A target is a variable in both trees or in none. -/
theorem writes_eq {target : NodeId} (ht : target ∈ c'.tree.preorder root') :
    c'.writes target = c.writes (origin target) := by
  obtain ⟨hshape, hbound⟩ := h.ungroup_kept ht
  unfold writes
  rw [hshape, hbound]
  cases hident : c'.tree.shape (c'.tree.ungroup target)
  case ident name =>
    cases hd : c'.resolution.declaration? (c'.tree.ungroup target) with
    | none => rfl
    | some d =>
      simp only [Shape.rename, Option.map_some, h.shape_declaration hd]
      cases c'.tree.shape d <;> rfl
  all_goals rfl

theorem exists_targetFails {target : NodeId} {P : TypeProblem}
    (ht : target ∈ c'.tree.preorder root')
    (hP : c'.TargetFails target P) : ∃ Q, c.TargetFails (origin target) Q := by
  obtain ⟨hshape, hbound⟩ := h.ungroup_kept ht
  cases hP with
  | notVariable hno =>
    refine ⟨_, .notVariable fun name => ?_⟩
    rw [hshape]
    cases hident : c'.tree.shape (c'.tree.ungroup target)
    case ident name => exact (hno name hident).elim
    all_goals nofun
  | constantStore hident hd hdecl =>
    exact ⟨_, .constantStore (by rw [hshape, hident]; rfl) (by rw [hbound, hd]; rfl)
      (by rw [h.shape_declaration hd, hdecl]; rfl)⟩

theorem exists_storeFails {target value : NodeId} {P : TypeProblem}
    (ht : target ∈ c'.tree.preorder root') (hP : c'.StoreFails (f ∘ origin) target value P) :
    ∃ Q, c.StoreFails f (origin target) (origin value) Q := by
  have hwrites := h.writes_eq ht
  cases hP with
  | target hP =>
    obtain ⟨Q, hQ⟩ := h.exists_targetFails ht hP
    exact ⟨Q, .target hQ⟩
  | procedure hw hdest => exact ⟨_, .procedure (hwrites ▸ hw) hdest⟩
  | mismatch hw hdest hassign => exact ⟨_, .mismatch (hwrites ▸ hw) hdest hassign⟩

theorem exists_returnFails {x : NodeId} {value : Option NodeId} {P : TypeProblem}
    (hx : x ∈ c'.tree.preorder root') (hP : c'.ReturnFails (f ∘ origin) x value P) :
    ∃ Q, c.ReturnFails f (origin x) (value.map origin) Q := by
  have hresult := h.resultNode?_eq hx
  cases hP with
  | returnType hr hassign => exact ⟨_, .returnType (by rw [hresult, hr]; rfl) hassign⟩
  | missingReturn hr hempty hsound =>
    exact ⟨_, .missingReturn (by rw [hresult, hr]; rfl) hempty hsound⟩

/-- **A check that fails with more parentheses fails without them.** -/
theorem exists_fails {x : NodeId} {P : TypeProblem} (hx : x ∈ c'.tree.preorder root')
    (hP : c'.Fails (f ∘ origin) x P) : ∃ Q, c.Fails f (origin x) Q := by
  -- A node that can fail is no pair of parentheses, so it has been kept.
  have hshape : c.tree.shape (origin x) = (c'.tree.shape x).rename origin :=
    h.tree.kept x hx (Tree.adds_of_shape fun e he => by cases hP <;> simp_all)
  have hchild {y : NodeId} (hy : y ∈ c'.tree.children x) : y ∈ c'.tree.preorder root' :=
    h.wellFormed.child hx hy
  cases hP with
  | initializer hs hassign => exact ⟨_, .initializer (by rw [hshape, hs]; rfl) hassign⟩
  | untyped hs => exact ⟨_, .untyped (by rw [hshape, hs]; rfl)⟩
  | assign hs hstore =>
    obtain ⟨Q, hQ⟩ :=
      h.exists_storeFails (hchild (by simp [Tree.children, hs, Shape.children])) hstore
    exact ⟨Q, .assign (by rw [hshape, hs]; rfl) hQ⟩
  | parallel hs hlength hpair hstore =>
    have htarget := (List.of_mem_zip hpair).1
    obtain ⟨Q, hQ⟩ :=
      h.exists_storeFails (hchild (by simp [Tree.children, hs, Shape.children, htarget])) hstore
    refine ⟨Q, .parallel (by rw [hshape, hs]; rfl) (by simpa using hlength) ?_ hQ⟩
    rw [List.zip_map]
    exact List.mem_map_of_mem hpair
  | unbalanced hs hlength =>
    exact ⟨_, .unbalanced (by rw [hshape, hs]; rfl) (by simpa using hlength)⟩
  | ret hs hreturn =>
    obtain ⟨Q, hQ⟩ := h.exists_returnFails hx hreturn
    exact ⟨Q, .ret (by rw [hshape, hs]; rfl) hQ⟩
  | badNumber hs hspelled => exact ⟨_, .badNumber (by rw [hshape, hs]; rfl) hspelled⟩
  | operands hs hpromote hleft hright =>
    exact ⟨_, .operands (by rw [hshape, hs]; rfl) hpromote hleft hright⟩
  | signOperand hs hop hsign hoperand =>
    obtain ⟨sign, hop', hkept⟩ := h.signOp_eq hx hs
    obtain rfl : sign = _ := by simpa [hop'] using hop
    exact ⟨_, .signOperand (by rw [hshape, hs]; rfl) hkept hsign hoperand⟩
  | notCallable hs hcallee hproc => exact ⟨_, .notCallable (by rw [hshape, hs]; rfl) hcallee hproc⟩
  | cast hs hexpr hty hcast => exact ⟨_, .cast (by rw [hshape, hs]; rfl) hexpr hty hcast⟩
  | @output _ _ o target offset _ hs hslot htarget =>
    have hout := hchild (y := o) (by simp [Tree.children, hs, Shape.children])
    have hslot' : c.tree.shape (origin o) = .slot (origin target) offset := by
      rw [h.tree.kept o hout (Tree.adds_of_shape (by simp [hslot])), hslot]
      rfl
    obtain ⟨Q, hQ⟩ := h.exists_targetFails
      (h.wellFormed.child hout (by simp [Tree.children, hslot, Shape.children])) htarget
    exact ⟨Q, .output (by rw [hshape, hs]; rfl) hslot' hQ⟩
  | nativeType hs htarget hnumeric hchar =>
    exact ⟨_, .nativeType (by rw [hshape, hs]; rfl) htarget hnumeric hchar⟩
  | unknownType hs hname => exact ⟨_, .unknownType (by rw [hshape, hs]; rfl) hname⟩
  | arrayType hs => exact ⟨_, .arrayType (by rw [hshape, hs]; rfl)⟩

/-- **What is well typed is so with more parentheses.** -/
theorem reports_eq_nil {x : NodeId} (hx : x ∈ c'.tree.preorder root')
    (hnil : c.reports f (origin x) = []) : c'.reports (f ∘ origin) x = [] := by
  refine List.eq_nil_iff_forall_not_mem.2 fun P hP => ?_
  obtain ⟨Q, hQ⟩ := h.exists_fails hx (mem_reports_iff.1 hP)
  have hmem := mem_reports_iff.2 hQ
  rw [hnil] at hmem
  cases hmem

end Regroups

end Typing.Context

/-- The checks of a node do not tell types apart that are the same on the section. -/
theorem Typing.Context.Ranked.reports_congr {α : Type} [Preorder α] {c : Typing.Context}
    {S : NodeId → Prop} {rank : NodeId → α} {f g : NodeId → Ty} (h : c.Ranked S rank)
    (hfg : ∀ y, S y → f y = g y) {x : NodeId} (hx : S x) : c.reports f x = c.reports g x := by
  refine Context.reports_congr rfl (fun y hy => hfg y (h.asked x hx y hy).1) (fun _ _ => rfl)
    fun value hshape => ?_
  unfold Context.returnReports
  cases hresult : c.resultNode? x with
  | none => rfl
  | some result =>
    have hsame := hfg result (h.ret x value result hx hshape hresult).1
    cases value with
    | none => simp only [hsame]
    | some value =>
      have hvalue :=
        hfg value (h.asked x hx value (by simp [hshape, Shape.asked, Shape.children])).1
      simp only [hsame, hvalue]

/-! ### Sections -/

namespace Analysis

/-- Names are resolved by lexical scoping, and all of them are found if none is without a
binding. -/
theorem binding_of_ofTree {t : Tree} {links : Links} {root : NodeId} {a : Analysis}
    (ht : t.WellFormed root) (hsize : root < links.size) (ha : ofTree t links root = .ok a) :
    (∀ x, a.resolution.declaration? x = t.binding? root x)
      ∧ (a.resolution.missing = [] ↔ t.unbound root = []) := by
  obtain ⟨r, hr, hbinding, hreports⟩ := Resolution.ofSection_lexical t links root none ht.root_scope
    ht.nodup ht.declares_in_scopes hsize
  obtain rfl := Except.ok.inj ((ofTree_ok ha).2.1.symm.trans hr)
  refine ⟨hbinding, ?_⟩
  have hlength := hreports.length_eq
  simp only [Resolution.diagnostics, List.length_map] at hlength
  rw [← List.length_eq_zero_iff, ← hlength, List.length_eq_zero_iff]

variable {t t' : Tree} {links links' : Links} {root root' : NodeId} {origin : NodeId → NodeId}
  {a a' : Analysis} (h : t.Regroups t' root root' origin) (ht : t.WellFormed root)
  (ht' : t'.WellFormed root') (hsize : root < links.size) (hsize' : root' < links'.size)
  (ha : ofTree t links root = .ok a) (ha' : ofTree t' links' root' = .ok a')

include h ht ht' hsize hsize' ha ha'

/-- Names and links agree in a tree with more parentheses. -/
theorem context_regroups : (a.context t).Regroups (a'.context t') root root' origin := by
  obtain ⟨_, ha₁, hrooted, hexact, -⟩ := exists_ofTree ht.arranged hsize
  obtain rfl := Except.ok.inj (ha.symm.trans ha₁)
  obtain ⟨_, ha₁', hrooted', hexact', -⟩ := exists_ofTree ht'.arranged hsize'
  obtain rfl := Except.ok.inj (ha'.symm.trans ha₁')
  have hbound : ∀ x ∈ t'.preorder root', t'.adds origin x = false →
      a.resolution.declaration? (origin x) = (a'.resolution.declaration? x).map origin := by
    intro x hx hkept
    rw [(binding_of_ofTree ht hsize ha).1, (binding_of_ofTree ht' hsize' ha').1,
      h.binding?_eq ht ht' hx hkept]
  exact
    { tree := h
      wellFormed := ht'
      bound := hbound
      declares := fun x d hd => by
        have hd : a'.resolution.declaration? x = some d := hd
        obtain ⟨hx, name, hname⟩ := hexact'.idents x (by simp [hd])
        obtain ⟨hmem, hdeclares, -⟩ := hexact'.declared_before hx hname hd
        exact ⟨hmem, hdeclares⟩
      target := fun x hx => h.procedureTarget?_eq ht ht' hexact hexact' hbound hx
      target_mem := fun x hx p hp => by
        obtain ⟨hmem, hproc, -⟩ := hexact'.target_before ht'.nodup hx hp
        exact ⟨hmem, hproc⟩
      host := fun x hx => h.ancestor?_eq hrooted hrooted' Shape.isProcedure (fun _ => rfl)
        (fun s => s.isProcedure_rename origin) hx
      host_mem := fun x hx p hp => hrooted'.mem_of_ancestor? hx hp }

/-- **A node has the type of the one that it stands for.** -/
theorem typeOf_eq : ∀ x ∈ t'.preorder root', a'.typing.typeOf x = a.typing.typeOf (origin x) := by
  have hcontext := context_regroups h ht ht' hsize hsize' ha ha'
  obtain ⟨_, ha₁, -, -, -, hsolves, -⟩ := exists_ofTree ht.arranged hsize
  obtain rfl := Except.ok.inj (ha.symm.trans ha₁)
  obtain ⟨_, ha₁', -, -, hranked', hsolves', -⟩ := exists_ofTree ht'.arranged hsize'
  obtain rfl := Except.ok.inj (ha'.symm.trans ha₁')
  exact hranked'.unique hsolves' fun x hx => hcontext.equation_eq hsolves hx

/-- **Without problems in a tree there are none with more parentheses.** -/
theorem no_problems (hmissing : a.resolution.missing = []) (hproblems : a.typing.problems = #[]) :
    a'.resolution.missing = [] ∧ a'.typing.problems = #[] := by
  have hcontext := context_regroups h ht ht' hsize hsize' ha ha'
  have htypes : ∀ x ∈ t'.preorder root', a'.typing.typeOf x = (a.typing.typeOf ∘ origin) x :=
    typeOf_eq h ht ht' hsize hsize' ha ha'
  obtain ⟨_, ha₁', -, -, hranked', -⟩ := exists_ofTree ht'.arranged hsize'
  obtain rfl := Except.ok.inj (ha'.symm.trans ha₁')
  refine ⟨?_, ?_⟩
  · rw [(binding_of_ofTree ht' hsize' ha').2]
    exact h.unbound_eq_nil ht ht' ((binding_of_ofTree ht hsize ha).2.1 hmissing)
  · rw [Array.eq_empty_iff_forall_not_mem]
    intro P hP
    obtain ⟨x, hx, hP⟩ := (mem_problems_iff ht'.arranged hsize' ha').1 hP
    have hnil : (a.context t).reports a.typing.typeOf (origin x) = [] := by
      rw [List.eq_nil_iff_forall_not_mem]
      intro Q hQ
      have hQ := (mem_problems_iff ht.arranged hsize ha).2 ⟨_, h.origin_mem hx, hQ⟩
      rw [hproblems] at hQ
      exact Array.not_mem_empty _ hQ
    rw [hranked'.reports_congr htypes hx, hcontext.reports_eq_nil hx hnil] at hP
    cases hP

/-- A literal has the value of the one that it stands for. -/
theorem literal?_eq (hmissing : a.resolution.missing = []) (hproblems : a.typing.problems = #[])
    {x : NodeId} {lit : Literal} (hx : x ∈ t'.preorder root') (hshape : t'.shape x = .literal lit)
    (htext : ∀ s, lit ≠ .text s) : a'.typing.literal? x = a.typing.literal? (origin x) := by
  obtain ⟨hmissing', hproblems'⟩ := no_problems h ht ht' hsize hsize' ha ha' hmissing hproblems
  have hsound := sound_of_ofTree ht ha hmissing hproblems
  have hsound' := sound_of_ofTree ht' ha' hmissing' hproblems'
  have hshape₀ := h.kept x hx (Tree.adds_of_shape (by simp [hshape]))
  rw [hshape] at hshape₀
  have hwell := hsound.wellTyped (origin x) (h.origin_mem hx)
  have hwell' := hsound'.wellTyped x hx
  rw [hshape₀] at hwell
  rw [hshape] at hwell'
  obtain ⟨v, hv⟩ := value?_of_hasType hwell' htext
  exact (literal_of_hasType hwell' hv).trans (literal_of_hasType hwell hv).symm

end Analysis

end MiddleEnd
