import MiddleEnd.Proofs.Typing.Bodies

/-!
# Typing the body of a procedure on its own

The body of a procedure can be typed as a section of its own, after the whole.  The types in the
body solve the same equations as in the whole, but two things are lost.  Declarations outside of the
body are typed again without any names, so that those whose type comes from a name have none.  And
the procedure is not found around its own body, so that its returns are not checked.

Nothing else is lost: where neither of the two matters, both typings give the body the same types
and report the same problems in it.

## Main definitions

* `Typing.AgreesOn` — the same types and problems in a part.
* `Typing.OwnTypes` — the names from outside have the types without names that they have with them.
* `Typing.ReturnsPass` — the returns of the procedure pass their checks in the whole.
* `Typing.nested` — a section and a part of it, each listed, resolved and typed.

## Main results

* `Typing.types_outside` — without names the types outside of the body do not depend on it.
* `Typing.types_inside` — the types in the body are those of the whole.
* `Typing.reports_inside` — so are the checks, except for the returns of the procedure.
* `Typing.part_agrees_iff` — **where typing the body on its own agrees with typing the whole.**
-/

namespace MiddleEnd

/-! ### Types -/

namespace Typing

/-- Types of all nodes of a section that solve its equations. -/
def Context.Solves (c : Context) (root : NodeId) (f : NodeId → Ty) : Prop :=
  ∀ x ∈ c.tree.preorder root, f x = c.equation f x

/-- With fewer names and fewer procedures around nodes, equations read fewer nodes. -/
theorem Context.Ranked.below {α : Type} [Preorder α] {c c' : Context} {S : NodeId → Prop}
    {rank : NodeId → α} (h : c.Ranked S rank) (htree : c'.tree = c.tree)
    (hdecl : ∀ x d, c'.resolution.declaration? x = some d → c.resolution.declaration? x = some d)
    (hhost : ∀ x q, S x → c'.links.enclosingProcedure? c'.tree x = some q →
      c.links.enclosingProcedure? c.tree x = some q) : c'.Ranked S rank := by
  obtain ⟨t, l, r⟩ := c
  obtain ⟨_, l', r'⟩ := c'
  cases htree
  refine ⟨h.lt, h.asked, fun x name d hx hshape hd => h.ident x name d hx hshape (hdecl x d hd),
    h.sign,
    fun x callee result hx hshape hresult => h.call x callee result hx hshape ?_,
    fun x value result hx hshape hresult => h.ret x value result hx hshape ?_⟩
  · obtain ⟨q, hq, hresult⟩ := Option.bind_eq_some_iff.1 hresult
    exact Option.bind_eq_some_iff.2 ⟨q, Resolution.targetWithin?_mono hdecl hq, hresult⟩
  · obtain ⟨q, hq, hresult⟩ := Option.bind_eq_some_iff.1 hresult
    exact Option.bind_eq_some_iff.2 ⟨q, hhost x q hx hq, hresult⟩

variable {t : Tree} {root p b : NodeId} {c c' c₀ : Context} {f f' f₀ : NodeId → Ty}

/-- Parentheses do not change a type. -/
theorem Context.Solves.ungroup (hf : c.Solves root f) {x : NodeId} (hx : x ∈ c.tree.preorder root) :
    f (c.tree.ungroup x) = f x := by
  refine (Tree.ungroup_induction (motive := fun y => y ∈ c.tree.preorder root ∧ f y = f x) ⟨hx, rfl⟩
    fun y e hshape he ⟨hy, hsame⟩ =>
    ⟨c.tree.mem_preorder_trans hy (c.tree.child_mem_preorder he), ?_⟩).2
  rw [hf y hy] at hsame
  simpa only [Context.equation, hshape] using hsame

/-- The type of a type depends on nothing. -/
theorem Context.equation_of_isType {x : NodeId} (htree : c'.tree = c.tree)
    (htype : (c.tree.shape x).isType = true) : c.equation f x = c'.equation f' x := by
  refine Context.equation_congr htree (fun y hy => ?_) (fun name hshape => ?_) fun callee hshape =>
    ?_
  · cases hshape : c.tree.shape x <;> rw [hshape] at hy htype <;>
      first | (cases htype; done) | cases hy
  · rw [hshape] at htype
    cases htype
  · rw [hshape] at htype
    cases htype

/-- No type is a procedure. -/
theorem Context.equation_ne_procedure {x : NodeId} (htype : (c.tree.shape x).isType = true) :
    c.equation f x ≠ .procedure := by
  unfold Context.equation
  cases hshape : c.tree.shape x <;> rw [hshape] at htype <;> first | (cases htype; done) | skip
  · next name =>
    cases hname : Ty.ofName? name with
    | none => simp [hname]
    | some τ =>
      have hmem := List.mem_of_find?_eq_some hname
      have hall : ∀ τ ∈ Ty.builtin, τ ≠ .procedure := by decide
      simpa [hname] using hall τ hmem
  · simp

/-- What a declaration of a procedure gets its type from: its definition, or its initial value. -/
theorem Context.Solves.declared (ht : c.tree.Arranged root) (hf : c.Solves root f) {d e : NodeId}
    (hd : d ∈ c.tree.preorder root) (hproc : f d = .procedure)
    (he : c.tree.definition? d = some e) :
    f e = .procedure := by
  have hequation := hf d hd
  rw [hproc] at hequation
  unfold Tree.definition? at he
  split at he
  · next name definition hshape =>
    obtain rfl := Option.some.inj he
    simpa only [Context.equation, hshape, eq_comm] using hequation
  · next name ty init hshape =>
    subst he
    cases ty with
    | none => simpa only [Context.equation, hshape, eq_comm] using hequation
    | some τ =>
      -- A variable whose type is named holds no procedure.
      have hτ : τ ∈ c.tree.preorder root := c.tree.mem_preorder_trans hd (c.tree.child_mem_preorder
        (by simp [Tree.children, hshape, Shape.children]))
      have htype := ht.places d hd
      simp only [Tree.keepsPlaces, hshape, Option.all_some] at htype
      have hfτ : f τ = .procedure := by
        simpa only [Context.equation, hshape, eq_comm] using hequation
      exact (Context.equation_ne_procedure htype (hf τ hτ ▸ hfτ)).elim
  · cases he

/-! #### Outside of the body -/

/-- What a node of the body asks for is in the body. -/
theorem mem_of_asks {x y : NodeId} (hx : x ∈ t.preorder b) (hy : Relation.ReflTransGen t.Asks x y) :
    y ∈ t.preorder b := by
  induction hy with
  | refl => exact hx
  | tail _ hyz ih =>
    exact t.mem_preorder_trans ih (t.child_mem_preorder (Shape.mem_children_of_asked hyz))

/-- What a node outside of the body asks for is outside too. -/
theorem notMem_of_asks (h : t.DirectBody root p b) {x y : NodeId} (hx : x ∈ t.preorder root)
    (hnot : x ∉ t.preorder b) (hy : Relation.ReflTransGen t.Asks x y) : y ∉ t.preorder b := by
  induction hy with
  | refl => exact hnot
  | tail hxy hyz ih =>
    exact h.asked_notMem (mem_of_asks hx hxy) ih hyz

/-- Where no name is bound, only a procedure itself can be called. -/
theorem Context.calleeResult?_unbound {callee : NodeId}
    (h : c.resolution.declaration? (c.tree.ungroup callee) = none) :
    c.calleeResult? callee
      = if (c.tree.shape (c.tree.ungroup callee)).isProcedure then
          (c.tree.shape (c.tree.ungroup callee)).result?
        else none := by
  unfold Context.calleeResult? Resolution.procedureTarget?
  have hnowhere (e : NodeId) : ¬c.resolution.Leads c.tree e callee := by
    rintro ⟨name, decl, -, hbound, -⟩
    rw [h] at hbound
    cases hbound
  rw [Resolution.targetWithin?_unbound hnowhere]
  split <;> rfl

/-- **Without names the types outside of the body are the same**, whatever is known about the
body. -/
theorem types_outside (h : t.DirectBody root p b) (htree : c.tree = t) (htree' : c'.tree = t)
    (hunbound : ∀ x, x ∉ t.preorder b → c.resolution.declaration? x = none)
    (hunbound' : ∀ x, x ∉ t.preorder b → c'.resolution.declaration? x = none)
    (hranked : c.Ranked (· ∈ t.preorder root) (t.typingRank root)) (hf : c.Solves root f)
    (hf' : c'.Solves root f') : ∀ x ∈ t.preorder root, x ∉ t.preorder b → f x = f' x := by
  subst htree
  intro x
  induction x using (InvImage.wf (c.tree.typingRank root) wellFounded_lt).induction with
  | _ x ih =>
    intro hx hnot
    rw [hf x hx, hf' x (htree' ▸ hx)]
    refine Context.equation_congr htree' (fun y hy => ?_) (fun name hshape => ?_)
      fun callee hshape _ => ?_
    · obtain ⟨hmem, hlt⟩ := hranked.asked x hx y hy
      exact ih y hlt hmem (h.asked_notMem hx hnot hy)
    · rw [hunbound x hnot, hunbound' x hnot]
      rfl
    · -- A callee that has no name is the procedure itself.
      have hasked : callee ∈ (c.tree.shape x).asked := by simp [hshape, Shape.asked, Shape.children]
      have hmem := (hranked.asked x hx callee hasked).1
      have hcallee :=
        notMem_of_asks h hmem (h.asked_notMem hx hnot hasked) (c.tree.ungroup_asks callee)
      have hresult : c.calleeResult? callee = c'.calleeResult? callee := by
        rw [Context.calleeResult?_unbound (hunbound _ hcallee),
          Context.calleeResult?_unbound (by rw [htree']; exact hunbound' _ hcallee), htree']
      rw [← hresult]
      refine Option.map_congr fun result hnode => ?_
      obtain ⟨hmemr, hlt⟩ := hranked.call x callee result hx hshape hnode
      rw [Context.calleeResult?_unbound (hunbound _ hcallee)] at hnode
      split at hnode
      · exact ih result hlt hmemr (h.result_notMem
          (c.tree.mem_preorder_trans hmem (c.tree.ungroup_mem_preorder callee)) hcallee hnode)
      · cases hnode

/-- What is a procedure without names is one by itself. -/
theorem target_of_unbound (htree : c.tree = t) (hf : c.Solves root f) {e : NodeId}
    (he : e ∈ t.preorder root) (hunbound : c.resolution.declaration? (t.ungroup e) = none)
    (hproc : f e = .procedure) (r r' : Resolution) (steps : Nat) :
    Resolution.targetWithin? t r steps e = Resolution.targetWithin? t r' steps e := by
  subst htree
  cases steps with
  | zero => rfl
  | succ steps =>
    have hmem := c.tree.mem_preorder_trans he (c.tree.ungroup_mem_preorder e)
    have hungroup : f (c.tree.ungroup e) = .procedure := (hf.ungroup he).trans hproc
    rw [hf _ hmem] at hungroup
    have hname (r : Resolution) (e' : NodeId) : ¬r.Leads c.tree e' e := by
      rintro ⟨name, decl, hshape, -⟩
      simp only [Context.equation, hshape, hunbound] at hungroup
      cases hungroup
    rw [Resolution.targetWithin?_unbound (hname r), Resolution.targetWithin?_unbound (hname r')]

/-! #### Inside the body -/

section

variable (h : t.DirectBody root p b) (hn : Nests t root p b c c')
  (hranked : c.Ranked (· ∈ t.preorder root) (t.typingRank root)) (hf : c.Solves root f)
  (htree₀ : c₀.tree = t) (hunbound₀ : ∀ x, c₀.resolution.declaration? x = none)
  (hf₀ : c₀.Solves root f₀)
  (hown : ∀ x ∈ t.preorder b, ∀ name d, t.shape x = .ident name →
    c.resolution.declaration? x = some d → d ∉ t.preorder b → f₀ d = f d)

include h hn hranked hf htree₀ hunbound₀ hf₀ hown

/-- Callees in the body lead to the same procedures. -/
theorem target_inside (steps : Nat) {e : NodeId} (he : e ∈ t.preorder b)
    (hproc : f e = .procedure) :
    Resolution.targetWithin? t c'.resolution steps e
      = Resolution.targetWithin? t c.resolution steps e := by
  have htree := hn.tree
  subst htree
  induction steps generalizing e with
  | zero => rfl
  | succ steps ih =>
    have hu := c.tree.mem_preorder_trans he (c.tree.ungroup_mem_preorder e)
    have hmem := h.mem_of_body hu
    have hungroup : f (c.tree.ungroup e) = .procedure :=
      (hf.ungroup (h.mem_of_body he)).trans hproc
    have hsame : c'.resolution.declaration? (c.tree.ungroup e)
        = c.resolution.declaration? (c.tree.ungroup e) := hn.bound _ hu
    have ht := h.arranged
    ext q
    rw [Resolution.targetWithin?_succ_iff, Resolution.targetWithin?_succ_iff]
    simp only [Resolution.leads_congr hsame]
    refine or_congr_right (exists_congr fun e' => and_congr_right fun hleads => ?_)
    -- What the name stands for leads on to the same procedure.
    obtain ⟨name, d, hshape, hdecl, hdefinition⟩ := hleads
    have hd : d ∈ c.tree.preorder root := (hranked.ident _ name d hmem hshape hdecl).1
    have hchild := c.tree.child_mem_preorder (Tree.child_of_definition? hdefinition)
    have hfd : f d = .procedure := by
      rw [hf _ hmem] at hungroup
      simpa only [Context.equation, hshape, hdecl] using hungroup
    by_cases hdb : d ∈ c.tree.preorder b
    · rw [ih (hf.declared ht hd hfd hdefinition) (c.tree.mem_preorder_trans hdb hchild)]
    · have hf₀d := (hown _ hu name d hshape hdecl hdb).trans hfd
      have hf₀e : f₀ e' = .procedure := by
        rw [← htree₀] at ht hd hdefinition
        exact hf₀.declared ht hd hf₀d hdefinition
      rw [target_of_unbound htree₀ hf₀ (c.tree.mem_preorder_trans hd hchild) (hunbound₀ _) hf₀e
        c'.resolution c.resolution]

/-- **The types in the body are those of the whole**, if the names that it takes from outside have
them on their own. -/
theorem types_inside (hexact : Resolution.Exact t root [] [] c.resolution)
    (hranked' : c'.Ranked (· ∈ t.preorder root) (t.typingRank root)) (hf' : c'.Solves root f') :
    ∀ x ∈ t.preorder b, f' x = f x := by
  have houtside :=
    types_outside h hn.tree' htree₀ hn.unbound (fun x _ => hunbound₀ x) hranked' hf' hf₀
  have htarget := @target_inside t root p b c c' c₀ f f₀ h hn hranked hf htree₀ hunbound₀ hf₀ hown
  obtain ⟨t₁, l, r⟩ := c
  obtain ⟨t₂, l', r'⟩ := c'
  obtain rfl : t₁ = t := hn.tree
  obtain rfl : t₂ = t₁ := hn.tree'
  intro x
  induction x using (InvImage.wf (t₂.typingRank root) wellFounded_lt).induction with
  | _ x ih =>
    intro hx
    have hmem := h.mem_of_body hx
    rw [hf' x hmem, hf x hmem]
    refine Context.equation_congr (by rfl) (fun y hy => ?_) (fun name hshape => ?_)
      fun callee hshape hproc => ?_
    · refine ih y (hranked'.asked x hmem y hy).2 ?_
      exact t₂.mem_preorder_trans hx (t₂.child_mem_preorder (Shape.mem_children_of_asked hy))
    · rw [hn.bound x hx]
      refine Option.map_congr fun d hd => ?_
      obtain ⟨hdmem, -, hlt⟩ := hranked.ident x name d hmem hshape hd
      by_cases hdb : d ∈ t₂.preorder b
      · exact ih d hlt hdb
      · exact (houtside d hdmem hdb).trans (hown x hx name d hshape hd hdb)
    · have hshape : t₂.shape x = .call callee := hshape
      have hcallee : callee ∈ t₂.preorder b := t₂.mem_preorder_trans hx (t₂.child_mem_preorder
        (by simp [Tree.children, hshape, Shape.children]))
      have hresult : Context.calleeResult? ⟨t₂, l', r'⟩ callee
          = Context.calleeResult? ⟨t₂, l, r⟩ callee :=
        congrArg (·.bind fun q => (t₂.shape q).result?) (htarget _ hcallee hproc)
      rw [hresult]
      refine Option.map_congr fun result hnode => ?_
      obtain ⟨hrmem, hlt⟩ := hranked.call x callee result hmem hshape hnode
      by_cases hrb : result ∈ t₂.preorder b
      · exact ih result hlt hrb
      · -- A type is the same anywhere.
        obtain ⟨q, hq, hresult⟩ := Option.bind_eq_some_iff.1 hnode
        have hqmem := (hexact.target_before h.arranged.nodup (h.mem_of_body hcallee) hq).1
        rw [hf' result hrmem, hf result hrmem]
        exact Context.equation_of_isType (by rfl) (isType_result h.arranged hqmem hresult).2

end

/-! ### Checks -/

/-- What is reported in the body is about a node of the body. -/
theorem mem_of_reports (h : t.DirectBody root p b) (htree : c.tree = t) {x : NodeId}
    {P : TypeProblem} (hx : x ∈ t.preorder root) (hP : P ∈ c.reports f x)
    (hnode : P.node ∈ t.preorder b) : x ∈ t.preorder b := by
  subst htree
  by_contra hnot
  rcases Context.of_reports hP with ⟨-, hasks⟩ | ⟨value, hshape, hP⟩
  · exact notMem_of_asks h hx hnot hasks hnode
  · rcases Context.of_returnReports hP with ⟨v, _, _, _, rfl, rfl⟩ | ⟨_, rfl, rfl⟩
    · exact h.asked_notMem hx hnot (y := v) (by simp [hshape, Shape.asked, Shape.children]) hnode
    · exact hnot hnode

/-- What is reported about a `return` is reported at a node of it. -/
theorem returnReports_node {x : NodeId} {value : Option NodeId} {P : TypeProblem}
    (hx : x ∈ t.preorder b) (hshape : t.shape x = .ret value) (hP : P ∈ c.returnReports f x value) :
    P.isReturn = true ∧ P.node ∈ t.preorder b := by
  rcases Context.of_returnReports hP with ⟨v, _, _, _, rfl, rfl⟩ | ⟨_, -, rfl⟩
  · exact ⟨rfl, t.mem_preorder_trans hx (t.child_mem_preorder
      (by simp [Tree.children, hshape, Shape.children, TypeProblem.node]))⟩
  · exact ⟨rfl, hx⟩

/-- What is reported about a `return` is reported about no other one. -/
theorem eq_of_returnReports {x x' : NodeId} {value value' : Option NodeId} {P : TypeProblem}
    (hnodup : (t.preorder root).Nodup) (hx : x ∈ t.preorder root) (hx' : x' ∈ t.preorder root)
    (hshape : t.shape x = .ret value) (hshape' : t.shape x' = .ret value')
    (hP : P ∈ c.returnReports f x value) (hP' : P ∈ c'.returnReports f' x' value') : x = x' := by
  rcases Context.of_returnReports hP with ⟨v, _, _, _, rfl, rfl⟩ | ⟨_, rfl, rfl⟩ <;>
    rcases Context.of_returnReports hP' with ⟨v', _, _, _, rfl, hv⟩ | ⟨_, -, hv⟩
  · obtain rfl := (TypeProblem.returnType.inj hv).1
    have hchild : v ∈ t.children x := by simp [Tree.children, hshape, Shape.children]
    have hchild' : v ∈ t.children x' := by simp [Tree.children, hshape', Shape.children]
    exact Tree.parent_unique hnodup hx hchild hx' hchild'
  · cases hv
  · cases hv
  · exact (TypeProblem.missingReturn.inj hv).1

section

variable (h : t.DirectBody root p b) (hn : Nests t root p b c c')
  (hsame : ∀ x ∈ t.preorder b, f' x = f x)

include h hn hsame

/-- Returns that belong to a procedure in the body are checked as in the whole; those that belong to
the procedure of the body are not checked. -/
theorem returnReports_inside {x : NodeId} {value : Option NodeId} (hx : x ∈ t.preorder b)
    (hshape : t.shape x = .ret value) :
    (c.links.enclosingProcedure? t x ≠ some p
      ∧ c'.returnReports f' x value = c.returnReports f x value)
      ∨ (c.links.enclosingProcedure? t x = some p ∧ c'.returnReports f' x value = []) := by
  obtain ⟨t₁, l, r⟩ := c
  obtain ⟨t₂, l', r'⟩ := c'
  obtain rfl : t₁ = t := hn.tree
  obtain rfl : t₂ = t₁ := hn.tree'
  have hvalue (v : NodeId) (hv : value = some v) : f' v = f v :=
    hsame v (t₂.mem_preorder_trans hx (t₂.child_mem_preorder
      (by simp [Tree.children, hshape, Shape.children, hv])))
  rcases hn.inside x hx with ⟨q, hq, hhost, hhost'⟩ | ⟨hhost, hhost'⟩
  · -- The return is of a procedure inside the body.
    refine .inl ⟨fun hp => ?_, ?_⟩
    · obtain rfl := Option.some.inj (hhost.symm.trans hp)
      exact h.procedure_notMem hq
    · have hnode : Context.resultNode? ⟨t₂, l, r⟩ x = (t₂.shape q).result? :=
        congrArg (·.bind fun q => (t₂.shape q).result?) hhost
      have hnode' : Context.resultNode? ⟨t₂, l', r'⟩ x = (t₂.shape q).result? :=
        congrArg (·.bind fun q => (t₂.shape q).result?) hhost'
      -- Both look at the declared result of that procedure, which is below the body.
      unfold Context.returnReports
      rw [hnode, hnode']
      cases hresult : (t₂.shape q).result? with
      | none => rfl
      | some result =>
        have hchild := (isType_result h.arranged (h.mem_of_body hq) hresult).1
        have hr := hsame result (t₂.mem_preorder_trans hq (t₂.child_mem_preorder hchild))
        cases value with
        | none => simp only [hr]
        | some v => simp only [hr, hvalue v rfl]
  · -- The return is of the procedure around, which the body alone does not know.
    refine .inr ⟨hhost, ?_⟩
    have hnode' : Context.resultNode? ⟨t₂, l', r'⟩ x = none :=
      congrArg (·.bind fun q => (t₂.shape q).result?) hhost'
    unfold Context.returnReports
    rw [hnode']

/-- **Where types agree, so do all checks but those of the returns that belong to the procedure of
the body.** -/
theorem reports_inside {x : NodeId} (hx : x ∈ t.preorder b)
    (hreturn : ∀ value, t.shape x = .ret value → c.links.enclosingProcedure? t x = some p →
      c.returnReports f x value = []) : c.reports f x = c'.reports f' x := by
  have hinside := @returnReports_inside t root p b c c' f f' h hn hsame
  obtain ⟨t₁, l, r⟩ := c
  obtain ⟨t₂, l', r'⟩ := c'
  obtain rfl : t₁ = t := hn.tree
  obtain rfl : t₂ = t₁ := hn.tree'
  refine Context.reports_congr (by rfl) (fun y hy => ?_) (fun y hy => ?_) fun value hshape => ?_
  · exact (hsame y (mem_of_asks hx (.single hy))).symm
  · exact (hn.bound y (mem_of_asks hx hy)).symm
  · rcases hinside hx hshape with ⟨-, hequal⟩ | ⟨hhost, hnone⟩
    · exact hequal.symm
    · rw [hreturn value hshape hhost, hnone]

end

/-! ### Both runs -/

/-- The types of the nodes below `b` and the problems reported at them are the same in both
tables. -/
structure AgreesOn (t : Tree) (b : NodeId) (part whole : Typing) : Prop where
  /-- The types are the same. -/
  types : ∀ x ∈ t.preorder b, part.typeOf x = whole.typeOf x
  /-- The same problems are reported. -/
  problems : ∀ P : TypeProblem, P.node ∈ t.preorder b → (P ∈ part.problems ↔ P ∈ whole.problems)

/-- The names that the body takes from outside have the type alone that they have in the whole. -/
def OwnTypes (c : Context) (alone whole : Typing) (b : NodeId) : Prop :=
  ∀ x ∈ c.tree.preorder b, ∀ d ∈ c.resolution.declaration? x, d ∉ c.tree.preorder b →
    alone.typeOf d = whole.typeOf d

/-- The returns of the body that belong to `p` pass their checks in the whole. -/
def ReturnsPass (c : Context) (whole : Typing) (p b : NodeId) : Prop :=
  ∀ x ∈ c.tree.preorder b, c.links.enclosingProcedure? c.tree x = some p →
    ∀ P ∈ c.reports whole.typeOf x, P.isReturn = false

instance (c : Context) (alone whole : Typing) (b : NodeId) : Decidable (OwnTypes c alone whole b) :=
  inferInstanceAs (Decidable (∀ x ∈ c.tree.preorder b, ∀ d ∈ c.resolution.declaration? x,
    d ∉ c.tree.preorder b → alone.typeOf d = whole.typeOf d))

instance (c : Context) (whole : Typing) (p b : NodeId) : Decidable (ReturnsPass c whole p b) :=
  inferInstanceAs (Decidable (∀ x ∈ c.tree.preorder b,
    c.links.enclosingProcedure? c.tree x = some p → ∀ P ∈ c.reports whole.typeOf x, P.isReturn
    = false))

section

variable {whole part : Typing}

theorem Typed.typeOf {xs : List NodeId} {S : NodeId → Prop} {ty : Typing} (hty : Typed c S f xs ty)
    {x : NodeId} (hx : x ∈ xs) : ty.typeOf x = f x := (hty.nodes x hx).typeOf

/-- A problem at a node of the body is a failed check of a node of the body. -/
theorem Typed.mem_problems_iff (h : t.DirectBody root p b) (htree : c.tree = t) {xs : List NodeId}
    {ty : Typing} (hty : Typed c (· ∈ t.preorder root) f xs ty) (hxs : ∀ x ∈ t.preorder b, x ∈ xs)
    {P : TypeProblem} (hnode : P.node ∈ t.preorder b) :
    P ∈ ty.problems ↔ ∃ x ∈ t.preorder b, P ∈ c.reports f x := by
  rw [hty.problems]
  constructor
  · rintro ⟨x, τ, hx, hP⟩
    exact ⟨x, mem_of_reports h htree (hty.done x τ hx).1 hP hnode, hP⟩
  · rintro ⟨x, hx, hP⟩
    exact ⟨x, f x, hty.nodes x (hxs x hx), hP⟩

variable {alone : Typing} (h : t.DirectBody root p b) (hn : Nests t root p b c c')
  (hexact : Resolution.Exact t root [] [] c.resolution)
  (hranked : c.Ranked (· ∈ t.preorder root) (t.typingRank root))
  (hranked' : c'.Ranked (· ∈ t.preorder root) (t.typingRank root))
  (htree₀ : c₀.tree = t) (hunbound₀ : ∀ x, c₀.resolution.declaration? x = none)
  (hf : c.Solves root whole.typeOf) (hf' : c'.Solves root f') (hf₀ : c₀.Solves root alone.typeOf)
  (hwhole : Typed c (· ∈ t.preorder root) whole.typeOf (t.preorder root) whole)
  (hpart : Typed c' (· ∈ t.preorder root) f' (t.preorder b) part)

include h hn hranked hranked' htree₀ hunbound₀ hf hf' hf₀ hpart hexact in
/-- Agreement says something about the names from outside. -/
theorem AgreesOn.ownTypes (hagree : AgreesOn t b part whole) : OwnTypes c alone whole b := by
  intro x hx d hd hdb
  rw [hn.tree] at hx hdb
  have hmem := h.mem_of_body hx
  obtain ⟨name, hshape⟩ := (hexact.idents x (by rw [hd]; simp)).2
  have hdmem := (hranked.ident x name d hmem (by rw [hn.tree]; exact hshape) hd).1
  have htypes := hagree.types x hx
  rw [hpart.typeOf hx, hf x (by rwa [hn.tree]), hf' x (by rwa [hn.tree'])] at htypes
  have houtside :=
    types_outside h hn.tree' htree₀ hn.unbound (fun x _ => hunbound₀ x) hranked' hf' hf₀ d hdmem hdb
  have hd : c.resolution.declaration? x = some d := hd
  simp only [Context.equation, hn.tree, hn.tree', hshape, hn.bound x hx, hd] at htypes
  exact houtside.symm.trans htypes

include h hn hwhole hpart in
/-- Agreement says something about the returns of the procedure. -/
theorem AgreesOn.returnsPass (hagree : AgreesOn t b part whole) : ReturnsPass c whole p b := by
  intro x hx hhost P hP
  rw [hn.tree] at hx hhost
  have hsame (y : NodeId) (hy : y ∈ t.preorder b) : f' y = whole.typeOf y := by
    rw [← hpart.typeOf hy]
    exact hagree.types y hy
  rcases Context.of_reports hP with ⟨hother, -⟩ | ⟨value, hshape, hreturn⟩
  · exact hother
  -- What the whole reports about the return, the part reports about the same one; it reports
  -- nothing.
  exfalso
  rw [hn.tree] at hshape
  obtain ⟨hisReturn, hnode⟩ := returnReports_node hx hshape hreturn
  have hproblem := (hwhole.mem_problems_iff h hn.tree (fun y hy => h.mem_of_body hy) hnode).2
    ⟨x, hx, hP⟩
  obtain ⟨x', hx', hP'⟩ := (hpart.mem_problems_iff h hn.tree' (fun y hy => hy) hnode).1
    ((hagree.problems P hnode).2 hproblem)
  rcases Context.of_reports hP' with ⟨hother, -⟩ | ⟨value', hshape', hreturn'⟩
  · rw [hisReturn] at hother
    cases hother
  rw [hn.tree'] at hshape'
  obtain rfl := eq_of_returnReports h.arranged.nodup (h.mem_of_body hx') (h.mem_of_body hx) hshape'
    hshape hreturn' hreturn
  rcases returnReports_inside h hn hsame hx' hshape' with ⟨hne, -⟩ | ⟨-, hnone⟩
  · exact hne hhost
  · rw [hnone] at hreturn'
    cases hreturn'

include h hn hranked hranked' htree₀ hunbound₀ hf hf' hf₀ hwhole hpart hexact

/-- **Where the two typings of a body agree.** -/
theorem agreesOn_iff_own :
    AgreesOn t b part whole ↔ OwnTypes c alone whole b ∧ ReturnsPass c whole p b := by
  constructor
  · exact fun hagree =>
      ⟨hagree.ownTypes h hn hexact hranked hranked' htree₀ hunbound₀ hf hf' hf₀ hpart,
      hagree.returnsPass h hn hwhole hpart⟩
  · rintro ⟨hown, hpass⟩
    have hsame := types_inside h hn hranked hf htree₀ hunbound₀ hf₀
      (fun x hx _ d _ hd hdb => hown x (hn.tree ▸ hx) d hd (hn.tree ▸ hdb)) hexact hranked' hf'
    refine ⟨fun x hx => ?_, fun P hP => ?_⟩
    · rw [hpart.typeOf hx, hsame x hx]
    · rw [hpart.mem_problems_iff h hn.tree' (fun y hy => hy) hP,
        hwhole.mem_problems_iff h hn.tree (fun y hy => h.mem_of_body hy) hP]
      refine exists_congr fun x => and_congr_right fun hx => ?_
      rw [reports_inside h hn hsame hx fun value hshape hhost =>
        Context.returnReports_eq_nil (hn.tree ▸ hshape) (hpass x (hn.tree ▸ hx) (hn.tree ▸ hhost))]

end

/-- A section and a part of it, each listed, resolved and typed. -/
structure Nested where
  /-- Links and names of the whole. -/
  context : Context
  /-- The types of the whole. -/
  whole : Typing
  /-- The types of the part. -/
  part : Typing
  /-- The whole, typed without any names. -/
  alone : Typing

/-- Analyse the section of `root`, and then the part below `b` as a section inside of it. -/
def nested (t : Tree) (links : Links) (root b : NodeId) : Except Misuse Nested := do
  let (s, links) := Section.ofTree t links root none
  let outer ← Resolution.ofSection t links s none
  let whole ← ofSection t links s outer
  let (s', links') := Section.ofTree t links b (some s)
  let inner ← Resolution.ofSection t links' s' (some outer)
  let part ← ofSection t links' s' inner
  let alone ← ofSection t links s .unbound
  return ⟨⟨t, links, outer⟩, whole, part, alone⟩

/-- **Where typing the body of a procedure as a section of its own agrees with typing the whole.**
Exactly if what the body names outside of it has the type without any names that it has with them,
and the returns of the procedure itself pass their checks in the whole. -/
theorem part_agrees_iff (t : Tree) (links : Links) (root p b : NodeId) (h : t.DirectBody root p b)
    (hsize : root < links.size) :
    ∃ n, nested t links root b = .ok n
      ∧ (AgreesOn t b n.part n.whole
        ↔ OwnTypes n.context n.alone n.whole b ∧ ReturnsPass n.context n.whole p b) := by
  obtain ⟨outer, inner, houter, hinner, hexact, hn⟩ := exists_nests h hsize
  set whole := Section.ofTree t links root none with hwholeSection
  set part := Section.ofTree t whole.2 b (some whole.1) with hpartSection
  have hnodes : whole.1.nodes.toList = t.preorder root := Section.nodes_ofTree t links root none
  have hpnodes : part.1.nodes.toList = t.preorder b := Section.nodes_ofTree t whole.2 b _
  have hranked : Context.Ranked ⟨t, whole.2, outer⟩ (· ∈ t.preorder root) (t.typingRank root) :=
    ranked_ofTree h.arranged hsize hexact
  have hranked₀ : Context.Ranked ⟨t, whole.2, .unbound⟩ (· ∈ t.preorder root) (t.typingRank root) :=
    hranked.below rfl (fun x d hd => by simp at hd) fun _ _ _ hq => hq
  have hranked' : Context.Ranked ⟨t, part.2, inner⟩ (· ∈ t.preorder root) (t.typingRank root) :=
    hranked.below rfl hn.declaration?_le fun x q hx hq => hn.enclosing_le hx hq
  have hsec (x : NodeId) : x ∈ whole.1.nodes.toList ↔ x ∈ t.preorder root := by rw [hnodes]
  obtain ⟨ty, hty, hf, hwhole, -⟩ := ofSection_solves hranked hsec
  obtain ⟨alone, halone, hf₀, -, -⟩ := ofSection_solves hranked₀ hsec
  have hsolves₀ : Context.Solves ⟨t, whole.2, .unbound⟩ root alone.typeOf := hf₀
  -- The nested names give types to all nodes of the whole; the nested typing finds some of them.
  obtain ⟨f', hf'⟩ := hranked'.exists_solution
  rw [hnodes] at hwhole
  obtain ⟨ty', hty', hpart⟩ := ofSection_typed hranked' hf' fun x hx => h.mem_of_body (hpnodes ▸ hx)
  rw [hpnodes] at hpart
  refine ⟨⟨⟨t, whole.2, outer⟩, ty, ty', alone⟩, ?_,
    agreesOn_iff_own h hn hexact hranked hranked' rfl
    (fun x => Resolution.declaration?_unbound x) hf hf' hsolves₀ hwhole
    hpart⟩
  simp only [nested, bind, Except.bind, ← hwholeSection, ← hpartSection, houter, hty, hinner, hty',
    halone]
  rfl

end Typing

/-- `a : int = 1; f :: proc int { return a }` -/
def Tree.returnsVariable : Tree where
  nodes :=
    #[⟨.typeName "int", .nowhere⟩, ⟨.literal (.number "1"), .nowhere⟩,
      ⟨.var "a" (some 0) (some 1), .nowhere⟩, ⟨.typeName "int", .nowhere⟩, ⟨.ident "a", .nowhere⟩,
      ⟨.ret (some 4), .nowhere⟩, ⟨.block [5], .nowhere⟩, ⟨.procedure (some 3) 6, .nowhere⟩,
      ⟨.constant "f" 7, .nowhere⟩, ⟨.module [2, 8], .nowhere⟩]
  children_lt := by decide

/-- The type of `a` is written out, and the procedure returns one of its own type. -/
theorem Tree.returnsVariable_agrees :
    Tree.returnsVariable.DirectBody 9 7 6 ∧ 9 < (Links.unset 10).size
      ∧ ∃ n, Typing.nested .returnsVariable (.unset 10) 9 6 = .ok n
        ∧ Typing.AgreesOn .returnsVariable 6 n.part n.whole := by
  have hdirect : Tree.returnsVariable.DirectBody 9 7 6 :=
    ⟨by decide +kernel, by decide +kernel, ⟨_, rfl⟩, by decide +kernel, by decide +kernel⟩
  have hsize : 9 < (Links.unset 10).size := by decide
  obtain ⟨n, hn, hagrees⟩ := Typing.part_agrees_iff .returnsVariable (.unset 10) 9 7 6 hdirect hsize
  have hholds : (Typing.nested .returnsVariable (.unset 10) 9 6).toOption.any (fun n =>
      Typing.OwnTypes n.context n.alone n.whole 6
        ∧ Typing.ReturnsPass n.context n.whole 7 6) = true := by
    decide +kernel
  simp only [hn, Except.toOption, Option.any_some, decide_eq_true_eq] at hholds
  exact ⟨hdirect, hsize, n, hn, hagrees.2 hholds⟩

/-- `f :: proc int { return 3.5 }` -/
def Tree.returnsFraction : Tree where
  nodes :=
    #[⟨.typeName "int", .nowhere⟩, ⟨.literal (.number "3.5"), .nowhere⟩, ⟨.ret (some 1), .nowhere⟩,
      ⟨.block [2], .nowhere⟩, ⟨.procedure (some 0) 3, .nowhere⟩, ⟨.constant "f" 4, .nowhere⟩,
      ⟨.module [5], .nowhere⟩]
  children_lt := by decide

/-- The whole reports what `f` returns; typed on its own, the body of `f` has no problem. -/
theorem Tree.returnsFraction_disagrees :
    Tree.returnsFraction.DirectBody 6 4 3
      ∧ ∃ n, Typing.nested .returnsFraction (.unset 7) 6 3 = .ok n
        ∧ n.whole.problems = #[.returnType 1 0 .anyFloat .int] ∧ n.part.problems = #[]
        ∧ ¬Typing.AgreesOn .returnsFraction 3 n.part n.whole := by
  have hruns : (Typing.nested .returnsFraction (.unset 7) 6 3).toOption.any (fun n =>
      n.whole.problems = #[.returnType 1 0 .anyFloat .int] ∧ n.part.problems = #[]) = true := by
    decide +kernel
  refine ⟨⟨by decide +kernel, by decide +kernel, ⟨_, rfl⟩, by decide +kernel, by
    decide +kernel⟩, ?_⟩
  cases hn : Typing.nested .returnsFraction (.unset 7) 6 3 with
  | error e => simp [hn, Except.toOption] at hruns
  | ok n =>
    simp only [hn, Except.toOption, Option.any_some, decide_eq_true_eq] at hruns
    obtain ⟨hwhole, hpart⟩ := hruns
    refine ⟨n, rfl, hwhole, hpart, fun hagree => ?_⟩
    have hproblem := (hagree.problems (.returnType 1 0 .anyFloat .int) (by decide +kernel)).2
      (by rw [hwhole]; exact Array.mem_singleton.2 rfl)
    rw [hpart] at hproblem
    exact Array.not_mem_empty _ hproblem

/-- `a := 1; b := a; f :: proc { x := b }` -/
def Tree.copiesOutside : Tree where
  nodes :=
    #[⟨.literal (.number "1"), .nowhere⟩, ⟨.var "a" none (some 0), .nowhere⟩,
      ⟨.ident "a", .nowhere⟩, ⟨.var "b" none (some 2), .nowhere⟩, ⟨.ident "b", .nowhere⟩,
      ⟨.var "x" none (some 4), .nowhere⟩, ⟨.block [5], .nowhere⟩, ⟨.procedure none 6, .nowhere⟩,
      ⟨.constant "f" 7, .nowhere⟩, ⟨.module [1, 3, 8], .nowhere⟩]
  children_lt := by decide

-- On its own the body knows what `b` is, but not what `a` is that gives `b` its type.
example : (Typing.nested .copiesOutside (.unset 10) 9 6).toOption.any (fun n =>
    n.whole.typeOf 5 = .anyNumber ∧ n.part.typeOf 5 = .unresolved ∧ n.part.problems = #[])
      = true := by
  decide +kernel

end MiddleEnd
