import MiddleEnd.Proofs.Evaluation.Supplies
import MiddleEnd.Proofs.Lowering.Callees

/-!
# Callees

What is called is known before anything runs.  A name is bound to what stands before it, so the
chain of names from a callee to a procedure ends.  If typing reports nothing, it ends at a procedure
for every callee of that type, and this procedure is what the callee gives in every evaluation: no
store is to a name that holds a procedure.  By the time that the call is lowered the procedure has
been opened.

## Main definitions

* `Resolution.StandsFor` — what a callee is in every evaluation.

## Main results

* `Typing.Context.Accepts.standsFor` — **a callee stands for the procedure that its names lead to.**
* `Analysis.callees_sound` — **bindings are well founded, and callees are sound.**
-/

namespace MiddleEnd

/-- `p` is the procedure that `callee` stands for: the search for it finds `p`, nothing is stored to
the name of the callee, and in whatever an evaluation comes to, that name holds `p` if it holds
anything, and a call calls `p` and nothing else. -/
structure Resolution.StandsFor (r : Resolution) (t : Tree) (root callee p : NodeId) : Prop where
  /-- The search for the procedure finds it. -/
  target : r.procedureTarget? t callee = some p
  /-- It is in the tree. -/
  mem : p ∈ t.preorder root
  /-- It is a procedure. -/
  isProcedure : (t.shape p).isProcedure = true
  /-- Nothing is stored to the name of the callee. -/
  notStored : ∀ x ∈ t.preorder root, ∀ target ∈ (t.stores x).map Prod.fst, ∀ d,
    r.declaration? (t.ungroup callee) = some d → r.declaration? (t.ungroup target) ≠ some d
  /-- Whatever an evaluation comes to, the name holds this procedure if it holds anything. -/
  held : ∀ κ, Configuration.Reachable t r root κ → ∀ (α : Nat) (env : Environment) (d : NodeId)
    (v : Content), κ.environments[α]? = some env → r.declaration? (t.ungroup callee) = some d →
      env.held d = some v → ∃ home, v = .procedure p home
  /-- A call of the callee calls this procedure and nothing else. -/
  called : ∀ (E : Environments) (α : Nat) (x : NodeId) (tasks : List Task)
    (rest : List (Nat × List Task)),
    Configuration.Reachable t r root ⟨E, (α, .finish x :: tasks) :: rest⟩ →
    t.shape x = .call callee →
      ∃ home, ∀ v, Configuration.Gives t r E α callee v ↔ v = .procedure p home

/-- **A callee stands for the procedure that its names lead to**, if nothing is reported. -/
theorem Typing.Context.Accepts.standsFor {c : Typing.Context} {root callee : NodeId}
    {f : NodeId → Ty} (h : c.Accepts root f) (hcallee : callee ∈ c.tree.preorder root)
    (hexpr : (c.tree.shape callee).isExpr = true) (htype : f callee = .procedure) :
    ∃ p, c.resolution.StandsFor c.tree root callee p := by
  obtain ⟨p, hp, hmem, hprocedure⟩ := h.exists_target hcallee hexpr htype
  -- The name of the callee has the type of a procedure, and what it is defined with denotes `p`.
  have hname {d : NodeId} (hbound : c.resolution.declaration? (c.tree.ungroup callee) = some d) :
      f d = .procedure ∧ ∀ e, c.tree.definition? d = some e →
        c.resolution.procedureTarget? c.tree e = some p := by
    obtain ⟨-, ⟨name, hname⟩, -⟩ := h.exact.bound_before hbound
    have htarget := h.exact.procedureTarget?_step h.tree hcallee
    have hequation :=
      h.solves _ (c.tree.mem_preorder_trans hcallee (c.tree.ungroup_mem_preorder callee))
    rw [h.solves.ungroup hcallee, htype] at hequation
    simp only [Typing.Context.equation, hname, hbound] at hequation
    refine ⟨hequation.symm, fun e hdefinition => ?_⟩
    simpa [hname, hbound, hdefinition, hp] using htarget.symm
  refine ⟨p, hp, hmem, hprocedure, fun x hx target htarget d hbound hstored => ?_, ?_, ?_⟩
  · exact h.ne_procedure_of_stores hx htarget hstored (hname hbound).1
  · intro κ hκ α env d v hα hbound hheld
    obtain ⟨hproc, htarget⟩ := hname hbound
    obtain ⟨e, hdefinition, p', home, hp', hv, -⟩ :=
      (h.steady hκ).sound.denotes α env d v hα hheld hproc
    obtain rfl := Option.some.inj ((htarget e hdefinition).symm.trans hp')
    exact ⟨home, hv⟩
  · intro E α x tasks rest hκ hshape
    obtain ⟨hsound, hpending⟩ := h.steady hκ
    obtain ⟨env, hα, hpending⟩ := hpending _ (.head _)
    obtain ⟨v, hgives, ⟨p', home, hp', rfl, -⟩, honly⟩ := hsound.call h hα hpending hshape
    obtain rfl := Option.some.inj (hp.symm.trans hp')
    exact ⟨home, fun v => ⟨honly v, fun hv => hv ▸ hgives⟩⟩

namespace Analysis

/-- **Bindings are well founded, and callees are sound.**  A declaration begins before every use of
its name, and it has ended there, unless it is a constant that is a procedure.  So every chain of
names ends, and the procedure at its end is found without a count of steps.  If typing reports
nothing, every expression of the type of a procedure is one or the name of one, and stands for the
procedure that is found.  Lowering has opened that procedure by the time it meets a call. -/
theorem callees_sound {t : Tree} {links : Links} {root : NodeId} (ht : t.WellFormed root)
    (hsize : root < links.size) :
    ∃ a, ofTree t links root = .ok a
      ∧ (∀ x d, a.resolution.declaration? x = some d →
          x ∈ t.preorder root ∧ d ∈ t.preorder root ∧ (t.shape d).isDeclaration = true
            ∧ t.position root d < t.position root x
            ∧ (t.position root d + t.weight d ≤ t.position root x ∨ t.namesProcedure d = true))
      ∧ (∀ callee ∈ t.preorder root, Acc (a.resolution.Leads t) callee
          ∧ a.resolution.procedureTarget? t callee =
              match t.shape (t.ungroup callee) with
              | .procedure _ _ => some (t.ungroup callee)
              | .ident _ => do
                let decl ← a.resolution.declaration? (t.ungroup callee)
                let e ← t.definition? decl
                a.resolution.procedureTarget? t e
              | _ => none)
      ∧ (a.typing.problems = #[] →
          (∀ callee ∈ t.preorder root, (t.shape callee).isExpr = true →
            a.typing.typeOf callee = .procedure →
              ((t.shape (t.ungroup callee)).isProcedure = true
                ∨ ∃ name, t.shape (t.ungroup callee) = .ident name)
              ∧ ∃ p, a.resolution.StandsFor t root callee p)
          ∧ ∀ limit p, Generated.ofTree t a.links root a.resolution a.typing limit
              ≠ .error (.misuse (.notLowered p))) := by
  obtain ⟨a, ha, -, hexact, -⟩ := exists_ofTree ht.arranged hsize
  refine ⟨a, ha, fun x d hbound => ?_, fun callee hcallee => ?_, fun hproblems => ?_⟩
  · -- What a name is bound to stands before it.
    obtain ⟨hx, -, hd, hdeclares, hbefore, hplace⟩ := hexact.bound_before hbound
    exact ⟨hx, hd, hdeclares, hbefore, hplace⟩
  · -- So following names goes back in the source, and it comes to an end.
    exact ⟨hexact.leads_acc ht.nodup callee, hexact.procedureTarget?_step ht hcallee⟩
  · -- Without reports the tree is accepted, and accepted trees have sound callees.
    have haccepts := accepts ht hsize ha hproblems
    refine ⟨fun callee hcallee hexpr htype => ⟨?_, haccepts.standsFor hcallee hexpr htype⟩,
      Generated.ofTree_opened haccepts⟩
    rcases haccepts.procedure_or_name hcallee hexpr htype with hliteral | ⟨name, -, hname, -⟩
    · exact .inl hliteral
    · exact .inr ⟨name, hname⟩

end Analysis

/-- `f :: proc { f() }; g := f; g()` -/
def Tree.callsByName : Tree where
  nodes :=
    #[⟨.ident "f", .nowhere⟩, ⟨.call 0, .nowhere⟩, ⟨.exprStmt 1, .nowhere⟩, ⟨.block [2], .nowhere⟩,
      ⟨.procedure none 3, .nowhere⟩, ⟨.constant "f" 4, .nowhere⟩, ⟨.ident "f", .nowhere⟩,
      ⟨.var "g" none (some 6), .nowhere⟩, ⟨.ident "g", .nowhere⟩, ⟨.call 8, .nowhere⟩,
      ⟨.exprStmt 9, .nowhere⟩, ⟨.module [5, 7, 10], .nowhere⟩]
  children_lt := by decide

/-- What the names of `callsByName` are bound to, what its callees are, and how many problems it
has. -/
def Tree.callsByName_facts :
    Except Misuse (List (Option NodeId) × List (Ty × Option NodeId) × Nat) :=
  (Analysis.ofTree .callsByName (.unset 12) 11).map fun a =>
    ([6, 8].map a.resolution.declaration?,
      [0, 8].map fun x => (a.typing.typeOf x, a.resolution.procedureTarget? .callsByName x),
      a.typing.problems.size)

/-- In `callsByName` both callees stand for the procedure that is `f`, and an evaluation comes to
the call of `g`. -/
theorem Tree.callsByName_sound :
    ∃ a, Analysis.ofTree .callsByName (.unset 12) 11 = .ok a
      ∧ a.resolution.StandsFor .callsByName 11 0 4 ∧ a.resolution.StandsFor .callsByName 11 8 4
      ∧ ∃ E, Configuration.Reachable .callsByName a.resolution 11
          ⟨E, [(0, [.finish 9, .finish 10])]⟩ := by
  obtain ⟨a, ha, -, -, hsound⟩ := @Analysis.callees_sound .callsByName (.unset 12) 11
    (by decide +kernel) (by decide)
  -- What the names are bound to, and of what type they are, is computed.
  have hfacts : callsByName_facts
      = .ok ([some 5, some 7], [(.procedure, some 4), (.procedure, some 4)], 0) := by
    decide +kernel
  simp only [callsByName_facts, ha, Except.map, Except.ok.injEq, Prod.mk.injEq, List.map_cons,
    List.map_nil, List.cons.injEq, and_true] at hfacts
  obtain ⟨⟨hf, hg⟩, ⟨⟨htype, htarget⟩, htype', htarget'⟩, hproblems⟩ := hfacts
  obtain ⟨hstands, -⟩ := hsound (Array.eq_empty_of_size_eq_zero hproblems)
  obtain ⟨-, p, hp⟩ := hstands 0 (by decide +kernel) (by decide) htype
  obtain ⟨-, p', hp'⟩ := hstands 8 (by decide +kernel) (by decide) htype'
  obtain rfl := Option.some.inj (htarget.symm.trans hp.target)
  obtain rfl := Option.some.inj (htarget'.symm.trans hp'.target)
  have hungroup : ∀ x ∈ [4, 6], callsByName.ungroup x = x := by decide +kernel
  -- The environments after each of the two definitions.
  let E₀ : Environments := #[⟨11, none, fun _ => none⟩]
  let E₁ := E₀.hold 0 5 (.procedure 4 0)
  let E₂ := E₁.hold 0 7 (.procedure 4 0)
  -- The definition of `f` gives the procedure.
  have hgives : Configuration.Gives .callsByName a.resolution E₀ 0 4 (.procedure 4 0) := by
    unfold Configuration.Gives
    rw [hungroup 4 (by simp)]
    rfl
  have hdefined : Configuration.Reachable .callsByName a.resolution 11
      ⟨E₁, [(0, [.visit 7, .visit 10])]⟩ :=
    (((Relation.ReflTransGen.refl.tail .visit).tail .visit).tail
      (.finish (.store rfl .nil .nil))).tail
      (.finish (.define rfl hgives))
  have hfound : E₁.Finds 5 0 0 (.procedure 4 0) := .here rfl rfl
  -- The definition of `g` gives what `f` holds.
  have hgives' : Configuration.Gives .callsByName a.resolution E₁ 0 6 (.procedure 4 0) := by
    unfold Configuration.Gives
    rw [hungroup 6 (by simp)]
    exact ⟨5, 0, hf, hfound⟩
  have hheld : Configuration.Reachable .callsByName a.resolution 11 ⟨E₂, [(0, [.visit 10])]⟩ :=
    (((hdefined.tail .visit).tail .visit).tail (.finish (.read rfl hf hfound))).tail
      (.finish (.define rfl hgives'))
  have hfound' : E₂.Finds 7 0 0 (.procedure 4 0) := .here rfl rfl
  exact ⟨a, ha, hp, hp', E₂, (((hheld.tail .visit).tail .visit).tail .visit).tail
    (.finish (.read rfl hg hfound'))⟩

end MiddleEnd
