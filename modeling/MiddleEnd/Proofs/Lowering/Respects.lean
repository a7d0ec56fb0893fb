import MiddleEnd.Proofs.Lowering.Arrives
import MiddleEnd.Proofs.Lowering.Implements
import MiddleEnd.Proofs.Lowering.Kinds

/-!
# One kind per register

Registers are shared between temporaries and declarations, and a conversion is left out where two
types are kept in one kind.  In a program that was generated without problems every register of a
procedure nevertheless has one kind, or none, and all instructions of the procedure respect it.

## Main results

* `Lowering.exists_bodyOf`, `compile_bodies` — every procedure of a program is the start or that of
  a node.
* `Generated.respects_kinds` — **there are kinds for the registers of every procedure that all of
  its instructions respect**.
-/

namespace MiddleEnd

variable {c : LowerContext} {ℓ : Linkage} {P : Program} {body : NodeId} {result : Option Ty}
  {p : Procedure}

/-! ### Procedures and bodies -/

/-- A body stands where its result is the declared one. -/
theorem BodyOf.within (hc : c.Sound) (h : BodyOf c ℓ P body result p) :
    c.Within (result.bind Kind.ofTy?) body := by
  cases h with
  | start =>
    refine ⟨c.tree.self_mem_preorder c.root, ?_⟩
    unfold LowerContext.resultKind?
    rw [Lowering.Before.resultTy?_root hc]
  | @procedure id _ _ _ _ hid hshape =>
    have hbody : body ∈ c.tree.children id := by
      rw [Tree.children_of_shape hshape]
      simp [Shape.children]
    refine ⟨hc.tree.child hid hbody, ?_⟩
    unfold LowerContext.resultKind?
    rw [Lowering.Before.resultTy?_of_procedure hc hid hshape hbody]

theorem BodyOf.isItem (hc : c.Sound) (h : BodyOf c ℓ P body result p) :
    (c.tree.shape body).isItem = true := by
  cases h with
  | start => exact hc.tree.isItem_root
  | procedure hid hshape => exact hc.tree.isItem_body hid hshape

theorem BodyOf.mem (h : BodyOf c ℓ P body result p) : p ∈ P.procedures := by
  cases h with
  | start hp | procedure _ _ _ hp => exact Array.mem_of_getElem? hp

/-- Nothing but the start and the procedures of the tree is lowered to a procedure. -/
theorem Lowering.exists_bodyOf (hc : c.Sound)
    (hexact : Resolution.Exact c.tree c.root [] [] c.resolution) {v : Option Register}
    {s : Lowering} (hnode : Lower.node c c.root Lowering.start = .ok (v, s))
    (hp : p ∈ s.program.procedures) :
    ∃ body result, BodyOf c s.linkage s.program body result p := by
  obtain ⟨j, hlt, rfl⟩ := Array.getElem_of_mem hp
  have hj := Array.getElem?_eq_getElem hlt
  rcases Nat.eq_zero_or_pos j with rfl | hpos
  · exact ⟨c.root, none, .start hj⟩
  · have hawaits : s.Awaits c 1 [] := (Lower.node_arrives hc hexact .start).of_ok hnode
    obtain ⟨q, hq, hprocedure, hindex⟩ := hawaits.indices j hpos hlt
    obtain ⟨result, body, hshape⟩ := Shape.exists_of_isProcedure hprocedure
    exact ⟨body, result.map c.typeOf, .procedure hq hshape hindex hj⟩

/-! ### Programs -/

/-- Names are resolved exactly. -/
theorem Analysis.exact_of_ofTree {t : Tree} {links : Links} {root : NodeId} {a : Analysis}
    (ht : t.WellFormed root) (hsize : root < links.size) (ha : ofTree t links root = .ok a) :
    Resolution.Exact t root [] [] a.resolution := by
  obtain ⟨r, hr, hexact⟩ := Resolution.exact_ofTree none ht.root_scope ht.nodup hsize
  obtain rfl := Except.ok.inj (hr.symm.trans (ofTree_ok ha).2.1)
  exact hexact

/-- A program that was generated without problems implements its tree, and every procedure of it is
the start or that of a node. -/
theorem Generated.bodies {t : Tree} {links : Links} {root : NodeId} {a : Analysis} {limit : Nat}
    {g : Generated} (ht : t.WellFormed root) (hsize : root < links.size)
    (ha : Analysis.ofTree t links root = .ok a) (hmissing : a.resolution.missing = [])
    (hproblems : a.typing.problems = #[])
    (hg : Generated.ofTree t a.links root a.resolution a.typing limit = .ok g)
    (hnone : g.problems = []) :
    ∃ ℓ, Implements (a.lowerContext t root limit) ℓ g.program
      ∧ ∀ p ∈ g.program.procedures, ∃ body result,
          BodyOf (a.lowerContext t root limit) ℓ g.program body result p := by
  have hc : (a.lowerContext t root limit).Sound :=
    ⟨ht, Analysis.sound_of_ofTree ht ha hmissing hproblems⟩
  obtain ⟨v, s, hnode, rfl⟩ := Generated.ofTree_ok hg
  exact ⟨s.linkage, Lowering.implements hc hnode (by simpa using hnone),
    fun _ hp => Lowering.exists_bodyOf hc (Analysis.exact_of_ofTree ht hsize ha) hnode hp⟩

/-- A compiled program implements its tree, and every procedure of it is the start or that of a
node. -/
theorem compile_bodies {t : Tree} {links : Links} {root : NodeId} {source : String}
    {config : CompilerConfig} {compiled : Compiled} (ht : t.WellFormed root)
    (hsize : root < links.size) (h : compile t links root source config = .ok compiled) :
    ∃ a, Analysis.ofTree t links root = .ok a
      ∧ (a.lowerContext t root config.registerLimit).Sound
      ∧ ∃ ℓ, Implements (a.lowerContext t root config.registerLimit) ℓ compiled.program
        ∧ ∀ p ∈ compiled.program.procedures, ∃ body result,
            BodyOf (a.lowerContext t root config.registerLimit) ℓ compiled.program body
              result p := by
  obtain ⟨a, g, ha, hmissing, hproblems, hg, hnone, hprogram⟩ := compile_ok h
  rw [hprogram]
  exact ⟨a, ha, ⟨ht, Analysis.sound_of_ofTree ht ha hmissing hproblems⟩,
    Generated.bodies ht hsize ha hmissing hproblems hg hnone⟩

/-- **Every register has one kind.**  For each procedure of a program that was generated without
problems there are kinds of its registers, such that each instruction reads and writes registers of
the kinds that belong to it, and the register of each declaration has the kind of its type. -/
theorem Generated.respects_kinds {t : Tree} {links : Links} {root : NodeId} {a : Analysis}
    {limit : Nat} {g : Generated} (ht : t.WellFormed root) (hsize : root < links.size)
    (ha : Analysis.ofTree t links root = .ok a) (hmissing : a.resolution.missing = [])
    (hproblems : a.typing.problems = #[])
    (hg : Generated.ofTree t a.links root a.resolution a.typing limit = .ok g)
    (hnone : g.problems = []) :
    ∃ ℓ, Implements (a.lowerContext t root limit) ℓ g.program
      ∧ ∀ p ∈ g.program.procedures, ∃ body result K,
          BodyOf (a.lowerContext t root limit) ℓ g.program body result p
            ∧ p.Respects (a.lowerContext t root limit) ℓ (result.bind Kind.ofTy?) K := by
  have hc : (a.lowerContext t root limit).Sound :=
    ⟨ht, Analysis.sound_of_ofTree ht ha hmissing hproblems⟩
  obtain ⟨ℓ, hP, hbodies⟩ := Generated.bodies ht hsize ha hmissing hproblems hg hnone
  refine ⟨ℓ, hP, fun p hp => ?_⟩
  obtain ⟨body, result, hbody⟩ := hbodies p hp
  obtain ⟨K, hK⟩ := (hP.compiles hbody).respects hc (hbody.within hc)
  exact ⟨body, result, K, hbody, hK⟩

/-- `f :: proc int8 { 300 }; x : float64 = f() + 1` -/
def Tree.convertsSum : Tree where
  nodes :=
    #[⟨.typeName "int8", .nowhere⟩, ⟨.literal (.number "300"), .nowhere⟩, ⟨.exprStmt 1, .nowhere⟩,
      ⟨.block [2], .nowhere⟩, ⟨.procedure (some 0) 3, .nowhere⟩, ⟨.constant "f" 4, .nowhere⟩,
      ⟨.ident "f", .nowhere⟩, ⟨.call 6, .nowhere⟩, ⟨.literal (.number "1"), .nowhere⟩,
      ⟨.binaryOp .add, .nowhere⟩, ⟨.binary 7 9 8, .nowhere⟩, ⟨.typeName "float64", .nowhere⟩,
      ⟨.var "x" (some 11) (some 10), .nowhere⟩, ⟨.module [5, 12], .nowhere⟩]
  children_lt := by decide

/-- There are two procedures, and both respect the kinds of their registers. -/
theorem Tree.convertsSum_respects :
    ∃ a g ℓ, Analysis.ofTree .convertsSum (.unset 14) 13 = .ok a
      ∧ Generated.ofTree .convertsSum a.links 13 a.resolution a.typing Register.maximum = .ok g
      ∧ g.program.procedures.size = 2
      ∧ ∀ p ∈ g.program.procedures, ∃ result K,
          p.Respects (a.lowerContext .convertsSum 13 Register.maximum) ℓ result K := by
  have hok : (Analysis.ofTree .convertsSum (.unset 14) 13).toOption.any (fun a =>
      a.resolution.missing.isEmpty && a.typing.problems.isEmpty
        && (Generated.ofTree .convertsSum a.links 13 a.resolution a.typing
          Register.maximum).toOption.any (fun g =>
            g.problems.isEmpty && g.program.procedures.size == 2)) = true := by decide +kernel
  obtain ⟨a, ha, hok⟩ := Runs.exists_of_any hok
  simp only [Bool.and_eq_true] at hok
  obtain ⟨⟨hmissing, hproblems⟩, hok⟩ := hok
  obtain ⟨g, hg, hok⟩ := Runs.exists_of_any hok
  simp only [Bool.and_eq_true, beq_iff_eq] at hok
  have ht : Tree.convertsSum.WellFormed 13 := by decide +kernel
  obtain ⟨ℓ, -, hkinds⟩ := Generated.respects_kinds ht (by decide) ha
    (List.isEmpty_iff.1 hmissing) (Array.isEmpty_iff.1 hproblems) hg (List.isEmpty_iff.1 hok.1)
  refine ⟨a, g, ℓ, ha, hg, hok.2, fun p hp => ?_⟩
  obtain ⟨body, result, K, -, hK⟩ := hkinds p hp
  exact ⟨_, K, hK⟩

end MiddleEnd
