import MiddleEnd.Proofs.Lowering.Faithful
import MiddleEnd.Proofs.Lowering.Statements

/-!
# Programs that implement their trees

A tree that compiles gives a program in which the start and every procedure have the code of their
bodies.  All that is proved of generated code rests on this.

## Main definitions

* `Implements` — a program in which the start and every procedure have the code of their bodies.
* `Lowering.linkage` — what the code refers to in the program so far.
* `BodyOf` — the procedures of a program with their bodies.

## Main results

* `compile_implements` — **a compiled program implements its tree**.
* `Implements.exists_body` — every statement belongs to the start or to one procedure.
-/

namespace MiddleEnd

open Lowering

/-- A program in which the start and every procedure have the code of their bodies. -/
structure Implements (c : LowerContext) (ℓ : Linkage) (p : Program) : Prop where
  /-- The constants are those of the program. -/
  constants : ℓ.constants = p.constants
  /-- The native code is that of the program. -/
  natives : ℓ.natives = p.natives
  /-- The first procedure has the code of the root. -/
  start : ∃ q, p.procedures[0]? = some q ∧ Compiles c ℓ c.root none q
  /-- Every procedure of the tree has an index. -/
  targets : ∀ id ∈ c.tree.preorder c.root, (c.tree.shape id).isProcedure = true →
    ∃ j, ℓ.targets[id]? = some j
  /-- At the index of a procedure there is the code of its body. -/
  procedures : ∀ (id : NodeId) (j : Nat), ℓ.targets[id]? = some j →
    (c.tree.shape id).isProcedure = true → id ∈ c.tree.preorder c.root
      ∧ ∃ result body q, c.tree.shape id = .procedure result body
        ∧ p.procedures[j]? = some q ∧ Compiles c ℓ body (result.map c.typeOf) q

/-- Nothing is known where the root begins. -/
theorem Lowering.Before.start {c : LowerContext} (hc : c.Sound) :
    Before c (fun _ => False) [c.root] Lowering.start where
  tracked :=
    { toSound := Sound.start
      owned := fun d => by simp [Lowering.start, current, Program.empty, Procedure.empty]
      owners_lt := fun d j hj => by simp [Lowering.start] at hj }
  served := .cons hc.analysis.served .nil
  inTree x hx := by
    obtain rfl := List.mem_singleton.1 hx
    exact c.tree.self_mem_preorder c.root
  nodup := by simpa using hc.tree.nodup
  fresh x _ := by simp [Lowering.start]
  apart _ h := h.elim
  knows _ h := h.elim
  result x hx := by
    obtain rfl := List.mem_singleton.1 hx
    exact (Before.resultTy?_root hc).symm

/-- What code refers to in the program so far. -/
def Lowering.linkage (s : Lowering) : Linkage :=
  ⟨s.program.constants, s.program.natives, s.procedureOf⟩

/-- The program of a state in which the root has been lowered without problems implements the
tree. -/
theorem Lowering.implements {c : LowerContext} (hc : c.Sound) {v : Option Register} {s : Lowering}
    (hnode : Lower.node c c.root Lowering.start = .ok (v, s)) (hp : s.problems = #[]) :
    Implements c s.linkage s.program := by
  have hℓ : s.Linked s.linkage := ⟨List.prefix_refl _, List.prefix_refl _, fun _ _ h => h⟩
  have hitem := hc.tree.isItem_root
  have hlowered := Lower.node_lowered (ℓ := s.linkage) hc (Before.start hc) hitem hnode hp
  have hpassed := hlowered.passed
  refine ⟨rfl, rfl, ⟨s.current, ?_, ?_⟩, fun id hid hprocedure => ?_, fun id j hj hprocedure => ?_⟩
  · -- The start: lowering the root ends in the frame that it began in.
    have hindex : s.frame.index = 0 := hpassed.grows.index
    rw [← hindex]
    exact getElem?_current hpassed.tracked.frame
  · -- Without a result type nothing is converted at the end.
    obtain ⟨hcode, hlayout⟩ := s.layout.convertLast_none (c.span c.root)
    refine Lower.enclosed_compiles (v := v) rfl rfl rfl hlowered
      (.refl hpassed.tracked.toSound) hlayout.symm ?_ hℓ
    rw [hcode]
    exact .refl s
  · -- Every procedure of the tree has been passed, and so it has its code.
    obtain ⟨j, p, -, hj, -⟩ := hpassed.finished id hid hprocedure
    exact ⟨j, hj⟩
  · have hid : id ∈ c.tree.preorder c.root := by
      -- An index is only given to a procedure below the root.
      refine Classical.byContradiction fun hnot => ?_
      have hsame := hpassed.procedures id hnot
      rw [show s.procedureOf[id]? = some j from hj] at hsame
      simp [Lowering.start] at hsame
    obtain ⟨j', p, -, hj', hp, hcompiles⟩ := hpassed.finished id hid hprocedure
    obtain rfl := Option.some.inj ((show s.procedureOf[id]? = some j from hj).symm.trans hj')
    obtain ⟨result, body, hshape, hcompiles⟩ := hcompiles hℓ
    exact ⟨hid, result, body, p, hshape, hp, hcompiles⟩

/-- **A program generated without problems implements its tree.** -/
theorem Generated.implements {t : Tree} {links : Links} {root : NodeId} {r : Resolution}
    {ty : Typing} {limit : Nat} {g : Generated}
    (hc : LowerContext.Sound ⟨t, links, root, r, ty, min limit Register.maximum⟩)
    (h : Generated.ofTree t links root r ty limit = .ok g) (hproblems : g.problems = []) :
    ∃ ℓ, Implements ⟨t, links, root, r, ty, min limit Register.maximum⟩ ℓ g.program := by
  obtain ⟨v, s, hnode, rfl⟩ := Generated.ofTree_ok h
  exact ⟨s.linkage, Lowering.implements hc hnode (by simpa using hproblems)⟩

/-- What lowering reads. -/
def Analysis.lowerContext (a : Analysis) (t : Tree) (root : NodeId) (registerLimit : Nat) :
    LowerContext :=
  ⟨t, a.links, root, a.resolution, a.typing, min registerLimit Register.maximum⟩

/-- **A compiled program implements its tree.** -/
theorem compile_implements {t : Tree} {links : Links} {root : NodeId} {source : String}
    {config : CompilerConfig} {compiled : Compiled} (ht : t.WellFormed root)
    (h : compile t links root source config = .ok compiled) :
    ∃ a, Analysis.ofTree t links root = .ok a
      ∧ (a.lowerContext t root config.registerLimit).Sound
      ∧ ∃ ℓ, Implements (a.lowerContext t root config.registerLimit) ℓ compiled.program := by
  obtain ⟨a, g, ha, hmissing, hproblems, hg, hnone, hprogram⟩ := compile_ok h
  have hc : (a.lowerContext t root config.registerLimit).Sound :=
    ⟨ht, Analysis.sound_of_ofTree ht ha hmissing hproblems⟩
  rw [hprogram]
  exact ⟨a, ha, hc, Generated.implements hc hg hnone⟩

/-- A compiled program is well formed. -/
theorem compile_wellFormed {t : Tree} {links : Links} {root : NodeId} {source : String}
    {config : CompilerConfig} {compiled : Compiled}
    (h : compile t links root source config = .ok compiled) : compiled.program.WellFormed := by
  obtain ⟨a, g, -, -, -, hg, -, hprogram⟩ := compile_ok h
  rw [hprogram]
  exact Generated.ofTree_wellFormed hg

/-! ### Bodies -/

/-- The procedures of a program, the start included, with their bodies and declared results. -/
inductive BodyOf (c : LowerContext) (ℓ : Linkage) (P : Program) :
    NodeId → Option Ty → Procedure → Prop
  /-- The start, whose body is the root. -/
  | start {p : Procedure} (hp : P.procedures[0]? = some p) : BodyOf c ℓ P c.root none p
  /-- The code at the index of a procedure. -/
  | procedure {id body : NodeId} {result : Option NodeId} {j : Nat} {p : Procedure}
      (hid : id ∈ c.tree.preorder c.root) (hshape : c.tree.shape id = .procedure result body)
      (hj : ℓ.targets[id]? = some j) (hp : P.procedures[j]? = some p) :
      BodyOf c ℓ P body (result.map c.typeOf) p

variable {c : LowerContext} {ℓ : Linkage} {P : Program} {body id : NodeId} {result : Option Ty}
  {p : Procedure}

theorem Implements.compiles (h : Implements c ℓ P) (hbody : BodyOf c ℓ P body result p) :
    Compiles c ℓ body result p := by
  cases hbody with
  | start hp =>
    obtain ⟨q, hq, hcompiles⟩ := h.start
    obtain rfl := Option.some.inj (hp.symm.trans hq)
    exact hcompiles
  | @procedure id _ result j _ hid hshape hj hp =>
    obtain ⟨-, result', body', q, hshape', hq, hcompiles⟩ :=
      h.procedures id j hj (by rw [hshape]; rfl)
    obtain rfl := Option.some.inj (hp.symm.trans hq)
    rw [hshape] at hshape'
    cases hshape'
    exact hcompiles

/-- **Every statement belongs to the start or to one procedure of the program.** -/
theorem Implements.exists_body (hc : c.Sound) (h : Implements c ℓ P)
    (hid : id ∈ c.tree.preorder c.root) (hstmt : (c.tree.shape id).isStmt = true) :
    ∃ body result p, BodyOf c ℓ P body result p ∧ id ∈ c.tree.statements body := by
  rcases hc.tree.mem_statements hid hstmt with hmem | ⟨q, hq, result, body, hshape, hmem⟩
  · obtain ⟨p, hp, -⟩ := h.start
    exact ⟨c.root, none, p, .start hp, hmem⟩
  · have hprocedure : (c.tree.shape q).isProcedure = true := by rw [hshape]; rfl
    obtain ⟨j, hj⟩ := h.targets q hq hprocedure
    obtain ⟨-, result', body', p, hshape', hp, -⟩ := h.procedures q j hj hprocedure
    exact ⟨body, _, p, .procedure hq hshape hj hp, hmem⟩

end MiddleEnd
