import MiddleEnd.Proofs.Evaluation.Programs
import MiddleEnd.Proofs.Lowering.Symbols
import MiddleEnd.Proofs.Machine.Operands

/-!
# Symbols of compiled programs

A program that has been compiled can be asked for its procedures and for the values of its names.
The two tables are not alike: a procedure answers to its name wherever it stands, so that the last
one in the source hides those before it, also one at the top; a value answers to its name only if it
is declared at the top.

## Main results

* `compile_symbols` — **a name stands for the last procedure that defines a constant of it, and for
  the declaration that is visible at the end**, whose word at the end of a run it gives.
* `Tree.hidesProcedure_names` — a procedure of a block hides one of the module.
-/

namespace MiddleEnd

namespace Machine

variable {σ : Type} {m : Machine σ}

/-- A run that ends leaves all registers of the start. -/
theorem size_registers {s s' : MachineState σ} {o : RunOutput} {p : Procedure}
    (hp : m.program.procedures[0]? = some p) (h : m.run.run s = (.ok o, s')) :
    o.registers.size = p.frameSize := by
  rw [run_ending hp] at h
  rcases hending : m.ending (m.calls (m.maxCallDepth - s.openCalls)) p (.start p s)
    with ⟨_ | ⟨w, registers⟩, s₁⟩
  · rw [hending] at h
    cases h
  · rw [hending] at h
    cases h
    obtain ⟨κ, hreach, hend⟩ := reaches_end hending
    have hsize : κ.frame.size = p.frameSize := by
      rw [hreach.frame_size]
      simp [Point.start, RegisterFile.zeroed]
    cases hend with
    | falls _ | leaves _ _ => exact hsize

end Machine

/-- **What symbols stand for.**  A name stands for the last procedure of the source that defines a
constant of it.  As the name of a value it stands for the declaration of the outermost scope that is
visible at the end of it, if the type of that has a kind, and a run that ends gives the word that is
in its register then. -/
theorem compile_symbols {t : Tree} {links : Links} {root : NodeId} {source : String}
    {config : CompilerConfig} {compiled : Compiled} (ht : t.WellFormed root)
    (h : compile t links root source config = .ok compiled) :
    ∃ a, Analysis.ofTree t links root = .ok a
      ∧ ∃ ℓ, Implements (a.lowerContext t root config.registerLimit) ℓ compiled.program
        ∧ (∀ name q, t.DefinesLast root name q →
          ∃ j, ℓ.targets[q]? = some j ∧ compiled.program.textSymbols[name]? = some j)
        ∧ ∀ name d, t.declared? root (t.weight root) name root = some d →
          (a.typing.typeOf d).hasKind = true →
          ∃ p r, compiled.program.procedures[0]? = some p ∧ p.registers[d]? = some r
            ∧ compiled.program.dataSymbols[name]? = some r
            ∧ ∀ (σ : Type) (m : Machine σ), m.program = compiled.program →
              ∀ s o s', m.run.run s = (.ok o, s') →
                ∃ w, o.registers[r]? = some w ∧ o.symbol? compiled.program name = some w := by
  obtain ⟨a, g, ha, hmissing, hproblems, hg, hnone, hprogram⟩ := compile_ok h
  have hc : (a.lowerContext t root config.registerLimit).Sound :=
    ⟨ht, Analysis.sound_of_ofTree ht ha hmissing hproblems⟩
  rw [hprogram]
  -- The parts of the compilation: the lowering, and no problems.
  obtain ⟨v, s, hnode, rfl⟩ := Generated.ofTree_ok hg
  have hp : s.problems = #[] := by simpa using hnone
  have hP := Lowering.implements hc hnode hp
  refine ⟨a, ha, s.linkage, hP, fun name q hq => ?_, fun name d hd hkind => ?_⟩
  · -- The procedure has been lowered, and its name was entered last.
    obtain ⟨d, hd, hshape⟩ := hq.constant
    obtain ⟨before, after, hlisting, -⟩ := hq.last
    obtain ⟨j, hj⟩ := hP.targets q (by
      show q ∈ t.preorder root
      rw [hlisting]
      exact List.mem_append_right _ (.head _)) hq.isProcedure
    exact ⟨j, hj, (Lowering.textSymbol_eq hc hnode hq).trans hj⟩
  · -- The declaration has a type with a kind, and so a register.
    have hpassed := (Lower.node_lowered (ℓ := s.linkage) hc (.start hc) hc.tree.isItem_root hnode
      hp).passed
    obtain ⟨_, _, hchildren, hname, -⟩ := Tree.declared?_end hd
    have hmem : d ∈ t.preorder root := t.child_mem_preorder (by
      rw [hchildren]
      exact List.mem_append_right _ (.head _))
    have howned := (hpassed.knows d hmem (by
      show (t.shape d).isDeclaration = true
      simp [Shape.isDeclaration, hname])).kinded hkind
    obtain ⟨r, hr, hsymbol⟩ := Lowering.dataSymbol_eq hc hnode hd howned
    have hindex : s.frame.index = 0 := hpassed.grows.index
    have hcurrent : s.program.procedures[0]? = some s.current := by
      rw [← hindex]
      exact Lowering.getElem?_current hpassed.tracked.frame
    refine ⟨s.current, r, hcurrent, hr, hsymbol, fun σ m hm s₁ o s₂ hrun => ?_⟩
    -- The register is in the frame, so the run ends with a word in it.
    have hlt : r < o.registers.size := by
      rw [Machine.size_registers (by rw [hm]; exact hcurrent) hrun]
      exact (hpassed.tracked.toSound.current.registers d r hr).2
    refine ⟨o.registers[r], Array.getElem?_eq_getElem hlt, ?_⟩
    simp [RunOutput.symbol?, hsymbol, hlt]

/-- `x := 1; f :: proc { 1 }; { x := 2 }; x := 3` -/
def Tree.declaresTwice : Tree where
  nodes :=
    #[⟨.literal (.number "1"), .nowhere⟩, ⟨.var "x" none (some 0), .nowhere⟩,
      ⟨.literal (.number "1"), .nowhere⟩, ⟨.exprStmt 2, .nowhere⟩, ⟨.block [3], .nowhere⟩,
      ⟨.procedure none 4, .nowhere⟩, ⟨.constant "f" 5, .nowhere⟩,
      ⟨.literal (.number "2"), .nowhere⟩, ⟨.var "x" none (some 7), .nowhere⟩,
      ⟨.block [8], .nowhere⟩, ⟨.literal (.number "3"), .nowhere⟩,
      ⟨.var "x" none (some 10), .nowhere⟩, ⟨.module [1, 6, 9, 11], .nowhere⟩]
  children_lt := by decide

/-- The name of the variable stands for the last declaration at the top. -/
theorem Tree.declaresTwice_symbols :
    ∃ a compiled ℓ j p r, Analysis.ofTree .declaresTwice (.unset 13) 12 = .ok a
      ∧ compile .declaresTwice (.unset 13) 12 "" .unlimited = .ok compiled
      ∧ Implements (a.lowerContext .declaresTwice 12 Register.maximum) ℓ compiled.program
      ∧ ℓ.targets[5]? = some j ∧ compiled.program.textSymbols["f"]? = some j
      ∧ compiled.program.procedures[0]? = some p ∧ p.registers[11]? = some r
      ∧ compiled.program.dataSymbols["x"]? = some r := by
  -- The program is compiled, and what the theorem asks of the tree is computed.
  have hok : (compile .declaresTwice (.unset 13) 12 "" .unlimited).isOk = true := by decide +kernel
  have hkind : (Analysis.ofTree .declaresTwice (.unset 13) 12).toOption.any (fun a =>
      (a.typing.typeOf 11).hasKind) = true := by decide +kernel
  have hdeclared : Tree.declaresTwice.declared? 12 (Tree.declaresTwice.weight 12) "x" 12
    = some 11 := by
    decide +kernel
  have hlisting : Tree.declaresTwice.preorder 12
      = [12, 1, 0, 6] ++ 5 :: [4, 3, 2, 9, 8, 7, 11, 10] := by decide +kernel
  have hlast : ∀ y ∈ [4, 3, 2, 9, 8, 7, 11, 10], (Tree.declaresTwice.shape y).isProcedure
    = false := by
    decide
  obtain ⟨compiled, h⟩ := Runs.exists_of_isOk hok
  obtain ⟨a, ha, ℓ, hP, htext, hdata⟩ := compile_symbols (by decide +kernel) h
  simp only [ha, Except.toOption, Option.any_some] at hkind
  obtain ⟨j, hj, hf⟩ := htext "f" 5 ⟨rfl, ⟨6, by decide +kernel, rfl⟩, _, _, hlisting,
    fun y hy hprocedure => by simp [hlast y hy] at hprocedure⟩
  obtain ⟨p, r, hp, hr, hx, -⟩ := hdata "x" 11 hdeclared hkind
  exact ⟨a, compiled, ℓ, j, p, r, ha, h, hP, hj, hf, hp, hr, hx⟩

/-- `f :: proc { 1 }; { f :: proc { 2 } }` -/
def Tree.hidesProcedure : Tree where
  nodes :=
    #[⟨.literal (.number "1"), .nowhere⟩, ⟨.exprStmt 0, .nowhere⟩, ⟨.block [1], .nowhere⟩,
      ⟨.procedure none 2, .nowhere⟩, ⟨.constant "f" 3, .nowhere⟩,
      ⟨.literal (.number "2"), .nowhere⟩, ⟨.exprStmt 5, .nowhere⟩, ⟨.block [6], .nowhere⟩,
      ⟨.procedure none 7, .nowhere⟩, ⟨.constant "f" 8, .nowhere⟩, ⟨.block [9], .nowhere⟩,
      ⟨.module [4, 10], .nowhere⟩]
  children_lt := by decide

/-- The name is declared at the top, and the procedure there is the first one, but the name stands
for that of the block, which is the second one. -/
theorem Tree.hidesProcedure_names :
    Tree.hidesProcedure.WellFormed 11
      ∧ Tree.hidesProcedure.declared? 11 (Tree.hidesProcedure.weight 11) "f" 11 = some 4
      ∧ Tree.hidesProcedure.shape 4 = .constant "f" 3
      ∧ ∃ a compiled v s, Analysis.ofTree .hidesProcedure (.unset 12) 11 = .ok a
        ∧ compile .hidesProcedure (.unset 12) 11 "" .unlimited = .ok compiled
        ∧ Lower.node (a.lowerContext .hidesProcedure 11 Register.maximum) 11 Lowering.start
          = .ok (v, s)
        ∧ compiled.program = s.program ∧ s.procedureOf[3]? = some 1
        ∧ compiled.program.textSymbols["f"]? = some 2 := by
  refine ⟨by decide +kernel, by decide +kernel, rfl, ?_⟩
  have hok : (compile .hidesProcedure (.unset 12) 11 "" .unlimited).isOk = true := by decide +kernel
  have hnode : (Analysis.ofTree .hidesProcedure (.unset 12) 11).toOption.any (fun a =>
      (Lower.node (a.lowerContext .hidesProcedure 11 Register.maximum) 11
        Lowering.start).toOption.any fun p =>
          p.2.procedureOf[3]? == some 1 && p.2.program.textSymbols["f"]? == some 2) = true := by
    decide +kernel
  obtain ⟨compiled, h⟩ := Runs.exists_of_isOk hok
  obtain ⟨a, g, ha, -, -, hg, -, hprogram⟩ := compile_ok h
  obtain ⟨v, s, hs, rfl⟩ := Generated.ofTree_ok hg
  have hs : Lower.node (a.lowerContext .hidesProcedure 11 Register.maximum) 11 Lowering.start
      = .ok (v, s) := hs
  simp only [ha, hs, Except.toOption, Option.any_some, Bool.and_eq_true, beq_iff_eq] at hnode
  exact ⟨a, compiled, v, s, ha, h, hs, hprogram, hnode.1, hprogram ▸ hnode.2⟩

end MiddleEnd
