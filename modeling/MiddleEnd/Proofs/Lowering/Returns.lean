import MiddleEnd.Proofs.Lowering.Implements
import MiddleEnd.Proofs.Machine.Activation

/-!
# Return statements

A return leaves its procedure if it has no operand, or one with a value.  Names of procedures, and
what else has no value, may be returned as well: such a return is lowered to the code of its operand
alone, and what follows it is executed.

## Main definitions

* `Stands` — where the code of a statement is in a procedure.
* `Procedure.LeavesBefore` — no activation of a procedure comes to a place of its code.

## Main results

* `compile_return` — **a return leaves if it has no operand or one with a value, and else it is
  passed**.
* `Tree.returnsProcedure_passed` — a return of a procedure is passed.
-/

namespace MiddleEnd

variable {c : LowerContext} {ℓ : Linkage} {P : Program} {body id : NodeId} {result : Option Ty}
  {p : Procedure}

/-- The code of the statement `id` of `body` is that of `p` from `start` up to `stop`.  The code of
the statements after it, and the conversion of the value written last, follow from `stop` on. -/
inductive Stands (c : LowerContext) (ℓ : Linkage) (body : NodeId) (result : Option Ty)
    (id : NodeId) (p : Procedure) : Nat → Nat → Prop
  /-- The code of the statements before, of the statement, of those after it, and of the conversion
  at the end. -/
  | between {before after : List NodeId} {first second : List (List CodeLine)}
      {code last : List CodeLine} {v : Option Register} {l₁ l₂ l₃ : Layout}
      (hstatements : c.tree.statements body = before ++ id :: after)
      (hbefore : EmitsItems (Emits c ℓ) before .initial first l₁) (h : Emits c ℓ id l₁ code v l₂)
      (hafter : EmitsItems (Emits c ℓ) after l₂ second l₃)
      (hlast : last = (l₃.convertLast result (c.span body)).code)
      (hcode : p.code.toList = (first.flatten ++ code ++ second.flatten ++ last).map Prod.fst) :
      Stands c ℓ body result id p first.flatten.length (first.flatten.length + code.length)

theorem Compiles.stands (h : Compiles c ℓ body result p) (hid : id ∈ c.tree.statements body) :
    ∃ start stop, Stands c ℓ body result id p start stop := by
  obtain ⟨hemits, rfl, hcode⟩ := h
  obtain ⟨before, after, hstatements⟩ := List.append_of_mem hid
  obtain ⟨pieces, hitems, rfl⟩ := hemits.statements
  rw [hstatements] at hitems
  obtain ⟨first, l₁, rest, hbefore, hrest, rfl⟩ := hitems.split
  cases hrest with
  | cons hx hafter =>
    refine ⟨_, _, .between hstatements hbefore hx hafter rfl ?_⟩
    rw [hcode, List.flatten_append, List.flatten_cons]
    simp only [List.append_assoc]

/-! ### Returns -/

/-- No activation of a procedure comes to `stop`. -/
def Procedure.LeavesBefore (p : Procedure) (stop : Nat) : Prop :=
  ∀ (σ : Type) (m : Machine σ) (call : Option (Procedure → Run σ Word)) (s : MachineState σ)
    (k : Machine.Point σ), m.Reaches call p (.start p s) k → k.pc < stop

/-- Every activation of a procedure that comes to `start` comes to `stop`, unless it ends in an
error. -/
def Procedure.Passes (p : Procedure) (start stop : Nat) : Prop :=
  ∀ (σ : Type) (m : Machine σ) (call : Option (Procedure → Run σ Word)) (s : MachineState σ)
    (k : Machine.Point σ), m.Reaches call p (.start p s) k → k.pc = start →
      (∃ k', m.Reaches call p k k' ∧ k'.pc = stop) ∨ ∃ h s', m.ending call p k = (.error h, s')

namespace Stands

variable {start stop : Nat}

theorem le_size (h : Stands c ℓ body result id p start stop) :
    start ≤ stop ∧ stop ≤ p.code.size := by
  cases h with
  | between _ _ _ _ _ hcode =>
    have hsize := congrArg List.length hcode
    simp only [Array.length_toList, List.length_map, List.length_append] at hsize
    omega

/-- The instructions of a statement are those of its code. -/
theorem getElem? (h : Stands c ℓ body result id p start stop) :
    ∃ l code v l', Emits c ℓ id l code v l' ∧ stop = start + code.length
      ∧ ∀ n < code.length, p.code[start + n]? = (code[n]?).map Prod.fst := by
  cases h with
  | @between _ _ first _ code _ v l₁ l₂ _ _ _ hx _ _ hcode =>
    refine ⟨l₁, code, v, l₂, hx, rfl, fun n hn => ?_⟩
    rw [← Array.getElem?_toList, hcode, List.getElem?_map]
    congr 1
    rw [List.append_assoc, List.append_assoc, List.getElem?_append_right (by omega),
      Nat.add_sub_cancel_left, List.getElem?_append_left hn]

/-- A return with a value, or without an operand, is never passed. -/
theorem leavesBefore {value : Option NodeId} (h : Stands c ℓ body result id p start stop)
    (hshape : c.tree.shape id = .ret value) (hvalue : ∀ x, value = some x → c.Valued x) :
    p.LeavesBefore stop := by
  obtain ⟨l, code, v, l', hx, rfl, hget⟩ := h.getElem?
  -- The last instruction of the statement is a return.
  have hlast : ∃ init i, code = init ++ [i] ∧ i.1.op = .ret := by
    have hrule := (Emits.rule_iff.1 hx).2
    rw [hshape] at hrule
    cases hrule with
    | inert hinert => cases hinert
    | retBare => exact ⟨[], _, rfl, rfl⟩
    | retMissing hoperand _ =>
      have hvalued := (Emits.rule_iff.1 hoperand.2).1.2 (hvalue _ rfl)
      cases hvalued
    | ret => exact ⟨_, _, rfl, rfl⟩
  obtain ⟨init, i, rfl, hop⟩ := hlast
  have hi := hget init.length (by simp)
  simp only [List.getElem?_concat_length, Option.map_some] at hi
  intro σ m call s k hk
  have hle := hk.pc_le_of_ret hi hop (Nat.zero_le _)
  simp only [List.length_append, List.length_singleton]
  omega

/-- A return whose operand has no value has no return in its code. -/
theorem straight {x : NodeId} (hc : c.Sound) (h : Stands c ℓ body result id p start stop)
    (hid : id ∈ c.tree.preorder c.root) (hshape : c.tree.shape id = .ret (some x))
    (hvalue : ¬c.Valued x) {pc : Nat} (hstart : start ≤ pc) (hstop : pc < stop) {i : Instruction}
    (hi : p.code[pc]? = some i) : i.op ≠ .ret := by
  obtain ⟨l, code, v, l', hx, rfl, hget⟩ := h.getElem?
  have hstraight : Straight code := by
    have hrule := (Emits.rule_iff.1 hx).2
    rw [hshape] at hrule
    cases hrule with
    | inert hinert => cases hinert
    | retMissing hoperand _ =>
      have hfits := hc.tree.fits id hid
      simp only [Tree.fits, hshape, Option.all_some] at hfits
      refine Emits.straight hc ⟨hc.tree.child hid ?_, Shape.standsAlone_of_part (by simp [hfits])⟩
        hoperand.2
      simp [Tree.children_of_shape hshape, Shape.children]
    | ret hoperand _ => exact (hvalue ((Emits.rule_iff.1 hoperand.2).1.1 rfl)).elim
  have hget := hget (pc - start) (by omega)
  rw [show start + (pc - start) = pc by omega, hi] at hget
  obtain ⟨line, hline, rfl⟩ := Option.map_eq_some_iff.1 hget.symm
  exact hstraight line (List.mem_of_getElem? hline)

/-- A return whose operand has no value is passed, unless its operand fails. -/
theorem passes {x : NodeId} (hc : c.Sound) (h : Stands c ℓ body result id p start stop)
    (hid : id ∈ c.tree.preorder c.root) (hshape : c.tree.shape id = .ret (some x))
    (hvalue : ¬c.Valued x) : p.Passes start stop := by
  intro σ m call s k _ hk
  obtain ⟨hle, hsize⟩ := h.le_size
  refine Machine.crosses _ _ hsize (hk ▸ hle) fun pc i hpc hlt hi => ?_
  exact h.straight hc hid hshape hvalue (hk ▸ hpc) hlt hi

end Stands

/-- The return `id` stands in a procedure of the program.  It leaves if it has no operand or one
with a value; otherwise it is passed. -/
def ReturnLeavesIfValued (c : LowerContext) (ℓ : Linkage) (P : Program) (id : NodeId)
    (value : Option NodeId) : Prop :=
  ∃ body result p, BodyOf c ℓ P body result p
    ∧ (∃ start stop, Stands c ℓ body result id p start stop)
    ∧ ∀ start stop, Stands c ℓ body result id p start stop →
        ((∀ x, value = some x → c.Valued x) → p.LeavesBefore stop)
          ∧ ∀ x, value = some x → ¬c.Valued x → p.Passes start stop

theorem Implements.return_leaves (hc : c.Sound) (h : Implements c ℓ P)
    (hid : id ∈ c.tree.preorder c.root) {value : Option NodeId}
    (hshape : c.tree.shape id = .ret value) : ReturnLeavesIfValued c ℓ P id value := by
  obtain ⟨body, result, p, hbody, hmem⟩ := h.exists_body hc hid (by rw [hshape]; rfl)
  refine ⟨body, result, p, hbody, (h.compiles hbody).stands hmem, fun start stop hstands => ?_⟩
  refine ⟨hstands.leavesBefore hshape, fun x hx => ?_⟩
  subst hx
  exact hstands.passes hc hid hshape

/-- **A return without an operand, or with one that has a value, leaves its procedure**: nothing
that was lowered from a later statement is executed.  Any other return is passed. -/
theorem compile_return {t : Tree} {links : Links} {root : NodeId} {source : String}
    {config : CompilerConfig} {compiled : Compiled} (ht : t.WellFormed root)
    (h : compile t links root source config = .ok compiled) :
    ∃ a ℓ, Analysis.ofTree t links root = .ok a
      ∧ Implements (a.lowerContext t root config.registerLimit) ℓ compiled.program
      ∧ ∀ id ∈ t.preorder root, ∀ value, t.shape id = .ret value →
          ReturnLeavesIfValued (a.lowerContext t root config.registerLimit) ℓ compiled.program id
            value := by
  obtain ⟨a, ha, hc, ℓ, himplements⟩ := compile_implements ht h
  exact ⟨a, ℓ, ha, himplements, fun id hid value hshape =>
    himplements.return_leaves hc hid hshape⟩

/-- `return 1`, followed by a declaration. -/
def Tree.returnsLiteral : Tree where
  nodes :=
    #[⟨.literal (.number "1"), .nowhere⟩, ⟨.ret (some 0), .nowhere⟩,
      ⟨.literal (.number "2"), .nowhere⟩, ⟨.var "x" none (some 2), .nowhere⟩,
      ⟨.module [1, 3], .nowhere⟩]
  children_lt := by decide

/-- The declaration after `return 1` is never executed. -/
theorem Tree.returnsLiteral_leaves :
    ∃ compiled, compile .returnsLiteral (.unset 5) 4 "" .unlimited = .ok compiled
      ∧ ∃ c ℓ body result p start stop, BodyOf c ℓ compiled.program body result p
        ∧ Stands c ℓ body result 1 p start stop ∧ p.LeavesBefore stop := by
  have hok : (compile .returnsLiteral (.unset 5) 4 "" .unlimited).isOk = true := by decide +kernel
  obtain ⟨compiled, h⟩ := Runs.exists_of_isOk hok
  obtain ⟨a, ℓ, -, -, hreturn⟩ := compile_return (by decide +kernel) h
  obtain ⟨body, result, p, hbody, ⟨start, stop, hstands⟩, hleaves⟩ :=
    hreturn 1 (by decide +kernel) (some 0) rfl
  refine ⟨compiled, h, _, ℓ, body, result, p, start, stop, hbody, hstands, ?_⟩
  refine (hleaves start stop hstands).1 fun x hx => ?_
  cases hx
  exact .literal rfl

/-- `f :: proc {}; x := 0; return f; x = 2` -/
def Tree.returnsProcedure : Tree where
  nodes :=
    #[⟨.block [], .nowhere⟩, ⟨.procedure none 0, .nowhere⟩, ⟨.constant "f" 1, .nowhere⟩,
      ⟨.literal (.number "0"), .nowhere⟩, ⟨.var "x" none (some 3), .nowhere⟩,
      ⟨.ident "f", .nowhere⟩, ⟨.ret (some 5), .nowhere⟩, ⟨.ident "x", .nowhere⟩,
      ⟨.literal (.number "2"), .nowhere⟩, ⟨.assign 7 8, .nowhere⟩, ⟨.module [2, 4, 6, 9], .nowhere⟩]
  children_lt := by decide

/-- The start of a program without returns, run to its end. -/
def Compiled.startIsStraight (compiled : Compiled) : Bool :=
  compiled.program.procedures[0]?.any fun p =>
    (p.code.toList.all fun i => i.op ≠ .ret)
      && ((Machine.runProcedure ⟨compiled.program, .unavailable Unit, 0⟩ none p).run
        (.initial ())).1.isOk

/-- **A return of a procedure does not leave**: the assignment after it is executed. -/
theorem Tree.returnsProcedure_passed :
    ∃ compiled, compile .returnsProcedure (.unset 11) 10 "" .unlimited = .ok compiled
      ∧ (∃ a ℓ, Analysis.ofTree .returnsProcedure (.unset 11) 10 = .ok a
        ∧ ∃ p start stop,
          Stands (a.lowerContext .returnsProcedure 10 Register.maximum) ℓ 10 none 6 p
            start stop ∧ compiled.program.procedures[0]? = some p ∧ ¬p.LeavesBefore stop)
      ∧ ∃ e s, compileAndRun .returnsProcedure (.unset 11) 10 "" .unlimited (.unavailable Unit)
          (.initial ()) = (.ok e, s) ∧ e.output.symbol? e.program "x" = some 2 := by
  -- The two runs are computed; the rest follows from what compiling gives.
  have hok : (compile .returnsProcedure (.unset 11) 10 "" .unlimited).toOption.any
      Compiled.startIsStraight = true := by decide +kernel
  have hrun : (compileAndRun .returnsProcedure (.unset 11) 10 "" .unlimited (.unavailable Unit)
      (.initial ())).1.toOption.bind (fun e => e.output.symbol? e.program "x") = some 2 := by
    decide +kernel
  obtain ⟨compiled, h, hok⟩ := Runs.exists_of_any hok
  refine ⟨compiled, h, ?_, ?_⟩
  · obtain ⟨a, ha, hc, ℓ, himplements⟩ := compile_implements (by decide +kernel) h
    obtain ⟨p, hp, hcompiles⟩ := himplements.start
    have hmem : 6 ∈ Tree.returnsProcedure.statements 10 := by decide +kernel
    obtain ⟨start, stop, hstands⟩ := hcompiles.stands hmem
    refine ⟨a, ℓ, ha, p, start, stop, hstands, hp, fun hleaves => ?_⟩
    simp only [Compiled.startIsStraight, hp, Option.any_some,
      Bool.and_eq_true, List.all_eq_true, decide_eq_true_eq] at hok
    -- Code without a return runs from the start to the end of the statement, or fails.
    rcases Machine.crosses ⟨compiled.program, .unavailable Unit, 0⟩ none
        (k := .start p (.initial ())) hstands.le_size.2 (Nat.zero_le _)
        (fun pc i _ _ hi => hok.1 i (Array.mem_toList_iff.2 (Array.mem_of_getElem? hi)))
      with ⟨k, hreach, hk⟩ | ⟨e, s, herror⟩
    · exact Nat.ne_of_lt (hleaves _ _ _ _ k hreach) hk
    · have hend := hok.2
      rw [Machine.runProcedure_ending, herror] at hend
      cases hend
  · exact Runs.exists_of_bind hrun

end MiddleEnd
