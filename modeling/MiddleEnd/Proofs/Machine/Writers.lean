import MiddleEnd.Proofs.Lowering.Origins
import MiddleEnd.Proofs.Lowering.Respects
import MiddleEnd.Proofs.Machine.Operands

/-!
# Who writes a register

A declaration keeps the register in which its initial value was computed, unless that register
already belongs to another one.  So the lines that write the register of a declaration are the one
that computes the initial value, and from then on those that store to the variable.  Nothing stores
to a constant.

## Main definitions

* `Procedure.InitializedAt` — the line that computes the initial value of a declaration.
* `Procedure.WrittenAt` — the lines that may write the register of a declaration.
* `Procedure.Owned` — a procedure in which no two declarations share a register, all lines that
  write the register of a declaration are of these kinds, and all other registers are written once.
* `Procedure.FixedFrom` — a register that keeps its word from some line on.

## Main results

* `Compiles.owned`, `Compiles.constant` — the same for one procedure.
* `Generated.registers_owned` — **variables do not alias, and constants never change**.
-/

namespace MiddleEnd

namespace Procedure

variable (c : LowerContext) (ℓ : Linkage) (p : Procedure) (d : NodeId) (r : Register) (n : Nat)

/-- The line at `n` computes the initial value of `d` in `r`: it is in the code of the declaration,
whose value is in `r` in the end, and no line before it writes that register. -/
structure InitializedAt : Prop where
  /-- The line is in the code of the declaration. -/
  declares : DeclaresAt c ℓ p d r n
  /-- No line before it writes the register. -/
  first : ∀ (m : Nat) (i : Instruction), p.code[m]? = some i → i.out = r → n ≤ m

/-- A line that writes the register `r` of `d`, by its operation. -/
inductive WrittenAt : Opcode → Prop
  /-- The initial value is computed. -/
  | initial {op : Opcode} (h : p.InitializedAt c ℓ d r n) : WrittenAt op
  /-- A statement stores to the variable. -/
  | store {id target value : NodeId} (hid : id ∈ c.tree.preorder c.root)
      (h : StoresAt c ℓ p id target value n)
      (hdecl : c.resolution.declaration? (c.tree.ungroup target) = some d) : WrittenAt .copy
  /-- Native code writes the variable. -/
  | native {id : NodeId} (hid : id ∈ c.tree.preorder c.root) (h : NativeAt c ℓ p id d n) :
      WrittenAt .callNative

/-- A procedure in which no two declarations share a register, and all registers have known
writers. -/
structure Owned : Prop where
  /-- Declarations do not share a register. -/
  injective : ∀ (d d' : NodeId) (r : Register), p.registers[d]? = some r →
    p.registers[d']? = some r → d = d'
  /-- A line that writes the register of a declaration initializes it, stores to it, or calls native
  code that writes it. -/
  written : ∀ (d : NodeId) (r : Register) (n : Nat) (i : Instruction), p.registers[d]? = some r →
    p.code[n]? = some i → i.out = r → p.WrittenAt c ℓ d r n i.op
  /-- Any other register is written by at most one line. -/
  temporary : ∀ r : Register, r ≠ .none → (∀ d : NodeId, p.registers[d]? ≠ some r) →
    ∀ (n n' : Nat) (i i' : Instruction), p.code[n]? = some i → i.out = r → p.code[n']? = some i' →
      i'.out = r → n = n'

/-- Behind the line `n` the register `r` has the same word for the rest of every activation. -/
def FixedFrom : Prop :=
  ∀ (σ : Type) (m : Machine σ) (call : Option (Procedure → Run σ Word)) (κ κ' : Machine.Point σ),
    n < κ.pc → m.Reaches call p κ κ' → κ'.frame[r]? = κ.frame[r]?

end Procedure

variable {c : LowerContext} {ℓ : Linkage} {p : Procedure} {body d x : NodeId} {result : Option Ty}
  {name : String} {r : Register} {n : Nat} {i : Instruction}

/-! ### Lines and writers -/

/-- A line that writes a register either is the first to do so, and then the register belongs to no
declaration but the one whose code the line is in, or writes the variable that has the register. -/
inductive Procedure.Writer (c : LowerContext) (ℓ : Linkage) (p : Procedure) (n : Nat)
    (i : Instruction) : Prop
  /-- The register is written for the first time. -/
  | first (hfirst : ∀ (m : Nat) (j : Instruction), p.code[m]? = some j → j.out = i.out → n ≤ m)
      (hdeclares : ∀ d : NodeId, p.registers[d]? = some i.out → DeclaresAt c ℓ p d i.out n) :
      Writer c ℓ p n i
  /-- A statement stores to the variable. -/
  | store {id target value d : NodeId} (hid : id ∈ c.tree.preorder c.root)
      (h : StoresAt c ℓ p id target value n)
      (hdecl : c.resolution.declaration? (c.tree.ungroup target) = some d)
      (hhome : p.registers[d]? = some i.out) (hop : i.op = .copy) : Writer c ℓ p n i
  /-- Native code writes the variable. -/
  | native {id d : NodeId} (hid : id ∈ c.tree.preorder c.root) (h : NativeAt c ℓ p id d n)
      (hhome : p.registers[d]? = some i.out) (hop : i.op = .callNative) : Writer c ℓ p n i

/-- What is known about a line when it is emitted still holds at the end. -/
theorem Laid.writer {l l₁ l' : Layout} {code rest : List CodeLine}
    (h : Laid c ℓ p 0 l code l' n i l₁)
    (hcode : p.code.toList = (code ++ rest).map Prod.fst) (hlt : n < code.length)
    (hregisters : p.registers = l'.registers) (hout : i.out ≠ .none) : p.Writer c ℓ n i := by
  have first (heq : i.out = l₁.next) : p.Writer c ℓ n i := by
    refine .first (fun m j hj hsame => Nat.not_lt.1 fun hmn => ?_) fun d hd => ?_
    · rw [← Array.getElem?_toList, hcode, List.map_append,
        List.getElem?_append_left (by simpa using Nat.lt_trans hmn hlt), List.getElem?_map,
        Option.map_eq_some_iff] at hj
      obtain ⟨line, hline, rfl⟩ := hj
      have hmem : line ∈ code.take n := List.mem_of_getElem? (by rwa [List.getElem?_take_of_lt hmn])
      exact Nat.ne_of_lt (h.before line hmem) (hsame.trans heq)
    · rw [hregisters] at hd
      exact Nat.zero_add n ▸ (h.fresh heq).2 d hd
  have horigin := h.origin
  have hkeeps := h.keeps
  rw [Nat.zero_add] at horigin
  cases horigin with
  | convert | convertStaged => exact first rfl
  | compute heq => exact first heq
  | store hid hstores hdecl hhome =>
    exact .store hid hstores hdecl (hregisters ▸ hkeeps _ _ hhome) rfl
  | native hid hnative hhome => exact .native hid hnative (hregisters ▸ hkeeps _ _ hhome) rfl
  | silent heq => exact (hout heq).elim

/-- **Every line that writes a register is known.** -/
theorem Compiles.writer (hc : c.Sound) (hbody : body ∈ c.tree.preorder c.root)
    (hitem : (c.tree.shape body).isItem = true) (h : Compiles c ℓ body result p)
    (hi : p.code[n]? = some i) (hout : i.out ≠ .none) : p.Writer c ℓ n i := by
  obtain ⟨code, v, l, -, htraced, -, hcode, hregisters⟩ := h.traced hc hbody hitem
  have hget := hi
  rw [← Array.getElem?_toList, hcode, List.getElem?_map, Option.map_eq_some_iff] at hget
  obtain ⟨line, hget, rfl⟩ := hget
  rcases Nat.lt_or_ge n code.length with hlt | hge
  · rw [List.getElem?_append_left hlt] at hget
    obtain ⟨l₁, hlaid⟩ := htraced.lines n line hget
    exact hlaid.writer hcode hlt hregisters hout
  · -- The closing conversion writes a register that has not been given out.
    rw [List.getElem?_append_right hge] at hget
    obtain ⟨hn, -, τ, a, b, -, -, -, -, rfl⟩ := Layout.getElem?_convertLast.1 hget
    refine .first (fun m j hj hsame => Nat.not_lt.1 fun hmn => ?_) fun d hd => ?_
    · rw [← Array.getElem?_toList, hcode, List.map_append,
        List.getElem?_append_left (by simp; omega), List.getElem?_map, Option.map_eq_some_iff] at hj
      obtain ⟨line, hline, rfl⟩ := hj
      exact Nat.ne_of_lt (htraced.out_lt (List.mem_of_getElem? hline)) hsame
    · rw [hregisters] at hd
      exact (htraced.ordered.next_ne_home hd rfl).elim

/-! ### Owners -/

theorem Layout.Ordered.ne_none {l : Layout} (hl : l.Ordered) (hr : l.registers[d]? = some r) :
    r ≠ .none :=
  Nat.pos_iff_ne_zero.1 (hl.bound_lt r (hl.bound d r hr)).1

/-- **No two declarations share a register, and all registers have known writers.** -/
theorem Compiles.owned (hc : c.Sound) (hbody : body ∈ c.tree.preorder c.root)
    (hitem : (c.tree.shape body).isItem = true) (h : Compiles c ℓ body result p) : p.Owned c ℓ := by
  obtain ⟨code, v, l, -, htraced, -, -, hregisters⟩ := h.traced hc hbody hitem
  have hinjective (d d' : NodeId) (r : Register) (hd : p.registers[d]? = some r)
      (hd' : p.registers[d']? = some r) : d = d' := by
    rw [hregisters] at hd hd'
    exact htraced.ordered.injective d d' r hd hd'
  refine ⟨hinjective, fun d r n i hd hi hout => ?_,
    fun r hr hfree n n' i i' hi hout hi' hout' => ?_⟩
  · subst hout
    have hne : i.out ≠ .none := htraced.ordered.ne_none (hregisters ▸ hd)
    cases h.writer hc hbody hitem hi hne with
    | first hfirst hdeclares => exact .initial ⟨hdeclares d hd, hfirst⟩
    | store hid hstores hdecl hhome hop =>
      obtain rfl := hinjective _ _ _ hhome hd
      exact hop ▸ .store hid hstores hdecl
    | native hid hnative hhome hop =>
      obtain rfl := hinjective _ _ _ hhome hd
      exact hop ▸ .native hid hnative
  · -- Both lines are the first one that writes the register.
    subst hout
    cases h.writer hc hbody hitem hi hr with
    | store _ _ _ hhome | native _ _ hhome => exact (hfree _ hhome).elim
    | first hfirst =>
      cases h.writer hc hbody hitem hi' (hout' ▸ hr) with
      | store _ _ _ hhome | native _ _ hhome => exact (hfree _ (hout' ▸ hhome)).elim
      | first hfirst' => exact Nat.le_antisymm (hfirst n' i' hi' hout') (hfirst' n i hi hout'.symm)

/-- The register of a declaration is written, unless a variable has no initial value. -/
theorem Compiles.exists_writer (hc : c.Sound) (hbody : body ∈ c.tree.preorder c.root)
    (hitem : (c.tree.shape body).isItem = true) (h : Compiles c ℓ body result p)
    (hd : p.registers[d]? = some r) :
    (∃ (n : Nat) (i : Instruction), p.code[n]? = some i ∧ i.out = r)
      ∨ ∃ name ty, c.tree.shape d = .var name ty none := by
  obtain ⟨code, v, l, -, htraced, hhas, -, hregisters⟩ := h.traced hc hbody hitem
  rw [hregisters] at hd
  obtain ⟨hpos, hlt⟩ := htraced.ordered.bound_lt r (htraced.ordered.bound d r hd)
  rcases htraced.given r hpos hlt with ⟨line, hline, hout⟩ | ⟨d', name, ty, hshape, hd'⟩
  · obtain ⟨n, i, -, -, hi, hout⟩ := (hhas.append.1.exists_iff (P := fun i => i.out = r)).2
      ⟨line, hline, hout⟩
    exact .inl ⟨n, i, hi, hout⟩
  · obtain rfl := htraced.ordered.injective _ _ _ hd hd'
    exact .inr ⟨name, ty, hshape⟩

/-! ### Constants -/

theorem Typing.Context.IsVariable.exists_var {C : Typing.Context} {target : NodeId}
    (h : C.IsVariable target) (hdecl : C.resolution.declaration? (C.tree.ungroup target) = some d) :
    ∃ name ty init, C.tree.shape d = .var name ty init := by
  obtain ⟨d', name, ty, init, hdecl', hshape, -⟩ := h
  obtain rfl := Option.some.inj (hdecl.symm.trans hdecl')
  exact ⟨name, ty, init, hshape⟩

/-- Statements store to variables. -/
theorem StoresAt.exists_var (hc : c.Sound) {id target value : NodeId}
    (hid : id ∈ c.tree.preorder c.root) (h : StoresAt c ℓ p id target value n)
    (hdecl : c.resolution.declaration? (c.tree.ungroup target) = some d) :
    ∃ name ty init, c.tree.shape d = .var name ty init := by
  have hvariable : c.typingContext.IsVariable target := by
    cases h with
    | assign hshape => exact (hc.hasKind_assign hid hshape).1
    | parallel hshape _ hstaged =>
      have hmem := (List.of_mem_zip (hstaged ▸ List.mem_append_right _ (.head _))).1
      exact hc.isVariable_parallel hid hshape hmem
  exact hvariable.exists_var hdecl

/-- Native code writes variables. -/
theorem NativeAt.exists_var (hc : c.Sound) {id : NodeId} (hid : id ∈ c.tree.preorder c.root)
    (h : NativeAt c ℓ p id d n) : ∃ name ty init, c.tree.shape d = .var name ty init := by
  cases h with
  | code hshape hslot hdecl => exact (hc.native_output hid hshape hslot).2.exists_var hdecl

/-- **The register of a constant has one writer**, the line that computes the value. -/
theorem Compiles.constant (hc : c.Sound) (hbody : body ∈ c.tree.preorder c.root)
    (hitem : (c.tree.shape body).isItem = true) (h : Compiles c ℓ body result p)
    (hshape : c.tree.shape d = .constant name x) (hd : p.registers[d]? = some r) :
    ∃ n, p.InitializedAt c ℓ d r n
      ∧ ∀ (m : Nat) (i : Instruction), p.code[m]? = some i → (i.out = r ↔ m = n) := by
  have hwriter (n : Nat) (i : Instruction) (hi : p.code[n]? = some i) (hout : i.out = r) :
      p.InitializedAt c ℓ d r n := by
    have hwritten := (h.owned hc hbody hitem).written d r n i hd hi hout
    generalize i.op = op at hwritten
    cases hwritten with
    | initial hinitial => exact hinitial
    | store hid hstores hdecl =>
      obtain ⟨name, ty, init, hvar⟩ := hstores.exists_var hc hid hdecl
      cases hshape.symm.trans hvar
    | native hid hnative =>
      obtain ⟨name, ty, init, hvar⟩ := hnative.exists_var hc hid
      cases hshape.symm.trans hvar
  rcases h.exists_writer hc hbody hitem hd with ⟨n, i, hi, hout⟩ | ⟨name, ty, hvar⟩
  · refine ⟨n, hwriter n i hi hout, fun m j hj => ⟨fun hout' => ?_, fun heq => ?_⟩⟩
    · exact Nat.le_antisymm ((hwriter m j hj hout').first n i hi hout)
        ((hwriter n i hi hout).first m j hj hout')
    · subst heq
      exact Option.some.inj (hj.symm.trans hi) ▸ hout
  · cases hshape.symm.trans hvar

/-- A register keeps its word where no line writes it any more. -/
theorem Machine.Reaches.frame_eq {σ : Type} {m : Machine σ} {call : Option (Procedure → Run σ Word)}
    {κ κ' : Machine.Point σ} (h : m.Reaches call p κ κ')
    (hcode : ∀ (n : Nat) (i : Instruction), κ.pc ≤ n → p.code[n]? = some i → i.out ≠ r) :
    κ'.frame[r]? = κ.frame[r]? := by
  induction h with
  | refl => rfl
  | @tail κ₁ κ₂ hreach hstep ih =>
    obtain ⟨i, hi⟩ : ∃ i, p.code[κ₁.pc]? = some i := by
      cases hstep with
      | skip hi | write hi => exact ⟨_, hi⟩
    exact (hstep.frame_eq hi (hcode _ i (Machine.Reaches.pc_le hreach) hi)).trans ih

theorem Procedure.FixedFrom.of_writers
    (h : ∀ (m : Nat) (i : Instruction), p.code[m]? = some i → i.out = r → m ≤ n) :
    p.FixedFrom r n :=
  fun _ _ _ _ _ hpc hreach =>
    hreach.frame_eq fun m i hm hi hout => Nat.not_lt.2 (h m i hi hout) (Nat.lt_of_lt_of_le hpc hm)

/-- **Variables do not alias, and constants never change.**  In every procedure of a program that
was generated without problems distinct declarations have distinct registers.  A line that writes
the register of a declaration computes its initial value, or it is the copy of a statement or the
native code that stores to the variable; any other register is written once.  The register of a
constant has one writer, and behind it the same word until the activation ends. -/
theorem Generated.registers_owned {t : Tree} {links : Links} {root : NodeId} {a : Analysis}
    {limit : Nat} {g : Generated} (ht : t.WellFormed root) (hsize : root < links.size)
    (ha : Analysis.ofTree t links root = .ok a) (hmissing : a.resolution.missing = [])
    (hproblems : a.typing.problems = #[])
    (hg : Generated.ofTree t a.links root a.resolution a.typing limit = .ok g)
    (hnone : g.problems = []) :
    ∃ ℓ, Implements (a.lowerContext t root limit) ℓ g.program
      ∧ ∀ p ∈ g.program.procedures, p.Owned (a.lowerContext t root limit) ℓ
        ∧ ∀ (d : NodeId) (name : String) (x : NodeId) (r : Register), t.shape d = .constant name x →
            p.registers[d]? = some r → ∃ n, p.InitializedAt (a.lowerContext t root limit) ℓ d r n
              ∧ (∀ (m : Nat) (i : Instruction), p.code[m]? = some i → (i.out = r ↔ m = n))
              ∧ p.FixedFrom r n := by
  have hc : (a.lowerContext t root limit).Sound :=
    ⟨ht, Analysis.sound_of_ofTree ht ha hmissing hproblems⟩
  obtain ⟨ℓ, hP, hbodies⟩ := Generated.bodies ht hsize ha hmissing hproblems hg hnone
  refine ⟨ℓ, hP, fun p hp => ?_⟩
  obtain ⟨body, result, hbody⟩ := hbodies p hp
  have hmem := (hbody.within hc).1
  have hcompiles := hP.compiles hbody
  refine ⟨hcompiles.owned hc hmem (hbody.isItem hc), fun d name x r hshape hd => ?_⟩
  obtain ⟨n, hinitial, hwriter⟩ := hcompiles.constant hc hmem (hbody.isItem hc) hshape hd
  exact ⟨n, hinitial, hwriter, .of_writers fun m i hi hout =>
    Nat.le_of_eq ((hwriter m i hi).1 hout)⟩

/-- `y := 1; k :: y; y = 2` -/
def Tree.copiesVariable : Tree where
  nodes :=
    #[⟨.literal (.number "1"), .nowhere⟩, ⟨.var "y" none (some 0), .nowhere⟩,
      ⟨.ident "y", .nowhere⟩, ⟨.constant "k" 2, .nowhere⟩, ⟨.ident "y", .nowhere⟩,
      ⟨.literal (.number "2"), .nowhere⟩, ⟨.assign 4 5, .nowhere⟩, ⟨.module [1, 3, 6], .nowhere⟩]
  children_lt := by decide

/-- The constant of `copiesVariable` has another register than the variable, and keeps its value
when that changes. -/
theorem Tree.copiesVariable_owned :
    ∃ a g ℓ p r r' n, Analysis.ofTree .copiesVariable (.unset 8) 7 = .ok a
      ∧ Generated.ofTree .copiesVariable a.links 7 a.resolution a.typing Register.maximum = .ok g
      ∧ p ∈ g.program.procedures ∧ p.registers[1]? = some r ∧ p.registers[3]? = some r' ∧ r ≠ r'
      ∧ p.InitializedAt (a.lowerContext .copiesVariable 7 Register.maximum) ℓ 3 r' n
      ∧ p.FixedFrom r' n := by
  have hok : (Analysis.ofTree .copiesVariable (.unset 8) 7).toOption.any (fun a =>
      a.resolution.missing.isEmpty && a.typing.problems.isEmpty
        && (Generated.ofTree .copiesVariable a.links 7 a.resolution a.typing
          Register.maximum).toOption.any (fun g => g.problems.isEmpty
            && g.program.procedures[0]?.any fun p =>
              p.registers[1]? == some 1 && p.registers[3]? == some 2)) = true := by decide +kernel
  obtain ⟨a, ha, hok⟩ := Runs.exists_of_any hok
  simp only [Bool.and_eq_true] at hok
  obtain ⟨⟨hmissing, hproblems⟩, hok⟩ := hok
  obtain ⟨g, hg, hok⟩ := Runs.exists_of_any hok
  simp only [Bool.and_eq_true, Option.any_eq_true, beq_iff_eq] at hok
  obtain ⟨hnone, p, hp, hy, hk⟩ := hok
  obtain ⟨ℓ, -, howned⟩ := Generated.registers_owned (by decide +kernel) (by decide) ha
    (List.isEmpty_iff.1 hmissing) (Array.isEmpty_iff.1 hproblems) hg (List.isEmpty_iff.1 hnone)
  have hmem := Array.mem_of_getElem? hp
  obtain ⟨n, hinitial, -, hfixed⟩ := (howned p hmem).2 3 "k" 2 2 rfl hk
  exact ⟨a, g, ℓ, p, 1, 2, n, ha, hg, hmem, hy, hk, by decide, hinitial, hfixed⟩

end MiddleEnd
