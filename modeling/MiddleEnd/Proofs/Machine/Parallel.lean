import MiddleEnd.Proofs.Lowering.Transfers
import MiddleEnd.Proofs.Machine.Writers

/-!
# Simultaneous assignment

A parallel assignment evaluates all its values before it stores any of them.  Each value waits in a
register that no declaration has and that nothing else writes, also if native code in a later value
writes the variable that the value was read from.  So every target gets its value as it was when
that was evaluated; of several pairs with the same target the last one counts.

## Main definitions

* `Simultaneous` — what a parallel assignment does.

## Main results

* `StagesAt.holds` — values are kept until all of them are evaluated.
* `TransfersAt.holds` — the copies give every target its value.
* `compile_parallel` — **parallel assignment is simultaneous**.
* `Tree.swapsAround_parallel` — variables that change their values, with native code in between.
-/

namespace MiddleEnd

open Layout

variable {c : LowerContext} {ℓ : Linkage} {values targets : List NodeId} {n : Nat}
  {l l' : Layout} {code : List CodeLine} {p : Procedure} {r : Register} {s : Staged}
  {stages : List (Option Staged)} {entries : List (NodeId × NodeId × Option Staged)}
  {transfers : List Transfer} {a : Transfer} {body : NodeId} {start mid stop : Nat}

/-! ### Runs -/

section

variable {σ : Type} {m : Machine σ} {call : Option (Procedure → Run σ Word)}
  {κ κ' : Machine.Point σ} {w : Word}

/-- **Values are kept until all of them are evaluated.** -/
theorem StagesAt.holds (hc : c.Sound)
    (hvalues : ∀ x ∈ values, x ∈ c.tree.preorder c.root ∧ (c.tree.shape x).isExpr = true)
    (h : StagesAt c ℓ values n l code stages l') (hl : l.Ordered) (hsize : l'.next ≤ κ.frame.size)
    (htraverses : m.Traverses call p code κ κ') (hpc : κ.pc = n) (hs : some s ∈ stages) :
    ∃ κ₁ w, m.Reaches call p κ κ₁ ∧ m.Reaches call p κ₁ κ' ∧ κ₁.pc = s.read
      ∧ κ₁.frame[s.register]? = some w ∧ κ'.frame[s.kept]? = some w := by
  induction h generalizing κ with
  | nil => cases hs
  | missing h _ ih =>
    obtain ⟨hcode, -⟩ := StagesAt.computesNode hc hvalues (.head _) _ _ _ _ h hl
    obtain ⟨κ₁, hfirst, hrest⟩ := htraverses.append
    -- The value is one of the later ones.
    obtain ⟨κ₂, w, hto, hkept⟩ := ih (fun x hx => hvalues x (.tail _ hx)) hcode.ordered
      (hfirst.reaches.frame_size ▸ hsize) hrest (hpc ▸ hfirst.pc)
      ((List.mem_cons.1 hs).resolve_left fun h => by cases h)
    exact ⟨κ₂, w, hfirst.reaches.trans hto, hkept⟩
  | @staged x _ _ _ l₁ _ _ _ r q _ h hq hrest ih =>
    obtain ⟨hmem, hexpr⟩ := hvalues x (.head _)
    have hrestValues := fun x hx => hvalues x (.tail _ hx)
    obtain ⟨hordered, hgiven⟩ := h.ordered hl
    have hstage := hordered.stage (hgiven r rfl) (c.typeOf x) (c.span x)
    rw [← hq] at hstage
    obtain ⟨hstage, hvalue, hfree⟩ := hstage
    obtain ⟨κ₂, hfirst, hafter⟩ := htraverses.append
    obtain ⟨κ₁, hevaluates, hstages⟩ := hfirst.append
    rcases List.mem_cons.1 hs with hs | hs
    · -- The value has been computed at the start of its stage, and no later line writes there.
      obtain rfl := Option.some.inj hs
      have hlt : r < κ₁.frame.size := by
        rw [hevaluates.reaches.frame_size]
        refine Nat.lt_of_lt_of_le (hgiven r rfl).2 (Nat.le_trans ?_ hsize)
        exact Nat.le_trans (hq ▸ next_le_stage _ _ _ _)
          (hrest.computes hc hrestValues hstage).next_le
      have hw := Array.getElem?_eq_getElem hlt
      refine ⟨κ₁, κ₁.frame[r], hevaluates.reaches, hstages.reaches.trans hafter.reaches,
        hpc ▸ hevaluates.pc, hw, ?_⟩
      rw [hafter.frame_eq (hrest.ne hc hrestValues hstage hvalue hfree)]
      subst hq
      exact hstages.stage hw
    · -- The value is one of the later ones.
      obtain ⟨κ₃, w, hto, hkept⟩ := ih hrestValues hstage (hfirst.reaches.frame_size ▸ hsize) hafter
        (hpc ▸ hfirst.pc) hs
      exact ⟨κ₃, w, hfirst.reaches.trans hto, hkept⟩

/-- **The copies give every target its value**, unless the target is stored to again. -/
theorem TransfersAt.holds (h : TransfersAt c entries n l code transfers l') (hl : l.Ordered)
    (htraverses : m.Traverses call p code κ κ') {first rest : List Transfer}
    (htransfers : transfers = first ++ a :: rest) (hlast : ∀ b ∈ rest, b.home ≠ a.home)
    (hlt : a.staged.kept < l.next) (hfree : l.bound.contains a.staged.kept = false)
    (hw : κ.frame[a.staged.kept]? = some w) :
    κ'.frame[a.home]? = some (Kind.converted (c.kindOf a.value) (c.kindOf a.target) w) := by
  induction h generalizing κ first with
  | nil => simp at htransfers
  | missing _ ih => exact ih hl htraverses htransfers hlt hfree hw
  | homeless hq _ _ ih =>
    have hconvert := hl.converts hq
    obtain ⟨κ₁, hfirst, hrest⟩ := htraverses.append
    refine ih hconvert.ordered hrest htransfers (Nat.lt_of_lt_of_le hlt hconvert.next_le)
      (hconvert.bound ▸ hfree) ?_
    rw [hfirst.frame_eq fun line hline heq => ?_, hw]
    exact Nat.ne_of_lt hlt (heq.symm.trans (out_of_convert hq hline).1)
  | @copied target value s _ _ _ _ q home _ _ hq hhome hrest ih =>
    have hconvert := hl.converts hq
    have hcopied := hl.copied hq hhome
    obtain ⟨κ₂, hfirst, hafter⟩ := htraverses.append
    obtain ⟨κ₁, hconverts, hcopies⟩ := hfirst.append
    cases first with
    | nil =>
      obtain ⟨rfl, rfl⟩ := List.cons.inj htransfers
      have hvalue : κ₂.frame[home]?
          = some (Kind.converted (c.kindOf value) (c.kindOf target) w) := by
        subst hq
        exact hcopies.copy (hconverts.convert hw)
      -- What follows are copies to other homes, and new registers.
      refine (hafter.frame_eq fun line hline heq => ?_).trans hvalue
      obtain ⟨k, hk, rfl⟩ := List.getElem_of_mem hline
      rcases hrest.lines hcopied.ordered (List.getElem?_eq_getElem hk) with
        ⟨b, hb, -, hout⟩ | ⟨hle, -⟩
      · exact hlast b hb (hout.symm.trans heq)
      · have hhome := (hconvert.ordered.bound_lt home (hconvert.ordered.home_contains hhome)).2
        exact Nat.not_lt.2 hle (heq ▸ hhome)
    | cons b first =>
      obtain ⟨-, htransfers⟩ := List.cons.inj htransfers
      refine ih hcopied.ordered hafter htransfers (Nat.lt_of_lt_of_le hlt hcopied.next_le)
        (hcopied.bound ▸ hfree) ?_
      rw [hfirst.frame_eq fun line hline heq => ?_, hw]
      rcases List.mem_append.1 hline with hline | hline
      · exact Nat.ne_of_lt hlt (heq.symm.trans (out_of_convert hq hline).1)
      · obtain rfl := List.mem_singleton.1 hline
        have hbound := hconvert.ordered.home_contains hhome
        rw [show home = a.staged.kept from heq, hconvert.bound, hfree] at hbound
        cases hbound

end

/-! ### Parallel assignments -/

/-- What a parallel assignment from `start` to `stop` does, whose values are evaluated by `mid`. -/
structure Simultaneous (c : LowerContext) (targets values : List NodeId) (p : Procedure)
    (start mid stop : Nat) (stages : List (Option Staged)) (transfers : List Transfer) : Prop where
  /-- There is a place for each value, and a target for each of them. -/
  length : targets.length = values.length ∧ stages.length = values.length
  /-- Every value is evaluated between the beginning and `mid`. -/
  within : ∀ s, some s ∈ stages →
    start ≤ s.start ∧ s.start ≤ s.read ∧ s.read ≤ s.stop ∧ s.stop ≤ mid
  /-- One value is evaluated after the other, and each is kept in another register. -/
  apart : (stages.filterMap id).Pairwise fun s s' => s.stop ≤ s'.start ∧ s.kept ≠ s'.kept
  /-- No declaration has the register that a value is kept in. -/
  unowned : ∀ s, some s ∈ stages → ∀ d : NodeId, p.registers[d]? ≠ some s.kept
  /-- One line writes the register that a value is kept in, where the value is evaluated. -/
  written : ∀ s, some s ∈ stages → ∃ n, s.start ≤ n ∧ n < s.stop
    ∧ ∀ (k : Nat) (i : Instruction), p.code[k]? = some i → (i.out = s.kept ↔ k = n)
  /-- The copies are in the order of the targets, one for each number or character. -/
  ordered : (transfers.map Transfer.entry).Sublist (targets.zip (values.zip stages))
  /-- Every number or character is copied. -/
  complete : ∀ e ∈ targets.zip (values.zip stages), (c.typeOf e.2.1).hasKind = true →
    ∃ a ∈ transfers, a.entry = e
  /-- The copies come one after the other. -/
  sequence : transfers.Pairwise fun a a' => a.copied < a'.copied
  /-- Every copy is behind the values, and writes the register of its target. -/
  copies : ∀ a ∈ transfers, mid ≤ a.copied ∧ a.copied < stop
    ∧ (∃ r, p.code[a.copied]? = some ⟨.copy, a.home, .register r, .none⟩)
    ∧ ∃ d, c.resolution.declaration? (c.tree.ungroup a.target) = some d
      ∧ p.registers[d]? = some a.home
  /-- Behind the values no other line writes the register of a declaration. -/
  others : ∀ (n : Nat) (i : Instruction), mid ≤ n → n < stop → p.code[n]? = some i →
    (∃ a ∈ transfers, a.copied = n) ∨ ∀ d : NodeId, p.registers[d]? ≠ some i.out
  /-- Every run that comes to the assignment gets behind it, unless it fails. -/
  passes : ∀ (σ : Type) (m : Machine σ) (call : Option (Procedure → Run σ Word))
    (κ : Machine.Point σ), κ.pc = start →
    (∃ κ', m.Reaches call p κ κ' ∧ κ'.pc = stop)
      ∨ ∃ e s, m.ending call p κ = (.error e, s)
  /-- Then every target has its own value, as it was when that was evaluated, unless a later pair
  has the same target. -/
  assigns : ∀ (σ : Type) (m : Machine σ) (call : Option (Procedure → Run σ Word))
    (s : MachineState σ) (κ κ' : Machine.Point σ),
    m.Reaches call p (.start p s) κ → κ.pc = start → m.Reaches call p κ κ' → κ'.pc = stop →
    ∀ (first : List Transfer) (a : Transfer) (rest : List Transfer),
      transfers = first ++ a :: rest →
      (∀ b ∈ rest, c.resolution.declaration? (c.tree.ungroup b.target)
        ≠ c.resolution.declaration? (c.tree.ungroup a.target)) →
      ∃ κ₁ w, m.Reaches call p κ κ₁ ∧ m.Reaches call p κ₁ κ' ∧ κ₁.pc = a.staged.read
        ∧ κ₁.frame[a.staged.register]? = some w
        ∧ κ'.frame[a.home]? = some (Kind.converted (c.kindOf a.value) (c.kindOf a.target) w)

namespace Assigning

variable {l₁ l₂ : Layout} {lines : List CodeLine} (hc : c.Sound)
  (h : Assigning c ℓ targets values p start mid stop stages transfers code lines l l₁ l₂)

include h

/-- What is copied has been staged. -/
theorem staged_mem (ha : a ∈ transfers) : some a.staged ∈ stages := by
  have hentry := h.transfersAt.sublist.subset (List.mem_map.2 ⟨a, ha, rfl⟩)
  exact (List.of_mem_zip (mem_zip_zip hentry).2).2

include hc

theorem computes : Computes l l₁ := h.stagesAt.computes hc h.isExpr h.ordered

theorem copies : Computes l₁ l₂ := h.transfersAt.computes (h.computes hc).ordered

/-- Numbers and characters are staged and copied. -/
theorem exists_transfer {e : NodeId × NodeId × Option Staged}
    (he : e ∈ targets.zip (values.zip stages)) (hkind : (c.typeOf e.2.1).hasKind = true) :
    ∃ a ∈ transfers, a.entry = e := by
  obtain ⟨target, value, stage⟩ := e
  obtain ⟨hpair, hstage⟩ := mem_zip_zip he
  obtain ⟨hvalued, home, hhome⟩ := h.declared _ hpair hkind
  obtain ⟨s, rfl⟩ := h.stagesAt.exists_staged hstage hvalued
  have hcomputes := h.computes hc
  exact h.transfersAt.exists_transfer hcomputes.ordered he
    ((hcomputes.home_eq c target).trans hhome)

/-- Targets are variables of the procedure. -/
theorem exists_home (ha : a ∈ transfers) :
    ∃ d, c.resolution.declaration? (c.tree.ungroup a.target) = some d
      ∧ l.registers[d]? = some a.home := by
  have hcomputes := h.computes hc
  have hhome := h.transfersAt.home_eq hcomputes.ordered ha
  rw [hcomputes.home_eq] at hhome
  exact Option.bind_eq_some_iff.1 hhome

theorem unowned (hs : some s ∈ stages) (d : NodeId) : p.registers[d]? ≠ some s.kept := by
  obtain ⟨hle, hlt, -⟩ := h.stagesAt.free hc h.isExpr h.ordered hs
  exact h.new s.kept hle (Nat.lt_of_lt_of_le hlt (h.copies hc).next_le) d

/-- The register of a staged value is written once. -/
theorem written (howned : p.Owned c ℓ) (hs : some s ∈ stages) : ∃ n, s.start ≤ n ∧ n < s.stop
    ∧ ∀ (k : Nat) (i : Instruction), p.code[k]? = some i → (i.out = s.kept ↔ k = n) := by
  obtain ⟨n, i, hle, hlt, hi, hout⟩ :=
    h.stagesAt.exists_writer hc h.isExpr h.ordered h.has.append.1 hs
  have hne : s.kept ≠ .none := by
    have hnew := (h.stagesAt.free hc h.isExpr h.ordered hs).1
    exact Nat.ne_of_gt (Nat.lt_of_lt_of_le h.ordered.pos hnew)
  refine ⟨n, hle, hlt, fun k j hj => ⟨fun hout' => ?_, fun heq => ?_⟩⟩
  · exact howned.temporary s.kept hne (h.unowned hc hs) k n j i hj hout' hi hout
  · subst heq
    exact Option.some.inj (hj.symm.trans hi) ▸ hout

/-- Behind the values only the copies write registers of declarations. -/
theorem others {i : Instruction} (hle : mid ≤ n) (hlt : n < stop) (hi : p.code[n]? = some i) :
    (∃ a ∈ transfers, a.copied = n) ∨ ∀ d : NodeId, p.registers[d]? ≠ some i.out := by
  obtain ⟨k, rfl⟩ := Nat.exists_eq_add_of_le hle
  have hcomputes := h.computes hc
  have hlines := h.has.append.2
  rw [← h.mid_eq] at hlines
  have hk : k < lines.length := by
    have hstop := h.stop_eq
    have hmid := h.mid_eq
    rw [List.length_append] at hstop
    omega
  have hline := List.getElem?_eq_getElem hk
  obtain rfl := Option.some.inj (hi.symm.trans (hlines k _ hline).1)
  rcases h.transfersAt.lines hcomputes.ordered hline with ⟨a, ha, hcopied, -⟩ | ⟨hle, hlt⟩
  · exact .inl ⟨a, ha, hcopied⟩
  · exact .inr fun d => h.new _ (Nat.le_trans hcomputes.next_le hle) hlt d

section

variable {σ : Type} {m : Machine σ} {call : Option (Procedure → Run σ Word)}
  {κ κ' : Machine.Point σ} {first rest : List Transfer} (hpc : κ.pc = start)

include hpc

theorem passes : (∃ κ', m.Reaches call p κ κ' ∧ κ'.pc = stop)
    ∨ ∃ e s, m.ending call p κ = (.error e, s) := by
  have hstop := h.stop_eq
  have hsize := h.stop_le
  rw [← hpc] at hstop
  rw [hstop] at hsize ⊢
  exact m.crosses_has call (hpc ▸ h.has) hsize
    ((h.stagesAt.straight hc h.isExpr).append h.transfersAt.straight)

/-- **Every target gets its value**, as it was when that was evaluated. -/
theorem assigns (hsize : κ.frame.size = p.nextRegister) (hreach : m.Reaches call p κ κ')
    (hpc' : κ'.pc = stop) (htransfers : transfers = first ++ a :: rest)
    (hlast : ∀ b ∈ rest, c.resolution.declaration? (c.tree.ungroup b.target)
      ≠ c.resolution.declaration? (c.tree.ungroup a.target)) :
    ∃ κ₁ w, m.Reaches call p κ κ₁ ∧ m.Reaches call p κ₁ κ' ∧ κ₁.pc = a.staged.read
      ∧ κ₁.frame[a.staged.register]? = some w
      ∧ κ'.frame[a.home]? = some (Kind.converted (c.kindOf a.value) (c.kindOf a.target) w) := by
  have hcomputes := h.computes hc
  have htraverses : m.Traverses call p (code ++ lines) κ κ' :=
    ⟨hpc ▸ h.has, hreach, by rw [hpc, hpc', h.stop_eq]⟩
  obtain ⟨κ₂, hvalues, hcopies⟩ := htraverses.append
  have ha : a ∈ transfers := by simp [htransfers]
  have hs := h.staged_mem ha
  obtain ⟨-, hlt, hfree⟩ := h.stagesAt.free hc h.isExpr h.ordered hs
  have hsize : l₁.next ≤ κ.frame.size := hsize ▸ Nat.le_trans (h.copies hc).next_le h.next_le
  obtain ⟨κ₁, w, hto, hfrom, hread, hw, hkept⟩ :=
    h.stagesAt.holds hc h.isExpr h.ordered hsize hvalues hpc hs
  refine ⟨κ₁, w, hto, hfrom.trans hcopies.reaches, hread, hw, ?_⟩
  refine h.transfersAt.holds hcomputes.ordered hcopies htransfers (fun b hb heq => ?_) hlt
    hfree hkept
  -- Targets with one register are the same variable.
  obtain ⟨d, hd, hhome⟩ := h.exists_home hc ha
  obtain ⟨d', hd', hhome'⟩ := h.exists_home hc (a := b) (by simp [htransfers, hb])
  rw [heq] at hhome'
  obtain rfl := h.ordered.injective _ _ _ hhome hhome'
  exact hlast b hb (hd'.trans hd.symm)

end

/-- **Parallel assignment is simultaneous.** -/
theorem simultaneous (howned : p.Owned c ℓ) :
    Simultaneous c targets values p start mid stop stages transfers where
  length := ⟨h.length, h.stagesAt.length⟩
  within s hs := h.mid_eq ▸ h.stagesAt.within hs
  apart := (h.stagesAt.pairwise hc h.isExpr h.ordered).imp fun hs => ⟨hs.1, Nat.ne_of_lt hs.2⟩
  unowned _ hs := h.unowned hc hs
  written _ hs := h.written hc howned hs
  ordered := h.transfersAt.sublist
  complete _ he hkind := h.exists_transfer hc he hkind
  sequence := h.transfersAt.pairwise
  copies a ha := by
    obtain ⟨hle, hlt⟩ := h.transfersAt.within ha
    obtain ⟨d, hd, hhome⟩ := h.exists_home hc ha
    have hlines := h.has.append.2
    rw [← h.mid_eq] at hlines
    refine ⟨hle, ?_, h.transfersAt.copies hlines ha, d, hd, h.keeps d _ hhome⟩
    rw [h.stop_eq, List.length_append, ← Nat.add_assoc, ← h.mid_eq]
    exact hlt
  others _ _ hle hlt hi := h.others hc hle hlt hi
  passes _ _ _ _ hpc := h.passes hc hpc
  assigns σ m call s κ κ' hstart hpc hreach hpc' first a rest htransfers hlast := by
    refine h.assigns hc hpc ?_ hreach hpc' htransfers hlast
    rw [hstart.frame_size]
    simp [Machine.Point.start, RegisterFile.zeroed, Procedure.frameSize]

end Assigning

/-- **Parallel assignment is simultaneous.**  Every parallel assignment is in the code of some
procedure.  First all its values are evaluated, each into a register of its own that no declaration
has and no other line writes.  Then the values are converted and copied to the targets, in their
order.  Behind the copies every target has its value as it was when that was evaluated; of several
pairs with the same target the last one counts. -/
theorem compile_parallel {t : Tree} {links : Links} {root : NodeId} {source : String}
    {config : CompilerConfig} {compiled : Compiled} (ht : t.WellFormed root)
    (h : compile t links root source config = .ok compiled) :
    ∃ a ℓ, Analysis.ofTree t links root = .ok a
      ∧ Implements (a.lowerContext t root config.registerLimit) ℓ compiled.program
      ∧ ∀ id ∈ t.preorder root, ∀ targets values, t.shape id = .parallel targets values →
          (∃ body result p start mid stop stages transfers,
            BodyOf (a.lowerContext t root config.registerLimit) ℓ compiled.program body result p
              ∧ AssignsAt (a.lowerContext t root config.registerLimit) ℓ body id targets
                values p start mid stop stages transfers)
            ∧ ∀ body result p start mid stop stages transfers,
                BodyOf (a.lowerContext t root config.registerLimit) ℓ compiled.program body
                  result p →
                AssignsAt (a.lowerContext t root config.registerLimit) ℓ body id targets
                  values p start mid stop stages transfers →
                Simultaneous (a.lowerContext t root config.registerLimit) targets values p start
                  mid stop stages transfers := by
  -- The parts of the compilation: the analysis, the lowering, and no problems.
  obtain ⟨a, g, ha, hmissing, hproblems, hg, hnone, hprogram⟩ := compile_ok h
  obtain ⟨v, s, hnode, rfl⟩ := Generated.ofTree_ok hg
  have hc : (a.lowerContext t root config.registerLimit).Sound :=
    ⟨ht, Analysis.sound_of_ofTree ht ha hmissing hproblems⟩
  have hp : s.problems = #[] := by simpa using hnone
  have hP := Lowering.implements hc hnode hp
  -- A target is declared before it is assigned, in the procedure that assigns.
  have hearlier : (a.lowerContext t root config.registerLimit).DeclaresEarlier :=
    LowerContext.declaresEarlier_of_ofTree hc.tree.nodup ha hmissing
  have hwithin := LowerContext.storesWithin_of_node hc hnode hp
  rw [hprogram]
  refine ⟨a, s.linkage, ha, hP, fun id hid targets values hshape =>
    ⟨hP.assignsAt hc hid hshape, ?_⟩⟩
  intro body result p start mid stop stages transfers hbody hassigns
  -- Registers have one owner each, so the copies are apart.
  have howned := (hP.compiles hbody).owned hc (hbody.within hc).1 (hbody.isItem hc)
  obtain ⟨code, lines, l, l₁, l₂, hassigning⟩ := hassigns.assigning hc hearlier hwithin hbody.isBody
  exact hassigning.simultaneous hc howned

/-- `x := 1; y := 2; y, x, x = x, native, y`, where native code gives `x` another value. -/
def Tree.swapsAround : Tree where
  nodes :=
    #[⟨.literal (.number "1"), .nowhere⟩, ⟨.var "x" none (some 0), .nowhere⟩,
      ⟨.literal (.number "2"), .nowhere⟩, ⟨.var "y" none (some 2), .nowhere⟩,
      ⟨.ident "y", .nowhere⟩, ⟨.ident "x", .nowhere⟩, ⟨.ident "x", .nowhere⟩,
      ⟨.ident "x", .nowhere⟩,
      ⟨.ident "x", .nowhere⟩, ⟨.slot 8 0, .nowhere⟩, ⟨.native "ret0" [] (some 9), .nowhere⟩,
      ⟨.ident "y", .nowhere⟩, ⟨.parallel [4, 5, 6] [7, 10, 11], .nowhere⟩,
      ⟨.module [1, 3, 12], .nowhere⟩]
  children_lt := by decide

/-- The variables of `swapsAround` change their values: `y` gets that of `x` from before the native
code, and for `x` the last pair counts. -/
theorem Tree.swapsAround_parallel :
    ∃ compiled, compile .swapsAround (.unset 14) 13 "" .unlimited = .ok compiled
      ∧ (∃ c p start mid stop stages transfers, p ∈ compiled.program.procedures
        ∧ Simultaneous c [4, 5, 6] [7, 10, 11] p start mid stop stages transfers)
      ∧ ∃ e s, compileAndRun .swapsAround (.unset 14) 13 "" .unlimited (.constant 0) (.initial ())
          = (.ok e, s) ∧ e.output.symbol? e.program "x" = some 2
        ∧ e.output.symbol? e.program "y" = some 1 := by
  -- The program and its run are computed.
  have hok : (compile .swapsAround (.unset 14) 13 "" .unlimited).isOk = true := by decide +kernel
  have hrun : ((compileAndRun .swapsAround (.unset 14) 13 "" .unlimited (.constant 0)
      (.initial ())).1.toOption.any fun e => e.output.symbol? e.program "x" == some 2
        && e.output.symbol? e.program "y" == some 1) = true := by
    decide +kernel
  obtain ⟨compiled, h⟩ := Runs.exists_of_isOk hok
  -- The theorem, at the assignment of the program.
  obtain ⟨a, ℓ, -, -, hparallel⟩ := compile_parallel (by decide +kernel) h
  obtain ⟨⟨body, result, p, start, mid, stop, stages, transfers, hbody, hassigns⟩, hall⟩ :=
    hparallel 12 (by decide +kernel) [4, 5, 6] [7, 10, 11] rfl
  refine ⟨compiled, h, ⟨_, p, start, mid, stop, stages, transfers, hbody.mem,
    hall _ _ _ _ _ _ _ _ hbody hassigns⟩, ?_⟩
  cases he : compileAndRun .swapsAround (.unset 14) 13 "" .unlimited (.constant 0)
      (.initial ()) with
  | mk outcome s =>
    rw [he] at hrun
    cases outcome with
    | error e => cases hrun
    | ok e =>
      simp only [Except.toOption, Option.any_some, Bool.and_eq_true, beq_iff_eq] at hrun
      exact ⟨e, s, rfl, hrun⟩

end MiddleEnd
