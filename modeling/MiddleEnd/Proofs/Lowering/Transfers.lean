import MiddleEnd.Proofs.Lowering.Declared
import MiddleEnd.Proofs.Lowering.Origins

/-!
# Parallel assignments

The values of a parallel assignment are evaluated in their order, each into a register that no
declaration has: what is in the register of a declaration is copied out of it at once.  Behind the
last of them the copies to the targets follow, in the order of the targets.

## Main definitions

* `Staged`, `Transfer` — a value with the positions of its code, and its copy to a target.
* `StagesAt`, `TransfersAt` — the code of the values, and of the copies.
* `AssignsAt` — where the code of a parallel assignment is in a procedure.
* `Assigning` — what is around that code.

## Main results

* `StagesAt.pairwise` — **staged values are in registers of their own**.
* `StagesAt.exists_writer` — the register of a staged value is written where that is evaluated.
* `TransfersAt.lines` — **only the copies write registers of declarations**.
* `Implements.assignsAt` — **every parallel assignment is in the code of some procedure**.
* `AssignsAt.assigning` — targets have been declared where their values are evaluated.
-/

namespace MiddleEnd

open Layout

/-- A value of a parallel assignment.  Its code begins at `start` and ends at `read`, with the value
in `register`; at `stop` it is in `kept`, out of the way of all stores. -/
structure Staged where
  /-- Where its code begins. -/
  start : Nat
  /-- Where its code ends. -/
  read : Nat
  /-- Where it is out of the way. -/
  stop : Nat
  /-- The register it has at `read`. -/
  register : Register
  /-- The register it has from `stop` on. -/
  kept : Register

/-- The copy of a staged value to the register `home` of a target, at the position `copied`. -/
structure Transfer where
  /-- What is assigned. -/
  target : NodeId
  /-- What is stored in it. -/
  value : NodeId
  /-- Where the value is kept. -/
  staged : Staged
  /-- The register of the target. -/
  home : Register
  /-- The position of the copy. -/
  copied : Nat

/-- The target and the value that a copy is for. -/
def Transfer.entry (a : Transfer) : NodeId × NodeId × Option Staged :=
  (a.target, a.value, some a.staged)

/-- A target and its value, as lowering stores it. -/
def Staged.stored (e : NodeId × NodeId × Option Staged) : NodeId × NodeId × Option Register :=
  (e.1, e.2.1, e.2.2.map Staged.kept)

theorem Staged.map_stored (targets values : List NodeId) (stages : List (Option Staged)) :
    (targets.zip (values.zip stages)).map Staged.stored
      = targets.zip (values.zip (stages.map (Option.map Staged.kept))) := by
  rw [List.zip_map_right, List.zip_map_right]
  rfl

section

variable (c : LowerContext) (ℓ : Linkage)

/-- The code of the values of a parallel assignment, which begins at a position. -/
inductive StagesAt :
    List NodeId → Nat → Layout → List CodeLine → List (Option Staged) → Layout → Prop
  /-- There are no values. -/
  | nil {n : Nat} {l : Layout} : StagesAt [] n l [] [] l
  /-- The first value has no register. -/
  | missing {x : NodeId} {xs : List NodeId} {n : Nat} {l l₁ l' : Layout} {code rest : List CodeLine}
      {stages : List (Option Staged)} (h : Emits c ℓ x l code none l₁)
      (hrest : StagesAt xs (n + code.length) l₁ rest stages l') :
      StagesAt (x :: xs) n l (code ++ rest) (none :: stages) l'
  /-- The first value has one, and it is copied if that is a home. -/
  | staged {x : NodeId} {xs : List NodeId} {n : Nat} {l l₁ l' : Layout} {code rest : List CodeLine}
      {r : Register} {q : Piece} {stages : List (Option Staged)}
      (h : Emits c ℓ x l code (some r) l₁) (hq : q = l₁.stage r (c.typeOf x) (c.span x))
      (hrest : StagesAt xs (n + (code ++ q.code).length) q.layout rest stages l') :
      StagesAt (x :: xs) n l (code ++ q.code ++ rest)
        (some ⟨n, n + code.length, n + (code ++ q.code).length, r, q.value⟩ :: stages) l'

/-- The copies of staged values to the targets.  A target without a register gets none. -/
inductive TransfersAt : List (NodeId × NodeId × Option Staged) → Nat → Layout → List CodeLine →
    List Transfer → Layout → Prop
  /-- Nothing has been staged. -/
  | nil {n : Nat} {l : Layout} : TransfersAt [] n l [] [] l
  /-- The first value has no register. -/
  | missing {target value : NodeId} {entries : List (NodeId × NodeId × Option Staged)} {n : Nat}
      {l l' : Layout} {code : List CodeLine} {transfers : List Transfer}
      (hrest : TransfersAt entries n l code transfers l') :
      TransfersAt ((target, value, none) :: entries) n l code transfers l'
  /-- The first value is converted, and its target has no register. -/
  | homeless {target value : NodeId} {s : Staged} {entries : List (NodeId × NodeId × Option Staged)}
      {n : Nat} {l l' : Layout} {q : Piece} {code : List CodeLine} {transfers : List Transfer}
      (hq : q = l.convert s.kept (c.typeOf value) (c.typeOf target) (c.span target))
      (hhome : q.layout.home c target = none)
      (hrest : TransfersAt entries (n + q.code.length) q.layout code transfers l') :
      TransfersAt ((target, value, some s) :: entries) n l (q.code ++ code) transfers l'
  /-- The first value is converted and copied to the register of its target. -/
  | copied {target value : NodeId} {s : Staged} {entries : List (NodeId × NodeId × Option Staged)}
      {n : Nat} {l l' : Layout} {q : Piece} {home : Register} {code : List CodeLine}
      {transfers : List Transfer}
      (hq : q = l.convert s.kept (c.typeOf value) (c.typeOf target) (c.span target))
      (hhome : q.layout.home c target = some home)
      (hrest : TransfersAt entries (n + q.code.length + 1)
        (q.layout.wrote home (c.typeOf target)) code transfers l') :
      TransfersAt ((target, value, some s) :: entries) n l
        (q.code ++ [(⟨.copy, home, .register q.value, .none⟩, c.span target)] ++ code)
        (⟨target, value, s, home, n + q.code.length⟩ :: transfers) l'

/-- The code of a parallel assignment among the statements of `body`, whose procedure is `p`.  It
begins at `start`; at `mid` all values are evaluated, and the copies to the targets go on to
`stop`. -/
inductive AssignsAt (body id : NodeId) (targets values : List NodeId) (p : Procedure) :
    Nat → Nat → Nat → List (Option Staged) → List Transfer → Prop
  /-- The code of the statements before, of the values and the copies, and of the statements
  after. -/
  | code {before after : List NodeId} {first second : List (List CodeLine)}
      {code lines : List CodeLine} {l l₁ l₂ l₃ : Layout} {stages : List (Option Staged)}
      {transfers : List Transfer} (hshape : c.tree.shape id = .parallel targets values)
      (hstatements : c.tree.statements body = before ++ id :: after)
      (hbefore : EmitsItems (Emits c ℓ) before .initial first l)
      (hstages : StagesAt c ℓ values first.flatten.length l code stages l₁)
      (htransfers : TransfersAt c (targets.zip (values.zip stages))
        (first.flatten.length + code.length) l₁ lines transfers l₂)
      (hafter : EmitsItems (Emits c ℓ) after l₂ second l₃)
      (hcode : p.Has 0 (first.flatten ++ (code ++ lines) ++ second.flatten))
      (hregisters : p.registers = l₃.registers) (hnext : l₃.next ≤ p.nextRegister) :
      AssignsAt body id targets values p first.flatten.length (first.flatten.length + code.length)
        (first.flatten.length + (code ++ lines).length) stages transfers

end

variable {c : LowerContext} {ℓ : Linkage} {x : NodeId} {values : List NodeId} {n : Nat}
  {l l₁ l' : Layout} {code : List CodeLine} {p : Procedure} {r : Register} {s : Staged}
  {stages : List (Option Staged)} {entries : List (NodeId × NodeId × Option Staged)}
  {transfers : List Transfer} {a : Transfer}

/-! ### Values -/

/-- The code of values has its positions. -/
theorem EmitsStages.stagesAt {vs : List (Option Register)}
    (h : EmitsStages c (Emits c ℓ) values l code vs l') (n : Nat) :
    ∃ stages, StagesAt c ℓ values n l code stages l'
      ∧ vs = stages.map (Option.map Staged.kept) := by
  induction h generalizing n with
  | nil => exact ⟨[], .nil, rfl⟩
  | missing h _ ih =>
    obtain ⟨stages, hrest, rfl⟩ := ih _
    exact ⟨_, .missing h hrest, rfl⟩
  | staged h hp _ ih =>
    obtain ⟨stages, hrest, rfl⟩ := ih _
    exact ⟨_, .staged h hp hrest, rfl⟩

namespace StagesAt

theorem emits (h : StagesAt c ℓ values n l code stages l') :
    EmitsStages c (Emits c ℓ) values l code (stages.map (Option.map Staged.kept)) l' := by
  induction h with
  | nil => exact .nil
  | missing h _ ih => exact .missing h ih
  | staged h hq _ ih => exact .staged h hq ih

theorem length (h : StagesAt c ℓ values n l code stages l') : stages.length = values.length := by
  induction h with
  | nil => rfl
  | missing _ _ ih | staged _ _ _ ih => simp [ih]

/-- Staged values are evaluated in the code. -/
theorem within (h : StagesAt c ℓ values n l code stages l') (hs : some s ∈ stages) :
    n ≤ s.start ∧ s.start ≤ s.read ∧ s.read ≤ s.stop ∧ s.stop ≤ n + code.length := by
  induction h with
  | nil => cases hs
  | missing _ _ ih =>
    have hrest := ih ((List.mem_cons.1 hs).resolve_left fun h => by cases h)
    simp only [List.length_append]
    omega
  | staged _ _ _ ih =>
    simp only [List.length_append] at ih hs ⊢
    rcases List.mem_cons.1 hs with hs | hs
    · obtain rfl := Option.some.inj hs
      simp only
      omega
    · have hrest := ih hs
      omega

/-- A value has been staged unless it has none. -/
theorem exists_staged (h : StagesAt c ℓ values n l code stages l') {stage : Option Staged}
    (hmem : (x, stage) ∈ values.zip stages) (hvalued : c.Valued x) : ∃ s, stage = some s := by
  induction h with
  | nil => cases hmem
  | missing h _ ih =>
    rcases List.mem_cons.1 hmem with heq | hmem
    · cases heq
      cases (Emits.rule_iff.1 h).1.2 hvalued
    · exact ih hmem
  | staged _ _ _ ih =>
    rcases List.mem_cons.1 hmem with heq | hmem
    · cases heq
      exact ⟨_, rfl⟩
    · exact ih hmem

section

variable (hc : c.Sound)
  (hvalues : ∀ x ∈ values, x ∈ c.tree.preorder c.root ∧ (c.tree.shape x).isExpr = true)

include hc hvalues

theorem computesNode {y : NodeId} (hy : y ∈ values) (l : Layout) (code : List CodeLine)
    (v : Option Register) (l' : Layout) (h : Emits c ℓ y l code v l') :
    ComputesNode y l code v l' :=
  h.computes hc.tree (hvalues y hy).1 (hvalues y hy).2

theorem computes (h : StagesAt c ℓ values n l code stages l') (hl : l.Ordered) : Computes l l' :=
  h.emits.computes (fun _ hx => computesNode hc hvalues hx) hl

/-- What has been staged is in a new register, which no declaration has. -/
theorem free (h : StagesAt c ℓ values n l code stages l') (hl : l.Ordered) (hs : some s ∈ stages) :
    l.next ≤ s.kept ∧ s.kept < l'.next ∧ l'.bound.contains s.kept = false :=
  h.emits.free (fun _ hx => computesNode hc hvalues hx) hl s.kept
    (List.mem_map.2 ⟨some s, hs, rfl⟩)

/-- Registers that have been given out to no declaration are left alone. -/
theorem ne (h : StagesAt c ℓ values n l code stages l') (hl : l.Ordered) (hr : l.Given r)
    (hfree : l.bound.contains r = false) : ∀ line ∈ code, line.1.out ≠ r := by
  intro line hline
  obtain ⟨x, -, hwrites⟩ := h.emits.writes (fun x hx l code v l' h =>
    ⟨h.writes hc (hvalues x hx).1 (hvalues x hx).2, computesNode hc hvalues hx l code v l' h⟩) hl
      line
    hline
  exact hwrites.ne_of_free hl hr hfree

theorem straight (h : StagesAt c ℓ values n l code stages l') : Straight code := by
  refine h.emits.straight (fun _ _ _ _ _ hx h => h.straight hc hx) fun x hx => ?_
  obtain ⟨hmem, hexpr⟩ := hvalues x hx
  exact ⟨hmem, Shape.standsAlone_of_part (by simp [hexpr])⟩

/-- **Staged values are in registers of their own**, and they are evaluated one after the other. -/
theorem pairwise (h : StagesAt c ℓ values n l code stages l') (hl : l.Ordered) :
    (stages.filterMap id).Pairwise fun s s' => s.stop ≤ s'.start ∧ s.kept < s'.kept := by
  induction h with
  | nil => exact .nil
  | missing h _ ih =>
    obtain ⟨hcode, -⟩ := computesNode hc hvalues (.head _) _ _ _ _ h hl
    simp only [List.filterMap_cons, id_eq]
    exact ih (fun x hx => hvalues x (.tail _ hx)) hcode.ordered
  | @staged x _ _ _ _ _ _ _ r _ stages h hq hrest ih =>
    subst hq
    have hrestValues := fun x hx => hvalues x (.tail _ hx)
    obtain ⟨hcode, hvalue⟩ := computesNode hc hvalues (.head _) _ _ _ _ h hl
    obtain ⟨hstage, hgives, -⟩ := hcode.stage (hvalue r rfl) (c.typeOf x) (c.span x)
    simp only [List.filterMap_cons, id_eq, List.pairwise_cons]
    refine ⟨fun s hs => ?_, ih hrestValues hstage.ordered⟩
    have hs : some s ∈ stages := by simpa using hs
    have hnew := (hrest.free hc hrestValues hstage.ordered hs).1
    exact ⟨(hrest.within hs).1, Nat.lt_of_lt_of_le hgives.lt hnew⟩

/-- The register of a staged value is written where that is evaluated. -/
theorem exists_writer (h : StagesAt c ℓ values n l code stages l') (hl : l.Ordered)
    (hhas : p.Has n code) (hs : some s ∈ stages) :
    ∃ k i, s.start ≤ k ∧ k < s.stop ∧ p.code[k]? = some i ∧ i.out = s.kept := by
  induction h with
  | nil => cases hs
  | missing h _ ih =>
    obtain ⟨hcode, -⟩ := computesNode hc hvalues (.head _) _ _ _ _ h hl
    exact ih (fun x hx => hvalues x (.tail _ hx)) hcode.ordered hhas.append.2
      ((List.mem_cons.1 hs).resolve_left fun h => by cases h)
  | @staged x xs n l l₁ _ code _ r q _ h hq hrest ih =>
    obtain ⟨hmem, hexpr⟩ := hvalues x (.head _)
    -- Every new register of the value and its stage is written by some line.
    have htraced :=
      (h.traced hc hmem (Shape.isItem_of_isExpr hexpr) n hhas.append.1.append.1 hl).trans
      (.stage (h.ordered hl).1 r (c.typeOf x) (c.span x))
    obtain ⟨hcode, hvalue⟩ := h.computes hc.tree hmem hexpr hl
    obtain ⟨hstage, hgives, hfree⟩ := hcode.stage (hvalue r rfl) (c.typeOf x) (c.span x)
    rw [← hq] at htraced hstage hgives hfree
    rcases List.mem_cons.1 hs with hs | hs
    · obtain rfl := Option.some.inj hs
      refine hhas.append.1.exists_iff.2 ?_
      -- A stage is a register of its own.
      have hnew : l.next ≤ q.value := hgives.origin.resolve_left fun hbound => by
        rw [← hstage.bound, hfree] at hbound
        cases hbound
      rcases htraced.given q.value hnew hgives.lt with hline | ⟨d, _, _, _, hd⟩
      · exact hline
      · rw [htraced.ordered.bound d _ hd] at hfree
        cases hfree
    · -- The value is one of the later ones.
      exact ih (fun x hx => hvalues x (.tail _ hx)) hstage.ordered hhas.append.2 hs

end

end StagesAt

/-! ### Copies -/

/-- The copies of staged values have their positions. -/
theorem Layout.transfersAt (c : LowerContext) (l : Layout)
    (entries : List (NodeId × NodeId × Option Staged)) (n : Nat) :
    ∃ transfers, TransfersAt c entries n l (l.storeAll c (entries.map Staged.stored)).1 transfers
      (l.storeAll c (entries.map Staged.stored)).2 := by
  induction entries generalizing l n with
  | nil => exact ⟨[], .nil⟩
  | cons e entries ih =>
    obtain ⟨target, value, _ | s⟩ := e
    · obtain ⟨transfers, hrest⟩ := ih l n
      exact ⟨transfers, .missing hrest⟩
    · generalize hq : l.convert s.kept (c.typeOf value) (c.typeOf target) (c.span target) = q
      simp only [List.map_cons, Staged.stored, Option.map_some, storeAll, hq]
      cases hhome : q.layout.home c target with
      | none =>
        obtain ⟨transfers, hrest⟩ := ih q.layout (n + q.code.length)
        exact ⟨transfers, by simpa [store] using TransfersAt.homeless hq.symm hhome hrest⟩
      | some home =>
        obtain ⟨transfers, hrest⟩ :=
          ih (q.layout.wrote home (c.typeOf target)) (n + q.code.length + 1)
        exact ⟨_, TransfersAt.copied hq.symm hhome hrest⟩

section

variable {target : NodeId} {home : Register} {q : Piece} {source dest : Ty} {span : Span}

theorem Layout.Computes.home_eq (h : Computes l l') (c : LowerContext) (target : NodeId) :
    l'.home c target = l.home c target := by
  unfold Layout.home
  rw [h.registers]

theorem Layout.Ordered.converts (hl : l.Ordered) (hq : q = l.convert r source dest span) :
    Computes l q.layout :=
  hq ▸ hl.convert r source dest span

/-- A value is converted and copied. -/
theorem Layout.Ordered.copied (hl : l.Ordered) (hq : q = l.convert r source dest span)
    (hhome : q.layout.home c target = some home) :
    Computes l (q.layout.wrote home (c.typeOf target)) := by
  have hconvert := hl.converts hq
  exact hconvert.trans (hconvert.ordered.wrote (hconvert.ordered.home_contains hhome) _)

end

namespace TransfersAt

theorem storeAll_eq (h : TransfersAt c entries n l code transfers l') :
    l.storeAll c (entries.map Staged.stored) = (code, l') := by
  induction h with
  | nil => rfl
  | missing _ ih => exact ih
  | homeless hq hhome _ ih =>
    simp only [List.map_cons, Staged.stored, Option.map_some, storeAll, ← hq, hhome, store, ih,
      List.append_nil]
  | copied hq hhome _ ih =>
    simp only [List.map_cons, Staged.stored, Option.map_some, storeAll, ← hq, hhome, store, ih]

theorem computes (h : TransfersAt c entries n l code transfers l') (hl : l.Ordered) :
    Computes l l' := by
  have hstores := hl.storeAll (c := c) (entries.map Staged.stored)
  rwa [h.storeAll_eq] at hstores

theorem straight (h : TransfersAt c entries n l code transfers l') : Straight code := by
  have hstores := Straight.storeAll c l (entries.map Staged.stored)
  rwa [h.storeAll_eq] at hstores

/-- The copies are in the order of the targets. -/
theorem sublist (h : TransfersAt c entries n l code transfers l') :
    (transfers.map Transfer.entry).Sublist entries := by
  induction h with
  | nil => exact .slnil
  | missing _ ih | homeless _ _ _ ih => exact ih.cons _
  | copied _ _ _ ih => exact ih.cons_cons _

/-- The copies are in the code. -/
theorem within (h : TransfersAt c entries n l code transfers l') (ha : a ∈ transfers) :
    n ≤ a.copied ∧ a.copied < n + code.length := by
  induction h with
  | nil => cases ha
  | missing _ ih => exact ih ha
  | homeless _ _ _ ih =>
    have hrest := ih ha
    simp only [List.length_append]
    omega
  | copied _ _ _ ih =>
    simp only [List.length_append, List.length_singleton]
    rcases List.mem_cons.1 ha with rfl | ha
    · simp only
      omega
    · have hrest := ih ha
      omega

/-- The copies are made one after the other. -/
theorem pairwise (h : TransfersAt c entries n l code transfers l') :
    transfers.Pairwise fun a a' => a.copied < a'.copied := by
  induction h with
  | nil => exact .nil
  | missing _ ih | homeless _ _ _ ih => exact ih
  | copied _ _ hrest ih => exact List.pairwise_cons.2 ⟨fun a ha => (hrest.within ha).1, ih⟩

/-- Copies are copies, in the code of the procedure. -/
theorem copies (h : TransfersAt c entries n l code transfers l') (hhas : p.Has n code)
    (ha : a ∈ transfers) : ∃ r, p.code[a.copied]? = some ⟨.copy, a.home, .register r, .none⟩ := by
  induction h with
  | nil => cases ha
  | missing _ ih => exact ih hhas ha
  | homeless _ _ _ ih => exact ih hhas.append.2 ha
  | copied _ _ _ ih =>
    have hrest := hhas.append.2
    rw [List.length_append, ← Nat.add_assoc] at hrest
    rcases List.mem_cons.1 ha with rfl | ha
    · exact ⟨_, hhas.append.1.append.2.head.1⟩
    · exact ih hrest ha

section

variable (hl : l.Ordered)

include hl

/-- The copies are made to the registers of the targets. -/
theorem home_eq (h : TransfersAt c entries n l code transfers l') (ha : a ∈ transfers) :
    l.home c a.target = some a.home := by
  induction h with
  | nil => cases ha
  | missing _ ih => exact ih hl ha
  | homeless hq _ _ ih =>
    have hconvert := hl.converts hq
    exact (hconvert.home_eq c _).symm.trans (ih hconvert.ordered ha)
  | copied hq hhome _ ih =>
    have hconvert := hl.converts hq
    have hcopied := hl.copied hq hhome
    rcases List.mem_cons.1 ha with rfl | ha
    · exact (hconvert.home_eq c _).symm.trans hhome
    · exact (hcopied.home_eq c _).symm.trans (ih hcopied.ordered ha)

/-- A staged value is copied if its target has a register. -/
theorem exists_transfer (h : TransfersAt c entries n l code transfers l') {target value : NodeId}
    {home : Register} (hmem : (target, value, some s) ∈ entries)
    (hhome : l.home c target = some home) : ∃ a ∈ transfers, a.entry = (target, value, some s) := by
  induction h with
  | nil => cases hmem
  | missing _ ih =>
    -- The entry is there to be copied, so it is not one that is left out.
    rcases List.mem_cons.1 hmem with heq | hmem
    · cases heq
    · exact ih hl hmem hhome
  | homeless hq hnone _ ih =>
    have hconvert := hl.converts hq
    rcases List.mem_cons.1 hmem with heq | hmem
    · -- Converting a value does not move the home of its target.
      cases heq
      rw [hconvert.home_eq, hhome] at hnone
      cases hnone
    · exact ih hconvert.ordered hmem ((hconvert.home_eq c _).trans hhome)
  | copied hq hsome _ ih =>
    have hcopied := hl.copied hq hsome
    rcases List.mem_cons.1 hmem with heq | hmem
    · cases heq
      exact ⟨_, .head _, rfl⟩
    · obtain ⟨a, ha, heq⟩ := ih hcopied.ordered hmem ((hcopied.home_eq c _).trans hhome)
      exact ⟨a, .tail _ ha, heq⟩

omit hl in
/-- A line of a conversion and of the code after it writes a new register, or it is in that code. -/
theorem new_or_after {q : Piece} {rest : List CodeLine} {value : Register} {source dest : Ty}
    {span : Span} {k last : Nat} {line : CodeLine} (hq : q = l.convert value source dest span)
    (hend : q.layout.next ≤ last) (hline : (q.code ++ rest)[k]? = some line) :
    (l.next ≤ line.1.out ∧ line.1.out < last) ∨ ∃ j, k = q.code.length + j
    ∧ rest[j]? = some line := by
  rcases Nat.lt_or_ge k q.code.length with hlt | hge
  · rw [List.getElem?_append_left hlt] at hline
    obtain ⟨hout, hnext⟩ := out_of_convert hq (List.mem_of_getElem? hline)
    exact .inl ⟨Nat.le_of_eq hout.symm, hout ▸ Nat.lt_of_lt_of_le hnext hend⟩
  · obtain ⟨j, rfl⟩ := Nat.exists_eq_add_of_le hge
    rw [List.getElem?_append_right hge, Nat.add_sub_cancel_left] at hline
    exact .inr ⟨j, rfl, hline⟩

/-- **Only the copies write registers of declarations**: what else is written is new. -/
theorem lines (h : TransfersAt c entries n l code transfers l') {k : Nat} {line : CodeLine}
    (hline : code[k]? = some line) : (∃ a ∈ transfers, a.copied = n + k ∧ line.1.out = a.home)
      ∨ l.next ≤ line.1.out ∧ line.1.out < l'.next := by
  induction h generalizing k with
  | nil => simp at hline
  | missing _ ih => exact ih hl hline
  | homeless hq _ hrest ih =>
    have hconvert := hl.converts hq
    have hend := (hrest.computes hconvert.ordered).next_le
    -- A line of the conversion writes a new register, and what follows is the rest.
    rcases new_or_after hq hend hline with hnew | ⟨j, rfl, hafter⟩
    · exact .inr hnew
    rcases ih hconvert.ordered hafter with ⟨a, ha, hk, hout⟩ | ⟨hle, hlt⟩
    · exact .inl ⟨a, ha, by omega, hout⟩
    · exact .inr ⟨Nat.le_trans hconvert.next_le hle, hlt⟩
  | copied hq hhome hrest ih =>
    have hconvert := hl.converts hq
    have hcopied := hl.copied hq hhome
    have hend := (hrest.computes hcopied.ordered).next_le
    rw [List.append_assoc] at hline
    rcases new_or_after hq hend hline with hnew | ⟨j, rfl, hafter⟩
    · exact .inr hnew
    -- The line after the conversion is the copy.
    cases j with
    | zero =>
      obtain rfl := Option.some.inj hafter
      exact .inl ⟨_, .head _, rfl, rfl⟩
    | succ j =>
      rcases ih hcopied.ordered hafter with ⟨a, ha, hk, hout⟩ | ⟨hle, hlt⟩
      · exact .inl ⟨a, .tail _ ha, by omega, hout⟩
      · exact .inr ⟨Nat.le_trans hcopied.next_le hle, hlt⟩

end

end TransfersAt

/-! ### Procedures -/

section

variable {P : Program} {body id : NodeId} {targets : List NodeId} {start mid stop : Nat}

/-- **Every parallel assignment is in the code of some procedure.** -/
theorem Implements.assignsAt (hc : c.Sound) (hP : Implements c ℓ P)
    (hid : id ∈ c.tree.preorder c.root) (hshape : c.tree.shape id = .parallel targets values) :
    ∃ body result p start mid stop stages transfers, BodyOf c ℓ P body result p
      ∧ AssignsAt c ℓ body id targets values p start mid stop stages transfers := by
  obtain ⟨body, result, p, hbody, hmem⟩ := hP.exists_body hc hid (by rw [hshape]; rfl)
  obtain @⟨_, v, l₃, _, hemits, rfl, hcode, hspans, hregisters, hnext, -, -⟩ := hP.compiles hbody
  -- The statements before it, its own code, and the statements after it.
  obtain ⟨pieces, hitems, rfl⟩ := hemits.statements
  obtain ⟨before, after, hstatements⟩ := List.append_of_mem hmem
  rw [hstatements] at hitems
  obtain ⟨first, l, rest, hbefore, hrest, rfl⟩ := hitems.split
  cases hrest with
  | @cons _ _ _ l₂ _ part second _ hx hafter =>
    -- By its shape the code is that of a parallel assignment.
    have hrule := (Emits.rule_iff.1 hx).2
    rw [hshape] at hrule
    cases hrule with
    | inert hinert => cases hinert
    | @parallel _ _ _ l₁ code vs lines _ hvalues hstores =>
      have hemitted : EmitsStages c (Emits c ℓ) values l code vs l₁ :=
        hvalues.mono fun _ _ _ _ _ _ h => h.2
      -- The same code with the stages and the copies numbered by the lines of the procedure.
      obtain ⟨stages, hstages, rfl⟩ := hemitted.stagesAt first.flatten.length
      obtain ⟨transfers, htransfers⟩ := l₁.transfersAt c (targets.zip (values.zip stages))
        (first.flatten.length + code.length)
      rw [Staged.map_stored, hstores] at htransfers
      refine ⟨body, result, p, _, _, _, stages, transfers, hbody,
        .code hshape hstatements hbefore hstages htransfers hafter ?_ ?_ ?_⟩
      · have hhas := (Procedure.has_of_toList hcode hspans).append.1
        simpa using hhas
      · rw [hregisters, Layout.registers_convertLast]
      · rw [hnext]
        exact ((hemits.ordered .initial).1.convertLast _ _).next_le

/-- What is around the code of a parallel assignment: the layouts before it, behind its values and
behind its copies, and what the procedure makes of them. -/
structure Assigning (c : LowerContext) (ℓ : Linkage) (targets values : List NodeId) (p : Procedure)
    (start mid stop : Nat) (stages : List (Option Staged)) (transfers : List Transfer)
    (code lines : List CodeLine) (l l₁ l₂ : Layout) : Prop where
  /-- The homes are as they should be before the values. -/
  ordered : l.Ordered
  /-- The values are expressions of the tree. -/
  isExpr : ∀ x ∈ values, x ∈ c.tree.preorder c.root ∧ (c.tree.shape x).isExpr = true
  /-- The code of the values. -/
  stagesAt : StagesAt c ℓ values start l code stages l₁
  /-- The copies. -/
  transfersAt : TransfersAt c (targets.zip (values.zip stages)) mid l₁ lines transfers l₂
  /-- Both are in the procedure, one after the other. -/
  has : p.Has start (code ++ lines)
  /-- The copies begin where the values end. -/
  mid_eq : mid = start + code.length
  /-- They end at `stop`. -/
  stop_eq : stop = start + (code ++ lines).length
  /-- All of it is in the code of the procedure. -/
  stop_le : stop ≤ p.code.size
  /-- What is given out is in the frame. -/
  next_le : l₂.next ≤ p.nextRegister
  /-- Homes that declarations have before the values they have at the end. -/
  keeps : ∀ (d : NodeId) (r : Register), l.registers[d]? = some r → p.registers[d]? = some r
  /-- What is given out in between belongs to no declaration. -/
  new : ∀ r, l.next ≤ r → r < l₂.next → ∀ d : NodeId, p.registers[d]? ≠ some r
  /-- There are as many targets as values. -/
  length : targets.length = values.length
  /-- Numbers and characters have values, and their targets have been declared. -/
  declared : ∀ pair ∈ targets.zip values, (c.typeOf pair.2).hasKind = true →
    c.Valued pair.2 ∧ ∃ home, l.home c pair.1 = some home

/-- Registers that are given out where no declaration is belong to none. -/
theorem Layout.Computes.not_owned {l₂ : Layout} (h : Computes l l₁) (hl : l.Ordered)
    (hextends : l₁.Extends l₂) (hle : l.next ≤ r) (hlt : r < l₁.next) (d : NodeId) :
    l₂.registers[d]? ≠ some r := by
  intro hd
  cases hd₁ : l₁.registers[d]? with
  | none => exact Nat.not_le.2 hlt (hextends.fresh d r hd hd₁)
  | some r₁ =>
    obtain rfl := Option.some.inj ((hextends.homes d r₁ hd₁).symm.trans hd)
    rw [h.registers] at hd₁
    exact Nat.not_lt.2 hle (hl.given_home hd₁).2

theorem AssignsAt.assigning (hc : c.Sound) (hearlier : c.DeclaresEarlier) (hwithin : c.StoresWithin)
    (hbody : c.IsBody body)
    (h : AssignsAt c ℓ body id targets values p start mid stop stages transfers) :
    ∃ code lines l l₁ l₂,
      Assigning c ℓ targets values p start mid stop stages transfers code lines l l₁ l₂ := by
  obtain @⟨before, after, first, second, code, lines, l, l₁, l₂, l₃, _, _, hshape, hstatements,
    hbefore, hstages, htransfers, hafter, hcode, hregisters, hnext⟩ := h
  have hid : id ∈ c.tree.preorder c.root :=
    c.tree.mem_preorder_trans (hc.mem_of_isBody hbody)
      (Tree.of_mem_statements (by simp [hstatements])).1
  have hfits := hc.tree.fits id hid
  simp only [Tree.fits, hshape, Bool.and_eq_true, List.all_eq_true] at hfits
  -- The values are expressions.
  have hvalues : ∀ x ∈ values, x ∈ c.tree.preorder c.root ∧ (c.tree.shape x).isExpr = true :=
    fun x hx => ⟨hc.tree.child hid (by simp [Tree.children_of_shape hshape, Shape.children, hx]),
      hfits.2 x hx⟩
  obtain ⟨hl, -⟩ := hbefore.extends_of_statements hc hbody
    (fun x hx => by simp [hstatements, hx]) .initial
  -- The registers grow from the values over the copies to the end of the code.
  have hcomputes := hstages.computes hc hvalues hl
  have hcopies := htransfers.computes hcomputes.ordered
  obtain ⟨-, hextends⟩ := hafter.extends_of_statements hc hbody
    (fun x hx => by simp [hstatements, hx]) hcopies.ordered
  have hall := hcomputes.trans hcopies
  refine ⟨code, lines, l, l₁, l₂, ?_⟩
  exact
    { ordered := hl
      isExpr := hvalues
      stagesAt := hstages
      transfersAt := htransfers
      has := Nat.zero_add first.flatten.length ▸ hcode.append.1.append.2
      mid_eq := rfl
      stop_eq := rfl
      stop_le := by
        have hsize := hcode.length_le
        simp only [List.length_append] at hsize ⊢
        omega
      next_le := Nat.le_trans hextends.next_le hnext
      keeps := fun d r hr => hregisters ▸ (hall.toExtends.trans hextends).homes d r hr
      new := fun r hle hlt d => hregisters ▸ hall.not_owned hl hextends hle hlt d
      length := hc.length_parallel hid hshape
      declared := fun pair hpair hkind => by
        obtain ⟨htarget, hvalue⟩ := List.of_mem_zip hpair
        obtain ⟨hmem, hexpr⟩ := hvalues pair.2 hvalue
        refine ⟨hc.valued_of_hasKind hmem hexpr hkind, ?_⟩
        rw [(hc.hasKind_parallel hid hshape pair hpair).2] at hkind
        -- The target is declared before the assignment, and so it has a register by then.
        refine hc.exists_home hearlier hwithin hbody hstatements ?_ ?_ hkind hbefore
        · simpa [Tree.written, hshape, Shape.written] using htarget
        · refine c.tree.child_mem_preorder ?_
          simp [Tree.children_of_shape hshape, Shape.children, htarget] }

end

end MiddleEnd
