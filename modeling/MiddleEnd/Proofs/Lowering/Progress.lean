import MiddleEnd.Proofs.Compiler
import MiddleEnd.Proofs.Lowering.Emits

/-!
# Progress of lowering

Lowering remembers which procedure owns the register of each declaration, and which index each
procedure has.  Here is what it has to know where it comes to a node, and what is known once it has
left the node again.

## Main definitions

* `LowerContext.Sound` — a well-formed tree with sound names and types.
* `Lowering.Tracked` — the owners that are remembered agree with the registers of the procedure.
* `Lowering.Knows` — a declaration has an owner exactly if it has a value.
* `Lowering.Keeps` — a step after which the same declarations and procedures are known.
* `Lowering.Passed` — nodes have been lowered between two states, and all of them are known.
* `Lowering.Before` — what is known where a list of siblings begins.

## Main results

* `Lowering.Passed.trans` — nodes that are lowered one after the other.
* `Lowering.Before.next` — from one sibling to the next one.
* `Lowering.Before.children` — from a node to its children.
-/

namespace MiddleEnd

/-- A well-formed tree with sound names and types. -/
structure LowerContext.Sound (c : LowerContext) : Prop where
  /-- The tree is well formed. -/
  tree : c.tree.WellFormed c.root
  /-- Its names and types are as they should be. -/
  analysis : Analysis.Sound ⟨c.links, c.resolution, c.typing⟩ c.tree c.root

theorem LowerContext.Sound.hasType {c : LowerContext} (hc : c.Sound) {x : NodeId}
    (hx : x ∈ c.tree.preorder c.root) :
    Typing.HasType c.typingContext c.typing x (c.tree.shape x) (c.typeOf x) :=
  hc.analysis.wellTyped x hx

/-- The judgement on a node of a known shape, with a name for its type. -/
theorem LowerContext.Sound.judged {c : LowerContext} (hc : c.Sound) {x : NodeId} {shape : Shape}
    (hx : x ∈ c.tree.preorder c.root) (hshape : c.tree.shape x = shape) :
    ∃ τ, c.typeOf x = τ ∧ Typing.HasType c.typingContext c.typing x shape τ :=
  ⟨_, rfl, hshape ▸ hc.hasType hx⟩

namespace Tree

variable {t : Tree} {x : NodeId} {shape : Shape}

/-- A node that neither declares anything nor is a procedure. -/
def IsPlain (t : Tree) (x : NodeId) : Prop :=
  (t.shape x).isDeclaration = false ∧ (t.shape x).isProcedure = false

theorem isPlain_of_shape (hshape : t.shape x = shape)
    (h : shape.isDeclaration = false ∧ shape.isProcedure = false) : t.IsPlain x := by
  unfold IsPlain
  rw [hshape]
  exact h

theorem children_of_shape (hshape : t.shape x = shape) : t.children x = shape.children := by
  rw [children, hshape]

end Tree

namespace Lowering

variable {c : LowerContext} {ℓ : Linkage} {s s₁ s₂ s' : Lowering}

/-- The owners that are remembered agree with the registers of the procedure being lowered. -/
structure Tracked (s : Lowering) : Prop extends Sound s where
  /-- A declaration has a register in the procedure being lowered exactly if that is its owner. -/
  owned : ∀ d : NodeId, (∃ r, s.current.registers[d]? = some r) ↔ s.ownerOf[d]? = some s.frame.index
  /-- Owners are procedures of the program. -/
  owners_lt : ∀ (d : NodeId) (j : Nat), s.ownerOf[d]? = some j → j < s.program.procedures.size

theorem Tracked.register_none (hs : s.Tracked) {d : NodeId} (hd : s.ownerOf[d]? = none) :
    s.layout.registers[d]? = none := by
  cases hr : s.layout.registers[d]? with
  | none => rfl
  | some r =>
    rw [(hs.owned d).1 ⟨r, hr⟩] at hd
    cases hd

/-- A declaration has an owner exactly if it has a value, and it has one if its type has a kind. -/
structure Knows (c : LowerContext) (s : Lowering) (d : NodeId) : Prop where
  /-- It has an owner exactly if it has a value in a register. -/
  valued : s.ownerOf[d]?.isSome = true ↔ c.Valued d
  /-- It has one if its type has a kind. -/
  kinded : (c.typeOf d).hasKind = true → s.ownerOf[d]?.isSome = true

/-- The program so far is part of a finished one. -/
structure Linked (ℓ : Linkage) (s : Lowering) : Prop where
  /-- The constants so far are the first ones of the finished program. -/
  constants : s.program.constants.toList <+: ℓ.constants.toList
  /-- So is the native code so far. -/
  natives : s.program.natives.toList <+: ℓ.natives.toList
  /-- Procedures that have been opened have their index there. -/
  targets : ∀ (q : NodeId) (j : Nat), s.procedureOf[q]? = some j → ℓ.targets[q]? = some j

theorem Linked.constant (h : s.Linked ℓ) {index : Nat} {w : Word}
    (hw : s.program.constants[index]? = some w) : ℓ.constants[index]? = some w := by
  obtain ⟨hindex, rfl⟩ := Array.getElem?_eq_some_iff.1 hw
  have hget := List.prefix_iff_getElem?.1 h.constants index (by simpa using hindex)
  simpa using hget

theorem Linked.native (h : s.Linked ℓ) {index : Nat} {call : NativeCall}
    (hcall : s.program.natives[index]? = some call) : ℓ.natives[index]? = some call := by
  obtain ⟨hindex, rfl⟩ := Array.getElem?_eq_some_iff.1 hcall
  have hget := List.prefix_iff_getElem?.1 h.natives index (by simpa using hindex)
  simpa using hget

/-- A procedure that was opened after `s` has its code in `s'`. -/
def Finished (c : LowerContext) (ℓ : Linkage) (s : Lowering) (q : NodeId) (s' : Lowering) : Prop :=
  ∃ j p, s.program.procedures.size ≤ j ∧ s'.procedureOf[q]? = some j
    ∧ s'.program.procedures[j]? = some p
    ∧ (s'.Linked ℓ → ∃ result body, c.tree.shape q = .procedure result body
        ∧ Compiles c ℓ body (result.map c.typeOf) p)

/-! ### Steps that keep what is known -/

/-- A step after which the same declarations and procedures are known. -/
structure Keeps (s s' : Lowering) : Prop where
  /-- Registers and indices are in range afterwards. -/
  sound : s'.Sound
  /-- The code has only grown. -/
  grows : s.Grows s'
  /-- Declarations have the same owners. -/
  owners : s'.ownerOf = s.ownerOf
  /-- The same procedures have been opened. -/
  procedures : s'.procedureOf = s.procedureOf
  /-- The same declarations have registers. -/
  registers : s'.current.registers = s.current.registers

namespace Keeps

theorem refl (hs : s.Sound) : s.Keeps s := ⟨hs, .refl s, rfl, rfl, rfl⟩

theorem trans (h : s.Keeps s₁) (h' : s₁.Keeps s₂) : s.Keeps s₂ :=
  ⟨h'.sound, h.grows.trans h'.grows, h'.owners.trans h.owners, h'.procedures.trans h.procedures,
    h'.registers.trans h.registers⟩

theorem emitted (hs : s.Sound) {i : Instruction} (hi : i.Fits s.program s.current.nextRegister)
    (ty : Ty) (span : Span) : s.Keeps (s.emitted i ty span) := by
  have hadv := Advances.emitted hs hi ty span
  refine ⟨hadv.sound, hadv.grows, rfl, rfl, ?_⟩
  unfold Lowering.emitted
  rw [current_onCurrent _ hs.frame, Procedure.registers_extend]

theorem computed (hs : s.Sound) {i : Instruction}
    (hi : i.Fits s.program (s.current.nextRegister + 1)) (ty : Ty) (span : Span) :
    s.Keeps (s.allocated.emitted i ty span) := by
  have hadv := Advances.computed hs hi ty span
  refine ⟨hadv.sound, hadv.grows, rfl, rfl, ?_⟩
  have hs₁ := (Advances.allocated hs).sound
  unfold Lowering.emitted
  rw [current_onCurrent _ hs₁.frame, Procedure.registers_extend]
  unfold Lowering.allocated
  rw [current_onCurrent _ hs.frame, Procedure.registers_allocate]

theorem allocated (hs : s.Sound) : s.Keeps s.allocated := by
  have hadv := Advances.allocated hs
  refine ⟨hadv.sound, hadv.grows, rfl, rfl, ?_⟩
  unfold Lowering.allocated
  rw [current_onCurrent _ hs.frame, Procedure.registers_allocate]

theorem withConstant (hs : s.Sound) (w : Word) : s.Keeps (s.withConstant w) :=
  ⟨hs.withConstant w, .withConstant w, rfl, rfl, rfl⟩

theorem withNative (hs : s.Sound) (call : NativeCall) : s.Keeps (s.withNative call) :=
  ⟨hs.withNative call, .withNative call, rfl, rfl, rfl⟩

theorem tracked (h : s.Keeps s') (hs : s.Tracked) : s'.Tracked where
  toSound := h.sound
  owned d := by
    rw [h.registers, h.owners, h.grows.index]
    exact hs.owned d
  owners_lt d j hj := by
    rw [h.owners] at hj
    exact Nat.lt_of_lt_of_le (hs.owners_lt d j hj) h.grows.size

end Keeps

/-! ### Nodes that have been lowered -/

/-- The nodes in `P` have been lowered between two states, and all of them are known. -/
structure Passed (c : LowerContext) (ℓ : Linkage) (P : NodeId → Prop) (s s' : Lowering) :
    Prop where
  /-- Owners agree with registers afterwards. -/
  tracked : s'.Tracked
  /-- The code has only grown. -/
  grows : s.Grows s'
  /-- Other declarations have the same owners. -/
  owners : ∀ x : NodeId, ¬P x → s'.ownerOf[x]? = s.ownerOf[x]?
  /-- No other procedure has been opened. -/
  procedures : ∀ x : NodeId, ¬P x → s'.procedureOf[x]? = s.procedureOf[x]?
  /-- Procedures keep their index. -/
  targets : ∀ (q : NodeId) (j : Nat), s.procedureOf[q]? = some j → s'.procedureOf[q]? = some j
  /-- A new owner is the procedure being lowered, or one that has been opened in between. -/
  newOwners : ∀ (x : NodeId) (j : Nat), s'.ownerOf[x]? = some j →
    s.ownerOf[x]? = some j ∨ j = s.frame.index ∨ s.program.procedures.size ≤ j
  /-- The declarations among them are known. -/
  knows : ∀ d, P d → (c.tree.shape d).isDeclaration = true → Knows c s' d
  /-- The procedures among them have their code. -/
  finished : ∀ q, P q → (c.tree.shape q).isProcedure = true → Finished c ℓ s q s'

/-- What has been known stays known where nothing else happens. -/
theorem Keeps.passed (h : s.Keeps s') (hs : s.Tracked) {P : NodeId → Prop}
    (hP : ∀ x, P x → c.tree.IsPlain x) : Passed c ℓ P s s' where
  tracked := h.tracked hs
  grows := h.grows
  owners x _ := by rw [h.owners]
  procedures x _ := by rw [h.procedures]
  targets q j hj := by rw [h.procedures, hj]
  newOwners x j hj := .inl (by rw [← hj, h.owners])
  knows d hd hdecl := by
    rw [(hP d hd).1] at hdecl
    cases hdecl
  finished q hq hprocedure := by
    rw [(hP q hq).2] at hprocedure
    cases hprocedure

theorem Linked.before (h : s'.Linked ℓ) (hgrows : s.Grows s')
    (htargets : ∀ (q : NodeId) (j : Nat), s.procedureOf[q]? = some j →
      s'.procedureOf[q]? = some j) : s.Linked ℓ where
  constants := hgrows.constants.trans h.constants
  natives := hgrows.natives.trans h.natives
  targets q j hj := h.targets q j (htargets q j hj)

theorem Keeps.linked (h : s.Keeps s') (hℓ : s'.Linked ℓ) : s.Linked ℓ :=
  hℓ.before h.grows fun q j hj => by rw [h.procedures, hj]

namespace Passed

variable {P Q : NodeId → Prop}

theorem linked (h : Passed c ℓ P s s') (hℓ : s'.Linked ℓ) : s.Linked ℓ :=
  hℓ.before h.grows h.targets

theorem congr (h : Passed c ℓ P s s') (hPQ : ∀ x, P x ↔ Q x) : Passed c ℓ Q s s' := by
  obtain rfl : P = Q := funext fun x => propext (hPQ x)
  exact h

/-- A finished procedure is not touched by what comes later. -/
theorem finished_later (hs : s.Sound) (hgrows : s.Grows s₁) {q : NodeId}
    (h : Finished c ℓ s q s₁) (hpassed : Passed c ℓ P s₁ s₂) : Finished c ℓ s q s₂ := by
  obtain ⟨j, p, hj, htarget, hp, hcompiles⟩ := h
  -- Only the procedure of the frame is written to, which began before the finished one.
  refine ⟨j, p, hj, hpassed.targets q j htarget, ?_, fun hℓ => hcompiles (hpassed.linked hℓ)⟩
  refine hpassed.grows.others j ?_ p hp
  rw [hgrows.index]
  exact Nat.ne_of_gt (Nat.lt_of_lt_of_le hs.frame hj)

/-- Nodes that are lowered one after the other. -/
theorem trans (hs : s.Sound) (h : Passed c ℓ P s s₁) (h' : Passed c ℓ Q s₁ s₂)
    (hapart : ∀ x, P x → ¬Q x) : Passed c ℓ (fun x => P x ∨ Q x) s s₂ where
  tracked := h'.tracked
  grows := h.grows.trans h'.grows
  owners x hx := (h'.owners x fun hQ => hx (.inr hQ)).trans (h.owners x fun hP => hx (.inl hP))
  procedures x hx :=
    (h'.procedures x fun hQ => hx (.inr hQ)).trans (h.procedures x fun hP => hx (.inl hP))
  targets q j hj := h'.targets q j (h.targets q j hj)
  -- A new owner is older than the second part, or came in with it.
  newOwners x j hj := by
    rcases h'.newOwners x j hj with hj | hj | hj
    · exact h.newOwners x j hj
    · exact .inr (.inl (hj.trans h.grows.index))
    · exact .inr (.inr (Nat.le_trans h.grows.size hj))
  -- What the first part knows of a declaration, the second part leaves.
  knows d hd hdecl := by
    rcases hd with hd | hd
    · have hknows := h.knows d hd hdecl
      have hsame := h'.owners d (hapart d hd)
      exact ⟨hsame ▸ hknows.valued, fun hkind => hsame ▸ hknows.kinded hkind⟩
    · exact h'.knows d hd hdecl
  -- A procedure that has been lowered stays as it is.
  finished q hq hprocedure := by
    rcases hq with hq | hq
    · exact finished_later hs h.grows (h.finished q hq hprocedure) h'
    · obtain ⟨j, p, hj, hrest⟩ := h'.finished q hq hprocedure
      exact ⟨j, p, Nat.le_trans h.grows.size hj, hrest⟩

/-- A step after nodes have been lowered. -/
theorem keeps (hs : s.Sound) (h : Passed c ℓ P s s₁) (h' : s₁.Keeps s₂) : Passed c ℓ P s s₂ :=
  (h.trans hs (h'.passed (P := fun _ => False) h.tracked fun _ h => h.elim) fun _ _ h => h).congr
    (by simp)

/-- Nodes around others that are no declarations and no procedures. -/
theorem mono (h : Passed c ℓ P s s') (hPQ : ∀ x, P x → Q x)
    (hplain : ∀ x, Q x → ¬P x → c.tree.IsPlain x) : Passed c ℓ Q s s' where
  tracked := h.tracked
  grows := h.grows
  owners x hx := h.owners x fun hP => hx (hPQ x hP)
  procedures x hx := h.procedures x fun hP => hx (hPQ x hP)
  targets := h.targets
  newOwners := h.newOwners
  knows d hd hdecl := by
    by_cases hP : P d
    · exact h.knows d hP hdecl
    · rw [(hplain d hd hP).1] at hdecl
      cases hdecl
  finished q hq hprocedure := by
    by_cases hP : P q
    · exact h.finished q hP hprocedure
    · rw [(hplain q hq hP).2] at hprocedure
      cases hprocedure

/-- The nodes below `id`, if all but those in `P` declare nothing. -/
theorem around {id : NodeId} {shape : Shape} (h : Passed c ℓ P s s')
    (hshape : c.tree.shape id = shape) (hP : ∀ x, P x → x = id ∨ ∃ y ∈ shape.children,
      x ∈ c.tree.preorder y) (hid : P id ∨ c.tree.IsPlain id)
    (hchildren : ∀ x ∈ shape.children,
      (∀ y ∈ c.tree.preorder x, P y) ∨ ∀ y ∈ c.tree.preorder x, c.tree.IsPlain y) :
    Passed c ℓ (· ∈ c.tree.preorder id) s s' := by
  rw [← Tree.children_of_shape hshape] at hP hchildren
  refine h.mono (fun y hy => c.tree.mem_preorder.2 (hP y hy)) fun y hy hnot => ?_
  rcases c.tree.mem_preorder.1 hy with rfl | ⟨x, hx, hy⟩
  · exact hid.resolve_left hnot
  · rcases hchildren x hx with hall | hplain
    · exact (hnot (hall y hy)).elim
    · exact hplain y hy

/-- Some of the children have been lowered, and the others declare nothing. -/
theorem aroundChildren {id : NodeId} {shape : Shape} {xs : List NodeId}
    (h : Passed c ℓ (· ∈ xs.flatMap c.tree.preorder) s s') (hshape : c.tree.shape id = shape)
    (hself : shape.isDeclaration = false ∧ shape.isProcedure = false)
    (hxs : ∀ x ∈ xs, x ∈ shape.children)
    (hothers : ∀ y ∈ shape.children, y ∉ xs → ∀ z ∈ c.tree.preorder y, c.tree.IsPlain z) :
    Passed c ℓ (· ∈ c.tree.preorder id) s s' := by
  refine h.around hshape (fun y hy => ?_) (.inr (Tree.isPlain_of_shape hshape hself)) fun y hy => ?_
  · obtain ⟨x, hx, hy⟩ := List.mem_flatMap.1 hy
    exact .inr ⟨x, hxs x hx, hy⟩
  · by_cases hyx : y ∈ xs
    · exact .inl fun z hz => List.mem_flatMap.2 ⟨y, hyx, hz⟩
    · exact .inr (hothers y hy hyx)

/-- One child has been lowered, and the others declare nothing. -/
theorem aroundChild {id x : NodeId} {shape : Shape} (h : Passed c ℓ (· ∈ c.tree.preorder x) s s')
    (hshape : c.tree.shape id = shape)
    (hself : shape.isDeclaration = false ∧ shape.isProcedure = false) (hx : x ∈ shape.children)
    (hothers : ∀ y ∈ shape.children, y ≠ x → ∀ z ∈ c.tree.preorder y, c.tree.IsPlain z) :
    Passed c ℓ (· ∈ c.tree.preorder id) s s' := by
  have hone : Passed c ℓ (· ∈ [x].flatMap c.tree.preorder) s s' :=
    h.congr fun y => by rw [List.flatMap_cons, List.flatMap_nil, List.append_nil]
  refine hone.aroundChildren hshape hself (fun y hy => ?_) fun y hy hyx => hothers y hy fun heq =>
    hyx (heq ▸ .head _)
  obtain rfl := List.mem_singleton.1 hy
  exact hx

/-- The only child has been lowered. -/
theorem aroundOnly {id x : NodeId} {shape : Shape} (h : Passed c ℓ (· ∈ c.tree.preorder x) s s')
    (hshape : c.tree.shape id = shape)
    (hself : shape.isDeclaration = false ∧ shape.isProcedure = false)
    (honly : shape.children = [x]) : Passed c ℓ (· ∈ c.tree.preorder id) s s' :=
  h.aroundChild hshape hself (by simp [honly]) fun y hy hyx => by simp_all

/-- The initial value of a declaration has been lowered, and then its name has become known. -/
theorem declared {id init : NodeId} (hs : s.Sound)
    (h : Passed c ℓ (· ∈ c.tree.preorder init) s s₁) (hself : Passed c ℓ (· = id) s₁ s₂)
    (hinit : init ∈ c.tree.children id)
    (hothers : ∀ x ∈ c.tree.children id, x ≠ init → ∀ y ∈ c.tree.preorder x, c.tree.IsPlain y) :
    Passed c ℓ (· ∈ c.tree.preorder id) s s₂ := by
  have hid : id ∉ c.tree.preorder init := fun hmem =>
    Nat.not_le_of_lt (c.tree.child_lt hinit) (c.tree.le_of_mem_preorder hmem)
  refine (h.trans hs hself fun x hx hx' => hid (hx' ▸ hx)).around rfl (fun x hx => ?_)
    (.inl (.inr rfl)) fun x hx => ?_
  · rcases hx with hx | rfl
    · exact .inr ⟨init, hinit, hx⟩
    · exact .inl rfl
  · by_cases hxi : x = init
    · exact .inl fun y hy => .inl (hxi ▸ hy)
    · exact .inr (hothers x hx hxi)

end Passed

/-- A declaration without a value is known as it is. -/
theorem Tracked.untied (hs : s.Tracked) {d : NodeId} (hd : s.ownerOf[d]? = none)
    (hdecl : (c.tree.shape d).isDeclaration = true) (hvalued : ¬c.Valued d)
    (hkind : (c.typeOf d).hasKind = false) : Passed c ℓ (· = d) s s where
  tracked := hs
  grows := .refl s
  owners _ _ := rfl
  procedures _ _ := rfl
  targets _ _ hj := hj
  newOwners _ _ hj := .inl hj
  knows x hx _ := by
    subst hx
    exact ⟨by simp [hd, hvalued], fun h => by simp [hkind] at h⟩
  finished x hx hprocedure := by
    subst hx
    cases hshape : c.tree.shape x <;> simp_all [Shape.isProcedure, Shape.isDeclaration,
      Shape.declaredName?]

/-- A declaration that is given a register is known. -/
theorem Tracked.tie (hs : s.Tracked) {d : NodeId} {r : Register} (hr : s.Holds r)
    (hdecl : (c.tree.shape d).isDeclaration = true) (hvalued : c.Valued d) :
    Passed c ℓ (· = d) s (s.tie c d r) := by
  have hadv := Advances.tied hs.toSound hr c d
  have hindex : (s.tie c d r).frame.index = s.frame.index := rfl
  -- The table of owners and the registers of the current procedure have one more entry each.
  have howner : ∀ x : NodeId, (s.tie c d r).ownerOf[x]?
      = if d = x then some s.frame.index else s.ownerOf[x]? := by
    intro x
    show (s.ownerOf.insert d s.frame.index)[x]? = _
    simp [Std.TreeMap.getElem?_insert]
  have hregister : ∀ x : NodeId, (s.tie c d r).current.registers[x]?
      = if d = x then some r else s.current.registers[x]? := by
    intro x
    rw [current_tie hs.frame]
    simp [Std.TreeMap.getElem?_insert]
  refine
    { tracked := ⟨hadv.sound, fun x => ?_, fun x j hj => ?_⟩
      grows := hadv.grows
      owners := fun x hx => by rw [howner, if_neg (Ne.symm hx)]
      procedures := fun _ _ => rfl
      targets := fun _ _ hj => hj
      newOwners := fun x j hj => ?_
      knows := fun x hx _ => ?_
      finished := fun x hx hprocedure => ?_ }
  · -- Both entries are for the same declaration.
    rw [hregister, howner, hindex]
    by_cases hx : d = x
    · simp [hx]
    · rw [if_neg hx, if_neg hx]
      exact hs.owned x
  · rw [howner] at hj
    refine Nat.lt_of_lt_of_le ?_ hadv.grows.size
    split at hj
    · exact Option.some.inj hj ▸ hs.frame
    · exact hs.owners_lt x j hj
  · -- The new owner is the procedure being lowered.
    rw [howner] at hj
    split at hj
    · exact .inr (.inl (Option.some.inj hj).symm)
    · exact .inl hj
  · subst hx
    have hsome : (s.tie c x r).ownerOf[x]?.isSome = true := by rw [howner, if_pos rfl]; rfl
    exact ⟨⟨fun _ => hvalued, fun _ => hsome⟩, fun _ => hsome⟩
  · -- A declaration is no procedure.
    subst hx
    cases hshape : c.tree.shape x <;> simp_all [Shape.isProcedure, Shape.isDeclaration,
      Shape.declaredName?]

/-! ### Where siblings begin -/

/-- What is known where the siblings `ids` begin: the declarations in `done` have been lowered, and
nothing below the siblings has. -/
structure Before (c : LowerContext) (done : NodeId → Prop) (ids : List NodeId) (s : Lowering) :
    Prop where
  /-- Owners agree with registers. -/
  tracked : s.Tracked
  /-- What is bound below the siblings is declared below them before, or done. -/
  served : Resolution.ServedAll c.tree c.resolution done ids
  /-- The siblings are in the tree. -/
  inTree : ∀ x ∈ ids, x ∈ c.tree.preorder c.root
  /-- No node is below two of them. -/
  nodup : (ids.flatMap c.tree.preorder).Nodup
  /-- Nothing below them has an owner or has been opened. -/
  fresh : ∀ x ∈ ids.flatMap c.tree.preorder, s.ownerOf[x]? = none ∧ s.procedureOf[x]? = none
  /-- What is done is not below them. -/
  apart : ∀ d, done d → d ∉ ids.flatMap c.tree.preorder
  /-- The declarations that are done are known. -/
  knows : ∀ d, done d → (c.tree.shape d).isDeclaration = true → Knows c s d
  /-- The declared result is that of the procedure around them. -/
  result : ∀ x ∈ ids, s.frame.result = c.resultTy? x

namespace Before

variable {done : NodeId → Prop} {x id : NodeId} {ids xs : List NodeId}

theorem head (h : Before c done (x :: xs) s) : Before c done [x] s where
  tracked := h.tracked
  served := by
    cases h.served with
    | cons h _ => exact .cons h .nil
  inTree y hy := h.inTree y (by simp_all)
  nodup := by
    have hnodup := h.nodup
    rw [List.flatMap_cons, List.nodup_append] at hnodup
    simpa using hnodup.1
  fresh y hy := h.fresh y (by simp_all)
  apart d hd hmem := h.apart d hd (by simp_all)
  knows := h.knows
  result y hy := h.result y (by simp_all)

/-- From one sibling to the next one. -/
theorem next (h : Before c done (x :: xs) s) (hx : Passed c ℓ (· ∈ c.tree.preorder x) s s₁) :
    Before c (fun d => done d ∨ d ∈ c.tree.preorder x) xs s₁ := by
  have hnodup := h.nodup
  -- Nothing below the first sibling is below another one.
  rw [List.flatMap_cons, List.nodup_append] at hnodup
  obtain ⟨-, hrest, hapart⟩ := hnodup
  refine
    { tracked := hx.tracked
      served := ?_
      inTree := fun y hy => h.inTree y (.tail _ hy)
      nodup := hrest
      fresh := fun y hy => ?_
      apart := fun d hd hmem => ?_
      knows := fun d hd hdecl => ?_
      result := fun y hy => hx.grows.result.trans (h.result y (.tail _ hy)) }
  · -- What is served by the first sibling is done for the others.
    cases h.served with
    | cons _ hserved => exact hserved
  · have hy' : y ∉ c.tree.preorder x := fun hmem => hapart y hmem y hy rfl
    rw [hx.owners y hy', hx.procedures y hy']
    exact h.fresh y (List.mem_append_right _ hy)
  · -- What is done is not below the others.
    rcases hd with hd | hd
    · exact h.apart d hd (List.mem_append_right _ hmem)
    · exact hapart d hd d hmem rfl
  · -- Declarations done before have the owners they had; those below the first sibling are known
    -- now.
    rcases hd with hd | hd
    · have hknows := h.knows d hd hdecl
      have hsame := hx.owners d fun hmem => h.apart d hd (List.mem_append_left _ hmem)
      exact ⟨hsame ▸ hknows.valued, fun hkind => hsame ▸ hknows.kinded hkind⟩
    · exact hx.knows d hd hdecl

theorem keeps (h : Before c done ids s) (hs : s.Keeps s') : Before c done ids s' where
  tracked := hs.tracked h.tracked
  served := h.served
  inTree := h.inTree
  nodup := h.nodup
  fresh y hy := by
    rw [hs.owners, hs.procedures]
    exact h.fresh y hy
  apart := h.apart
  knows d hd hdecl := by
    have hknows := h.knows d hd hdecl
    exact ⟨hs.owners ▸ hknows.valued, fun hkind => hs.owners ▸ hknows.kinded hkind⟩
  result y hy := hs.grows.result.trans (h.result y hy)

/-- Siblings below which nothing is declared need no code. -/
theorem skip (h : Before c done (x :: xs) s) (hx : ∀ y ∈ c.tree.preorder x, c.tree.IsPlain y) :
    Before c (fun d => done d ∨ d ∈ c.tree.preorder x) xs s :=
  h.next (ℓ := ⟨#[], #[], ∅⟩) ((Keeps.refl h.tracked.toSound).passed h.tracked hx)

theorem skipAll {plain : List NodeId} (h : Before c done (plain ++ xs) s)
    (hplain : ∀ x ∈ plain, ∀ y ∈ c.tree.preorder x, c.tree.IsPlain y) :
    ∃ done', Before c done' xs s := by
  induction plain generalizing done with
  | nil => exact ⟨done, h⟩
  | cons x plain ih => exact ih (h.skip (hplain x (.head _))) fun y hy => hplain y (.tail _ hy)

/-- The children of a node other than a procedure belong to the same procedure. -/
theorem resultTy?_child (hc : c.Sound) {y : NodeId} (hy : y ∈ c.tree.preorder c.root)
    (hx : x ∈ c.tree.children y) (hprocedure : (c.tree.shape y).isProcedure = false) :
    c.resultTy? x = c.resultTy? y := by
  have hancestor := hc.analysis.rooted.ancestor?_child
    (fun above => (c.tree.shape above).isProcedure) hy hx
  rw [hprocedure, if_neg (by simp)] at hancestor
  unfold LowerContext.resultTy? Typing.Context.resultNode? Links.enclosingProcedure?
  exact congrArg (fun o => (Option.bind o _).map c.typeOf) hancestor

/-- The children of a procedure belong to it. -/
theorem resultTy?_of_procedure (hc : c.Sound) {result : Option NodeId} {body : NodeId}
    (hid : id ∈ c.tree.preorder c.root) (hshape : c.tree.shape id = .procedure result body)
    (hx : x ∈ c.tree.children id) : c.resultTy? x = result.map c.typeOf := by
  have hancestor := hc.analysis.rooted.ancestor?_child
    (fun above => (c.tree.shape above).isProcedure) hid hx
  rw [if_pos (by rw [hshape]; rfl)] at hancestor
  unfold LowerContext.resultTy? Typing.Context.resultNode? Links.enclosingProcedure?
  rw [show c.typingContext.links.ancestor?
    (fun above => (c.typingContext.tree.shape above).isProcedure) x = some id from hancestor]
  show ((c.tree.shape id).result?).map c.typeOf = _
  rw [hshape]
  rfl

/-- The root belongs to no procedure. -/
theorem resultTy?_root (hc : c.Sound) : c.resultTy? c.root = none := by
  have hnone : c.typingContext.links.enclosingProcedure? c.tree c.root = none := by
    unfold Links.enclosingProcedure? Links.ancestor?
    generalize c.typingContext.links.size = steps
    cases steps with
    | zero => rfl
    | succ steps =>
      unfold Links.ancestorWithin?
      rw [show c.typingContext.links.parent? c.root = none from hc.analysis.rooted.root_parent]
  unfold LowerContext.resultTy? Typing.Context.resultNode?
  rw [show c.typingContext.links.enclosingProcedure? c.typingContext.tree c.root = none from hnone]
  rfl

/-- From a node to its children, in a state that knows the same of all other nodes. -/
theorem descend {shape : Shape} (hc : c.Sound) (h : Before c done [id] s)
    (hshape : c.tree.shape id = shape) (htracked : s₁.Tracked)
    (hsame : ∀ x : NodeId, x ≠ id →
      s₁.ownerOf[x]? = s.ownerOf[x]? ∧ s₁.procedureOf[x]? = s.procedureOf[x]?)
    (hresult : ∀ x ∈ shape.children, s₁.frame.result = c.resultTy? x) :
    Before c done shape.children s₁ := by
  have hchildren := Tree.children_of_shape hshape
  have hid := h.inTree id (.head _)
  -- Below the node there are its children, and the node itself is not below them.
  have hpreorder : [id].flatMap c.tree.preorder
      = id :: shape.children.flatMap c.tree.preorder := by
    rw [List.flatMap_cons, c.tree.preorder_eq, hchildren]
    simp
  have hnodup := h.nodup
  rw [hpreorder, List.nodup_cons] at hnodup
  refine
    { tracked := htracked
      served := ?_
      inTree := fun y hy => hc.tree.child hid (hchildren ▸ hy)
      nodup := hnodup.2
      fresh := fun y hy => ?_
      apart := fun d hd hmem => h.apart d hd (hpreorder ▸ .tail _ hmem)
      knows := fun d hd hdecl => ?_
      result := hresult }
  · rw [← hchildren]
    cases h.served with
    | cons hserved _ =>
      cases hserved with
      | node _ hchildren => exact hchildren
  · -- No node below the children is the node itself.
    have hne : y ≠ id := fun heq => hnodup.1 (heq ▸ hy)
    rw [(hsame y hne).1, (hsame y hne).2]
    exact h.fresh y (hpreorder ▸ .tail _ hy)
  · -- Neither is a declaration that is done.
    have hne : d ≠ id := fun heq => h.apart d hd (hpreorder ▸ heq ▸ .head _)
    have hknows := h.knows d hd hdecl
    exact ⟨(hsame d hne).1 ▸ hknows.valued, fun hkind => (hsame d hne).1 ▸ hknows.kinded hkind⟩

/-- From a node to its children, unless it is a procedure. -/
theorem children {shape : Shape} (hc : c.Sound) (h : Before c done [id] s)
    (hshape : c.tree.shape id = shape) (hprocedure : shape.isProcedure = false) :
    Before c done shape.children s := by
  refine h.descend hc hshape h.tracked (fun _ _ => ⟨rfl, rfl⟩) fun x hx => ?_
  rw [← Tree.children_of_shape hshape] at hx
  rw [resultTy?_child hc (h.inTree id (.head _)) hx (hshape ▸ hprocedure)]
  exact h.result id (.head _)

end Before

theorem Grows.problems_eq (h : s.Grows s') (hp : s'.problems = #[]) : s.problems = #[] := by
  have hprefix := h.problems
  rw [hp] at hprefix
  simpa using hprefix

end Lowering

/-! ### Steps of lowering -/

namespace Lower

open Lowering

variable {c : LowerContext} {ℓ : Linkage} {s s' : Lowering}

theorem load_keeps (hs : s.Sound) {w : Word} {ty : Ty} {span : Span} {r : Register}
    (h : load c w ty span s = .ok (r, s')) : s.Keeps s' := by
  obtain ⟨rfl, rfl⟩ := load_ok h
  have hs₁ := hs.withConstant w
  refine (Keeps.withConstant hs w).trans (.computed hs₁ ?_ ty span)
  exact .loadConstant (Advances.fresh_inFrame hs₁) (by simp [withConstant])

/-- What has been loaded is in the pool. -/
theorem load_linked {w : Word} {ty : Ty} {span : Span} {r : Register}
    (h : load c w ty span s = .ok (r, s')) (hℓ : s'.Linked ℓ) :
    ℓ.constants[s.program.constants.size]? = some w := by
  obtain ⟨rfl, rfl⟩ := load_ok h
  exact hℓ.constant (by simp [emitted, allocated, withConstant])

theorem convert_keeps (hs : s.Sound) {value r : Register} (hvalue : s.Holds value)
    {source dest : Ty} {span : Span} (h : convert c value source dest span s = .ok (r, s')) :
    s.Keeps s' := by
  rcases convert_ok h with ⟨a, b, -, -, -, rfl, rfl⟩ | ⟨-, rfl, rfl⟩
  · exact .computed hs
      (.convert (Advances.fresh_inFrame hs) (hvalue.mono (Nat.le_succ _))) dest span
  · exact .refl hs

theorem bind_passed (hs : s.Tracked) {decl : NodeId} {value r : Register}
    (hvalue : s.Holds value) (hdecl : (c.tree.shape decl).isDeclaration = true)
    (hvalued : c.Valued decl) {span : Span} (h : bind c decl value span s = .ok (r, s')) :
    Passed c ℓ (· = decl) s s' := by
  rcases bind_tie h with ⟨-, rfl, rfl⟩ | ⟨-, rfl, rfl⟩
  · exact hs.tie hvalue hdecl hvalued
  · have hfits := Instruction.Fits.copy (p := s.program) (Advances.fresh_inFrame hs.toSound)
      (hvalue.mono (Nat.le_succ _))
    have hcopy := Keeps.computed hs.toSound hfits (c.typeOf decl) span
    have hholds := (Advances.computed hs.toSound hfits (c.typeOf decl) span).holds _ rfl
    have htie := (hcopy.tracked hs).tie (ℓ := ℓ) hholds hdecl hvalued
    have hpassed := hcopy.passed (c := c) (ℓ := ℓ) (P := fun _ => False) hs fun _ h => h.elim
    exact (hpassed.trans hs.toSound htie fun _ h => h.elim).congr (by simp)

/-- A store goes to the register of the variable in the procedure being lowered. -/
theorem place_home (hs : s.Tracked) {target : NodeId} {v : Option Register}
    (h : place c target s = .ok (v, s')) (hp : s'.problems = #[]) :
    s = s' ∧ v = s.layout.home c target := by
  obtain ⟨decl, hdecl, houtcome⟩ := place_ok h
  have hhome : s.layout.home c target = s.current.registers[decl]? := by
    simp [Layout.home, hdecl, layout]
  cases houtcome with
  | unowned hnone =>
    refine ⟨rfl, ?_⟩
    rw [hhome]
    cases hr : s.current.registers[decl]? with
    | none => rfl
    | some r =>
      rw [(hs.owned decl).1 ⟨r, hr⟩] at hnone
      cases hnone
  | outer _ _ => simp [withProblem] at hp
  | own _ => exact ⟨rfl, hhome.symm⟩

theorem store_lowered (hs : s.Tracked) {target : NodeId} {value : Register}
    (hvalue : s.Holds value) {span : Span} {u : Unit}
    (h : store c target value span s = .ok (u, s')) (hp : s'.problems = #[]) :
    s.Keeps s' ∧ s.Wrote (s.layout.store (s.layout.home c target) value (c.typeOf target) span)
      value s' := by
  rcases store_ok h with hplace | ⟨r, s₁, hplace, rfl⟩
  · obtain ⟨rfl, hhome⟩ := place_home hs hplace hp
    rw [← hhome]
    exact ⟨.refl hs.toSound, rfl, rfl, .refl s⟩
  · have hr := (place_advances hs.toSound hplace).holds r rfl
    obtain ⟨rfl, hhome⟩ := place_home hs hplace hp
    rw [← hhome]
    refine ⟨.emitted hs.toSound (.copy hr hvalue) _ span, rfl, ?_, .emitted hs.toSound _ _ span⟩
    exact layout_emitted hs.toSound hr.ne_none _ span

theorem convertLast_lowered (hs : s.Sound) {body : NodeId} {result : Ty} {u : Unit}
    (h : convertLast c body result s = .ok (u, s')) :
    s.Keeps s' ∧ s'.layout = (s.layout.convertLast (some result) (c.span body)).layout
      ∧ s.Appends (s.layout.convertLast (some result) (c.span body)).code s' := by
  rcases convertLast_ok h with ⟨hlast, rfl⟩ | ⟨r, hlast, h⟩
  · have hpiece : s.layout.convertLast (some result) (c.span body) = ⟨[], .none, s.layout⟩ := by
      simp [Layout.convertLast, layout, hlast]
    rw [hpiece]
    exact ⟨.refl hs, rfl, .refl s⟩
  · have hpiece : s.layout.convertLast (some result) (c.span body)
        = s.layout.convert s.current.lastRegister s.current.lastTy result (c.span body) := by
      simp [Layout.convertLast, Layout.convertResult, layout, hlast]
    rw [hpiece]
    have hwrote := convert_piece hs h
    exact ⟨convert_keeps hs (hs.current.last hlast) h, hwrote.layout, hwrote.appends⟩

end Lower

end MiddleEnd
