import MiddleEnd.Proofs.Lowering.Types

/-!
# What lowering a node leaves behind

Lowering is followed rule by rule.  Each rule finds the nodes below it lowered already, and has to
say the same of its own node: what has been passed, which register holds the value, and that the
lines that have been appended are the code of the node.

## Main definitions

* `Lower.Lowered` — what is known once a node has been lowered.
* `Lower.LoweredAs` — the same of an operand and the conversion after it.
* `Lower.LowersBelow` — what a rule knows about the nodes below it.

## Main results

* `Lower.LowersBelow.step`, `Lower.LowersBelow.stepAs` — one sibling is lowered, and the next
  begins.
* `Lower.value_lowered`, `Lower.statement_lowered` — a node with a value and one without, from the
  code that has been appended.
-/

namespace MiddleEnd

open Lowering

/-! ### Nodes without code -/

section Plain

variable {c : LowerContext} {id x : NodeId}

theorem plain_of_isInert {t : Tree} (h : (t.shape x).isInert = true) : t.IsPlain x := by
  unfold Tree.IsPlain
  cases hshape : t.shape x <;> rw [hshape] at h <;> first | exact ⟨rfl, rfl⟩ | cases h

/-- Below types, operators, structures and enumerations there is nothing else, unless there are
arrays. -/
theorem Tree.WellFormed.isInert_below {t : Tree} {root : NodeId} (ht : t.WellFormed root)
    (harray : ∀ y ∈ t.preorder root, ∀ elem len, t.shape y ≠ .array elem len)
    (hx : x ∈ t.preorder root) (h : (t.shape x).isInert = true) :
    ∀ y ∈ t.preorder x, (t.shape y).isInert = true := by
  -- By the number of the node, which is larger than those of its children.
  induction x using Nat.strongRecOn with
  | ind x ih =>
    intro y hy
    rcases t.mem_preorder.1 hy with rfl | ⟨z, hz, hy⟩
    · exact h
    · refine ih z (t.child_lt hz) (ht.child hx hz) ?_ y hy
      have hfits := ht.fits x hx
      unfold Tree.fits at hfits
      unfold Tree.children at hz
      -- Only structures, fields and enumerations have children here, and those are inert as well.
      cases hshape : t.shape x <;> simp only [hshape, Shape.children] at h hfits hz
      case struct fields =>
        have hfield := List.all_eq_true.1 hfits z hz
        cases hshape' : t.shape z <;> rw [hshape'] at hfield <;> first | rfl | cases hfield
      case field name ty =>
        obtain rfl := List.mem_singleton.1 hz
        cases hshape' : t.shape z <;> rw [hshape'] at hfits <;> first | rfl | cases hfits
      case enum variants =>
        have hvariant := List.all_eq_true.1 hfits z hz
        cases hshape' : t.shape z <;> rw [hshape'] at hvariant <;> first | rfl | cases hvariant
      case array elem len => exact (harray x hx elem len hshape).elim
      all_goals first | (cases hz; done) | cases h

/-- There are no array types, for they have no type. -/
theorem LowerContext.Sound.ne_array (hc : c.Sound) (hx : x ∈ c.tree.preorder c.root)
    (elem len : NodeId) : c.tree.shape x ≠ .array elem len := by
  intro hshape
  have hty := hc.hasType hx
  rw [hshape] at hty
  cases hty

theorem LowerContext.Sound.isInert_below (hc : c.Sound) (hx : x ∈ c.tree.preorder c.root)
    (h : (c.tree.shape x).isInert = true) :
    ∀ y ∈ c.tree.preorder x, (c.tree.shape y).isInert = true :=
  hc.tree.isInert_below (fun _ hy => hc.ne_array hy) hx h

/-- Nothing is declared below types, operators, structures and enumerations. -/
theorem LowerContext.Sound.plain_of_isInert (hc : c.Sound) (hx : x ∈ c.tree.preorder c.root)
    (h : (c.tree.shape x).isInert = true) : ∀ y ∈ c.tree.preorder x, c.tree.IsPlain y :=
  fun y hy => MiddleEnd.plain_of_isInert (hc.isInert_below hx h y hy)

theorem LowerContext.Sound.plain_of_isType (hc : c.Sound) (hx : x ∈ c.tree.preorder c.root)
    (h : (c.tree.shape x).isType = true) : ∀ y ∈ c.tree.preorder x, c.tree.IsPlain y := by
  refine hc.plain_of_isInert hx ?_
  cases hshape : c.tree.shape x <;> rw [hshape] at h <;> first | rfl | cases h

/-- Nothing is declared below a leaf, perhaps in parentheses. -/
theorem plain_of_ungroup {t : Tree} {shape : Shape} (hshape : t.shape (t.ungroup x) = shape)
    (h : shape.isDeclaration = false ∧ shape.isProcedure = false) (hleaf : shape.children = []) :
    ∀ y ∈ t.preorder x, t.IsPlain y := by
  intro y hy
  by_cases hgroup : ∃ e, t.shape y = .group e
  · obtain ⟨e, hgroup⟩ := hgroup
    exact Tree.isPlain_of_shape hgroup ⟨rfl, rfl⟩
  · rw [Tree.eq_ungroup_of_leaf (hshape ▸ hleaf) hy fun e he => hgroup ⟨e, he⟩]
    exact Tree.isPlain_of_shape hshape h

theorem plain_of_isVariable (h : c.typingContext.IsVariable x) :
    ∀ y ∈ c.tree.preorder x, c.tree.IsPlain y := by
  obtain ⟨-, -, -, -, -, -, name, hname⟩ := h
  exact plain_of_ungroup hname ⟨rfl, rfl⟩ rfl

end Plain

namespace Lower

/-- A node without children that declares nothing. -/
theorem plain_of_leaf {t : Tree} {x : NodeId} {shape : Shape} (hshape : t.shape x = shape)
    (h : shape.isDeclaration = false ∧ shape.isProcedure = false) (hleaf : shape.children = []) :
    ∀ y ∈ t.preorder x, t.IsPlain y := by
  intro y hy
  rw [t.preorder_eq, Tree.children_of_shape hshape, hleaf] at hy
  obtain rfl := List.mem_singleton.1 hy
  exact Tree.isPlain_of_shape hshape h

/-- What is known once a node has been lowered without a problem. -/
structure Lowered (c : LowerContext) (ℓ : Linkage) (x : NodeId) (s : Lowering)
    (v : Option Register) (s' : Lowering) : Prop where
  /-- The procedures of the subtree have their code, and nothing else has changed. -/
  passed : Passed c ℓ (· ∈ c.tree.preorder x) s s'
  /-- The register of the value has been given out. -/
  holds : ∀ r, v = some r → s'.Holds r
  /-- There is a register exactly if the node has a value in one. -/
  valued : v.isSome = true ↔ c.Valued x
  /-- A node of a kind has one. -/
  kinded : (c.typeOf x).hasKind = true → v.isSome = true
  /-- What has been appended is the code of the node. -/
  emits : ∃ code, s.Appends code s'
    ∧ (s'.Linked ℓ → Emits c ℓ x s.layout code v s'.layout)

/-- What is known once a node has been lowered and its value converted. -/
structure LoweredAs (c : LowerContext) (ℓ : Linkage) (id x : NodeId) (dest : Ty) (span : Span)
    (s : Lowering) (v : Option Register) (s' : Lowering) : Prop where
  /-- The procedures of the subtree have their code, and nothing else has changed. -/
  passed : Passed c ℓ (· ∈ c.tree.preorder x) s s'
  /-- The register of the converted value has been given out. -/
  holds : ∀ r, v = some r → s'.Holds r
  /-- There is a register exactly if the node has a value in one. -/
  valued : v.isSome = true ↔ c.Valued x
  /-- A node of a kind has one. -/
  kinded : (c.typeOf x).hasKind = true → v.isSome = true
  /-- Without a register, what has been appended is the code of the node alone. -/
  missing : v = none → ∃ code, s.Appends code s'
    ∧ (s'.Linked ℓ → EmitsBelow c ℓ id x s.layout code none s'.layout)
  /-- With one, it is the code of the node and of the conversion. -/
  converted : ∀ r, v = some r → ∃ code, s.Appends code s'
    ∧ (s'.Linked ℓ → EmitsAs c (EmitsBelow c ℓ id) x dest span s.layout code r s'.layout)

section Rules

variable {c : LowerContext} {ℓ : Linkage} {lower : NodeId → Lower (Option Register)} {id : NodeId}
  {s s' : Lowering} {v : Option Register} {done : NodeId → Prop}

/-- A node that is lowered without a problem wherever it begins. -/
def LowersBelow (c : LowerContext) (ℓ : Linkage) (lower : NodeId → Lower (Option Register))
    (id : NodeId) : Prop :=
  ∀ (x : NodeId) (s s' : Lowering) (v : Option Register), lower x s = .ok (v, s') →
    x < id ∧ node c x s = .ok (v, s')
      ∧ ∀ done, (c.tree.shape x).isItem = true → Before c done [x] s → s'.problems = #[] →
        Lowered c ℓ x s v s'

variable (hc : c.Sound) (ih : LowersBelow c ℓ lower id)

include ih in
theorem LowersBelow.advances (x : NodeId) (s s' : Lowering) (v : Option Register)
    (h : lower x s = .ok (v, s')) (hs : s.Sound) : s.Advances v s' :=
  node_advances hs (ih x s s' v h).2.1

include ih in
/-- A sibling is lowered, and the next one begins. -/
theorem LowersBelow.step {x : NodeId} {xs : List NodeId} (h : Before c done (x :: xs) s)
    (hitem : (c.tree.shape x).isItem = true) (hx : lower x s = .ok (v, s'))
    (hp : s'.problems = #[]) :
    Lowered c ℓ x s v s' ∧ Before c (fun d => done d ∨ d ∈ c.tree.preorder x) xs s' := by
  have hlowered := (ih x s s' v hx).2.2 done hitem h.head hp
  exact ⟨hlowered, h.next hlowered.passed⟩

include ih in
/-- A sibling is lowered and its value is converted. -/
theorem LowersBelow.stepAs {x : NodeId} {xs : List NodeId} {dest : Ty} {span : Span}
    (h : Before c done (x :: xs) s) (hitem : (c.tree.shape x).isItem = true)
    (hx : (lower x s = .ok (none, s') ∧ v = none)
      ∨ ∃ value s₁ r, lower x s = .ok (some value, s₁)
          ∧ convert c value (c.typeOf x) dest span s₁ = .ok (r, s') ∧ v = some r)
    (hp : s'.problems = #[]) :
    LoweredAs c ℓ id x dest span s v s'
      ∧ Before c (fun d => done d ∨ d ∈ c.tree.preorder x) xs s' := by
  have hs := h.tracked.toSound
  rcases hx with ⟨hx, rfl⟩ | ⟨value, s₁, r, hx, hconvert, rfl⟩
  · -- There is no value, so the code is that of the node alone.
    obtain ⟨hlowered, hnext⟩ := ih.step h hitem hx hp
    obtain ⟨code, hcode, hemits⟩ := hlowered.emits
    have hlt := (ih _ _ _ _ hx).1
    exact ⟨⟨hlowered.passed, hlowered.holds, hlowered.valued, hlowered.kinded,
      fun _ => ⟨code, hcode, fun hℓ => ⟨hlt, hemits hℓ⟩⟩, fun _ h => by cases h⟩, hnext⟩
  · -- The conversion is appended to the code of the node.
    have hadv := ih.advances _ _ _ _ hx hs
    have hholds := hadv.holds value rfl
    have hkeeps := convert_keeps hadv.sound hholds hconvert
    obtain ⟨hlowered, hnext⟩ := ih.step h hitem hx (hkeeps.grows.problems_eq hp)
    obtain ⟨code, hcode, hemits⟩ := hlowered.emits
    have hwrote := convert_piece hadv.sound hconvert
    have hlt := (ih _ _ _ _ hx).1
    refine ⟨⟨hlowered.passed.keeps hs hkeeps, fun r' hr' => ?_, ?_, fun _ => rfl,
      fun h => (by cases h), fun r' hr' => ?_⟩, hnext.keeps hkeeps⟩
    · exact (convert_advances hadv.sound hholds hconvert).holds r' hr'
    · exact ⟨fun _ => hlowered.valued.1 rfl, fun _ => rfl⟩
    · obtain rfl := Option.some.inj hr'
      refine ⟨code ++ (s₁.layout.convert value (c.typeOf x) dest span).code,
        hcode.trans hwrote.appends, fun hℓ => ?_⟩
      rw [hwrote.layout, hwrote.value]
      exact .converted ⟨hlt, hemits (hkeeps.linked hℓ)⟩ rfl
/-! ### Values and statements -/

/-- An instruction that computes a value leaves a value behind. -/
theorem computed_lowered (hs : s.Sound) {i : Instruction}
    (hi : i.Fits s.program (s.current.nextRegister + 1)) (hout : i.out = s.current.nextRegister)
    (ty : Ty) (span : Span) :
    s.Keeps (s.allocated.emitted i ty span)
      ∧ (s.allocated.emitted i ty span).Holds s.current.nextRegister
      ∧ (s.allocated.emitted i ty span).layout = s.layout.computed ty
      ∧ s.Appends [(i, span)] (s.allocated.emitted i ty span) :=
  ⟨.computed hs hi ty span, (Advances.computed hs hi ty span).holds _ rfl,
    layout_computed hs hout ty span, .computed hs i ty span⟩

/-- A node with a value, and the code that leaves it in a register. -/
theorem value_lowered {r : Register} (hvalued : c.Valued id)
    (hpassed : Passed c ℓ (· ∈ c.tree.preorder id) s s') (hholds : s'.Holds r)
    {code : List CodeLine} (hcode : s.Appends code s')
    (hrule : s'.Linked ℓ → EmitsRule c ℓ (EmitsBelow c ℓ id) id (c.tree.shape id) s.layout code
      (some r) s'.layout) : Lowered c ℓ id s (some r) s' where
  passed := hpassed
  holds _ hr := Option.some.inj hr ▸ hholds
  valued := ⟨fun _ => hvalued, fun _ => rfl⟩
  kinded _ := rfl
  emits := ⟨code, hcode, fun hℓ =>
    Emits.rule_iff.2 ⟨⟨fun _ => hvalued, fun _ => rfl⟩, hrule hℓ⟩⟩

include hc in
/-- A node whose shape has no value. -/
theorem statement_lowered {shape : Shape} (hshape : c.tree.shape id = shape)
    (h : Before c done [id] s) (hvoid : shape.isVoid = true)
    (hempty : ∀ τ, Typing.HasType c.typingContext c.typing id shape τ → τ.hasKind = false)
    (hpassed : Passed c ℓ (· ∈ c.tree.preorder id) s s') {code : List CodeLine}
    (hcode : s.Appends code s')
    (hrule : s'.Linked ℓ →
      EmitsRule c ℓ (EmitsBelow c ℓ id) id shape s.layout code none s'.layout) :
    Lowered c ℓ id s none s' := by
  have hnot : ¬c.Valued id := c.not_valued (hshape ▸ hvoid)
  have hvalued : (none : Option Register).isSome = true ↔ c.Valued id := by simp [hnot]
  refine ⟨hpassed, fun _ h => (by cases h), hvalued, fun hkind => ?_, code, hcode,
    fun hℓ => Emits.rule_iff.2 ⟨hvalued, hshape ▸ hrule hℓ⟩⟩
  have hty := hc.hasType (h.inTree id (.head _))
  rw [hshape] at hty
  rw [hempty _ hty] at hkind
  cases hkind

end Rules

end Lower

end MiddleEnd
