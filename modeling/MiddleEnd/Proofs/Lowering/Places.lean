import MiddleEnd.Proofs.Lowering.Homes
import MiddleEnd.Proofs.Lowering.Implements
import Mathlib.Logic.Relation

/-!
# Where code stands

The code of a node has that of its operands in it, and in this way every expression and declaration
of a compiled tree has its code in some procedure.  What has none are types and operators, the
targets of stores, and literals whose negation is loaded in their place.

## Main definitions

* `Layout.Keeps` — no declaration loses its register.
* `LowerContext.IsOperand` — the nodes whose code is part of that of their parent.
* `LowerContext.Uses` — the same over any number of parents.
* `LowerContext.IsSilent` — nodes without code of their own.

## Main results

* `Emits.keeps` — a declaration keeps its register to the end of the procedure.
* `Emits.uses` — the code of a node is found in that of what uses it.
* `Implements.uses_or_silent` — **every node is used by some procedure, or is below one without
  code**.
* `Implements.used` — operators, calls and the like are used by some procedure.
-/

namespace MiddleEnd

namespace LowerContext

/-- The negation of `x` is loaded, in an expression of type `ty` that has the sign `op`. -/
def Folds (c : LowerContext) (op x : NodeId) (ty : Ty) : Prop :=
  c.tree.shape op = .signOp .minus ∧ (Lower.negatedLiteral? c x ty).isSome = true

/-- The code of `x` is part of that of its parent `id`. -/
def IsOperand (c : LowerContext) (id x : NodeId) : Prop :=
  match c.tree.shape id with
  | .module items | .block items => x ∈ items
  | .constant _ y | .exprStmt y | .assign _ y | .group y | .call y | .cast y _ => x = y
  | .var _ _ init => init = some x
  | .parallel _ values => x ∈ values
  | .ret value => value = some x
  | .binary left _ right => x = left ∨ x = right
  | .signed op y => x = y ∧ ¬c.Folds op y (c.typeOf id)
  | _ => False

/-- The code of `x` is part of that of `id`. -/
def Uses (c : LowerContext) : NodeId → NodeId → Prop := Relation.ReflTransGen c.IsOperand

/-- Nothing that is below `y` has code of its own: types and operators, the slots of native code,
targets of stores, and literals that are folded. -/
inductive IsSilent (c : LowerContext) (y : NodeId) : Prop
  /-- It stands for no code. -/
  | inert (h : (c.tree.shape y).isInert = true)
  /-- It is a slot of native code. -/
  | slot (h : (c.tree.shape y).isSlot = true)
  /-- It is what a statement or native code writes to. -/
  | target (h : c.typingContext.IsVariable y)
  /-- It is a literal that a minus in front has been taken into. -/
  | folded {id op : NodeId} (hid : id ∈ c.tree.preorder c.root)
      (hshape : c.tree.shape id = .signed op y) (h : c.Folds op y (c.typeOf id))

/-- A part of what is negated, where the negation is loaded as a whole. -/
def IsFolded (c : LowerContext) (x : NodeId) : Prop :=
  ∃ id op y, id ∈ c.tree.preorder c.root ∧ c.tree.shape id = .signed op y
    ∧ c.Folds op y (c.typeOf id) ∧ x ∈ c.tree.preorder y

end LowerContext

variable {c : LowerContext} {ℓ : Linkage} {id x : NodeId} {l l' : Layout} {code : List CodeLine}
  {v : Option Register}

/-! ### Registers of declarations -/

namespace Layout

/-- No declaration loses its register. -/
def Keeps (l l' : Layout) : Prop :=
  ∀ (d : NodeId) (r : Register), l.registers[d]? = some r → l'.registers[d]? = some r

variable {l l₁ l' : Layout}

theorem Keeps.refl (l : Layout) : l.Keeps l := fun _ _ h => h

theorem Keeps.trans (h : l.Keeps l₁) (h' : l₁.Keeps l') : l.Keeps l' :=
  fun d r hr => h' d r (h d r hr)

theorem Keeps.of_eq (h : l'.registers = l.registers) : l.Keeps l' := fun d r hr => by rw [h, hr]

theorem registers_convert (l : Layout) (r : Register) (source dest : Ty) (span : Span) :
    (l.convert r source dest span).layout.registers = l.registers := by
  unfold convert
  split
  · split <;> rfl
  · rfl

theorem registers_stage (l : Layout) (r : Register) (ty : Ty) (span : Span) :
    (l.stage r ty span).layout.registers = l.registers := by
  unfold stage
  split <;> rfl

theorem registers_store (l : Layout) (home : Option Register) (r : Register) (ty : Ty)
    (span : Span) :
    (l.store home r ty span).layout.registers = l.registers := by
  cases home <;> rfl

theorem registers_storeAll (c : LowerContext) (stores : List (NodeId × NodeId × Option Register))
    (l : Layout) : (l.storeAll c stores).2.registers = l.registers := by
  induction stores generalizing l with
  | nil => rfl
  | cons s rest ih =>
    obtain ⟨target, value, _ | r⟩ := s
    · exact ih l
    · unfold storeAll
      refine (ih _).trans ?_
      rw [registers_store, registers_convert]

theorem keeps_convert (l : Layout) (r : Register) (source dest : Ty) (span : Span) :
    l.Keeps (l.convert r source dest span).layout := .of_eq (registers_convert l r source dest span)

theorem keeps_stage (l : Layout) (r : Register) (ty : Ty) (span : Span) :
    l.Keeps (l.stage r ty span).layout := .of_eq (registers_stage l r ty span)

theorem keeps_store (l : Layout) (home : Option Register) (r : Register) (ty : Ty) (span : Span) :
    l.Keeps (l.store home r ty span).layout := .of_eq (registers_store l home r ty span)

theorem keeps_convertResult (l : Layout) (r : Register) (source : Ty) (result : Option Ty)
    (span : Span) : l.Keeps (l.convertResult r source result span).layout := by
  cases result with
  | none => exact .refl l
  | some result => exact l.keeps_convert r source result span

/-- A declaration without a register gets one. -/
theorem registers_tie (l : Layout) (d : NodeId) (ty : Ty) (r : Register) (span : Span) :
    (l.tie d ty r span).layout.registers = l.registers.insert d (l.tie d ty r span).value := by
  show ((l.stage r ty span).layout.registers).insert d _ = _
  rw [registers_stage]
  rfl

theorem keeps_tie {d : NodeId} (hnew : l.registers[d]? = none) (ty : Ty) (r : Register)
    (span : Span) : l.Keeps (l.tie d ty r span).layout := by
  intro d' r' hr
  rw [registers_tie, Std.TreeMap.getElem?_insert]
  split
  · next hd =>
    obtain rfl := Std.LawfulEqCmp.compare_eq_iff_eq.1 hd
    rw [hnew] at hr
    cases hr
  · exact hr

end Layout

section

variable {emits : Emission} (hbelow : ∀ x l code v l', emits x l code v l' → l.Keeps l')

include hbelow

theorem EmitsAs.keeps {dest : Ty} {span : Span} {r : Register}
    (h : EmitsAs c emits x dest span l code r l') : l.Keeps l' := by
  cases h with
  | converted h hp =>
    subst hp
    exact (hbelow _ _ _ _ _ h).trans (Layout.keeps_convert _ _ _ _ _)

theorem EmitsDeclare.keeps (h : EmitsDeclare c emits id x l code v l') : l.Keeps l' := by
  cases h with
  | missing h => exact hbelow _ _ _ _ _ h
  | tied h hnew hp =>
    subst hp
    exact (h.keeps hbelow).trans (Layout.keeps_tie hnew _ _ _)

theorem EmitsItems.keeps {items : List NodeId} {pieces : List (List CodeLine)}
    (h : EmitsItems emits items l pieces l') : l.Keeps l' := by
  induction h with
  | nil => exact .refl _
  | cons h _ ih => exact (hbelow _ _ _ _ _ h).trans ih

theorem EmitsStages.keeps {values : List NodeId} {vs : List (Option Register)}
    (h : EmitsStages c emits values l code vs l') : l.Keeps l' := by
  induction h with
  | nil => exact .refl _
  | missing h _ ih => exact (hbelow _ _ _ _ _ h).trans ih
  | staged h hp _ ih =>
    subst hp
    exact ((hbelow _ _ _ _ _ h).trans (Layout.keeps_stage _ _ _ _)).trans ih

theorem EmitsInputs.keeps {inputs : List NodeId} {slots : List NativeSlot}
    (h : EmitsInputs c emits inputs l code slots l') : l.Keeps l' := by
  induction h with
  | nil => exact .refl _
  | cons _ h _ ih => exact (hbelow _ _ _ _ _ h).trans ih

end

/-- **A declaration keeps its register.** -/
theorem Emits.keeps (h : Emits c ℓ id l code v l') : l.Keeps l' := by
  refine Emits.induction (motive := fun _ l _ _ l' => l.Keeps l')
    (fun emits id ih l code v l' _ hrule => ?_) h
  -- The claim for what the node is made of.
  have below (x l code v l') (h : emits x l code v l') : l.Keeps l' := (ih x l code v l' h).2
  generalize c.tree.shape id = shape at hrule
  cases hrule with
  | module h | block h => exact h.keeps below
  | inert | procedure | identOwn | identProcedure | identAbsent | retBare => exact .refl _
  | literal _ _ hp | identLiteral _ _ _ _ _ _ hp | folded _ _ _ hp =>
    subst hp
    exact .of_eq rfl
  | constant h | var h => exact h.keeps below
  | varFresh hnew hp =>
    subst hp
    exact Layout.keeps_tie (l := l.reserved) hnew _ _ _
  | exprStmt h | assignMissing h | group h | castMissing h | retMissing h | slot h =>
    exact below _ _ _ _ _ h
  | assign h hp =>
    subst hp
    exact (h.keeps below).trans (Layout.keeps_store _ _ _ _ _)
  | @parallel targets values _ l₁ _ vs _ _ h hp =>
    -- The stores convert and copy, and neither ties a declaration.
    have hstores := Layout.registers_storeAll c (targets.zip (values.zip vs)) l₁
    rw [hp] at hstores
    exact (h.keeps below).trans (.of_eq hstores)
  | ret h hp =>
    subst hp
    exact (below _ _ _ _ _ h).trans (Layout.keeps_convertResult _ _ _ _ _)
  | binary _ _ hleft hright =>
    exact ((hleft.keeps below).trans (hright.keeps below)).trans (.of_eq rfl)
  | plus _ h | cast h => exact h.keeps below
  | minus _ _ _ h => exact (h.keeps below).trans (.of_eq rfl)
  | call h => exact (below _ _ _ _ _ h).trans (.of_eq rfl)
  | nativeSilent h => exact h.keeps below
  | native h => exact (h.keeps below).trans (.of_eq rfl)

/-! ### Code in code -/

/-- The code of `x` is part of the lines between two layouts: it begins at an ordered one if they
do, and what is declared in it has its register at their end. -/
def Embeds (c : LowerContext) (ℓ : Linkage) (x : NodeId) (l : Layout) (code : List CodeLine)
    (l' : Layout) : Prop :=
  ∃ l₁ part v l₂, Emits c ℓ x l₁ part v l₂ ∧ part <:+: code ∧ (l.Ordered → l₁.Ordered) ∧ l₂.Keeps l'

theorem Emits.embeds (h : Emits c ℓ x l code v l') : Embeds c ℓ x l code l' :=
  ⟨l, code, v, l', h, List.infix_refl code, id, .refl l'⟩

theorem Embeds.within {code' : List CodeLine} {l₁ l₂ : Layout} (h : Embeds c ℓ x l₁ code l₂)
    (hcode : code <:+: code') (hbefore : l.Ordered → l₁.Ordered) (hafter : l₂.Keeps l') :
    Embeds c ℓ x l code' l' := by
  obtain ⟨l₃, part, v, l₄, hx, hpart, hordered, hkeeps⟩ := h
  exact ⟨l₃, part, v, l₄, hx, hpart.trans hcode, fun hl => hordered (hbefore hl),
    hkeeps.trans hafter⟩

/-- Code after the part. -/
theorem Embeds.left {code' : List CodeLine} {l₁ : Layout} (h : Embeds c ℓ x l code l₁)
    (hl : l₁.Keeps l') : Embeds c ℓ x l (code ++ code') l' :=
  h.within (List.prefix_append code code').isInfix id hl

/-- Code before the part. -/
theorem Embeds.right {code' : List CodeLine} {l₁ : Layout} (h : Embeds c ℓ x l₁ code l')
    (hl : l.Ordered → l₁.Ordered) : Embeds c ℓ x l (code' ++ code) l' :=
  h.within (List.suffix_append code' code).isInfix hl (.refl l')

/-- The code below a node keeps registers. -/
theorem EmitsBelow.keeps (x : NodeId) (l : Layout) (code : List CodeLine) (v : Option Register)
    (l' : Layout) (h : EmitsBelow c ℓ id x l code v l') : l.Keeps l' := h.2.keeps

theorem EmitsBelow.ordered (x : NodeId) (l : Layout) (code : List CodeLine) (v : Option Register)
    (l' : Layout) (h : EmitsBelow c ℓ id x l code v l') : OrderedNode x l code v l' := h.2.ordered

theorem EmitsItems.embeds {items : List NodeId} {pieces : List (List CodeLine)}
    (h : EmitsItems (EmitsBelow c ℓ id) items l pieces l') (hx : x ∈ items) :
    Embeds c ℓ x l pieces.flatten l' := by
  induction h with
  | nil => cases hx
  | cons h hrest ih =>
    rw [List.flatten_cons]
    rcases List.mem_cons.1 hx with rfl | hx
    · exact h.2.embeds.left (hrest.keeps EmitsBelow.keeps)
    · exact (ih hx).right fun hl => (h.2.ordered hl).1

theorem EmitsAs.embeds {dest : Ty} {span : Span} {r : Register}
    (h : EmitsAs c (EmitsBelow c ℓ id) x dest span l code r l') : Embeds c ℓ x l code l' := by
  cases h with
  | converted h hp =>
    subst hp
    exact h.2.embeds.left (Layout.keeps_convert _ _ _ _ _)

theorem EmitsDeclare.embeds {d : NodeId} (h : EmitsDeclare c (EmitsBelow c ℓ id) d x l code v l') :
    Embeds c ℓ x l code l' := by
  cases h with
  | missing h => exact h.2.embeds
  | tied h hnew hp =>
    subst hp
    exact h.embeds.left (Layout.keeps_tie hnew _ _ _)

theorem EmitsStages.embeds {values : List NodeId} {vs : List (Option Register)}
    (h : EmitsStages c (EmitsBelow c ℓ id) values l code vs l') (hx : x ∈ values) :
    Embeds c ℓ x l code l' := by
  induction h with
  | nil => cases hx
  | missing h hrest ih =>
    rcases List.mem_cons.1 hx with rfl | hx
    · exact h.2.embeds.left (hrest.keeps EmitsBelow.keeps)
    · exact (ih hx).right fun hl => (h.2.ordered hl).1
  | staged h hp hrest ih =>
    subst hp
    rcases List.mem_cons.1 hx with rfl | hx
    · exact (h.2.embeds.left (Layout.keeps_stage _ _ _ _)).left (hrest.keeps EmitsBelow.keeps)
    · refine (ih hx).right fun hl => ?_
      obtain ⟨hordered, hvalue⟩ := h.2.ordered hl
      exact (hordered.stage (hvalue _ rfl) _ _).1

/-- The code of an operand is part of that of its parent. -/
theorem Emits.operand (hemits : Emits c ℓ id l code v l') (hx : c.IsOperand id x) :
    Embeds c ℓ x l code l' := by
  have hrule := (rule_iff.1 hemits).2
  unfold LowerContext.IsOperand at hx
  generalize hshape : c.tree.shape id = shape at hrule hx
  cases hrule with
  | module h | block h => exact h.embeds hx
  -- What has no code has no operands either.
  | inert h => cases shape <;> first | (cases h; done) | exact hx.elim
  | procedure | varFresh | retBare | literal | identOwn | identLiteral | identProcedure
  | identAbsent
  | nativeSilent | native | slot => cases hx
  | constant h =>
    obtain rfl := hx
    exact h.embeds
  | var h =>
    obtain rfl := Option.some.inj hx
    exact h.embeds
  | exprStmt h | assignMissing h | group h | castMissing h =>
    obtain rfl := hx
    exact h.2.embeds
  | assign h hp =>
    obtain rfl := hx
    subst hp
    -- The copy into the target comes after the code of the value.
    exact h.embeds.left (Layout.keeps_store _ _ _ _ _)
  | @parallel targets values _ l₁ _ vs _ _ h hp =>
    have hstores := Layout.registers_storeAll c (targets.zip (values.zip vs)) l₁
    rw [hp] at hstores
    exact (h.embeds hx).left (.of_eq hstores)
  | retMissing h =>
    obtain rfl := Option.some.inj hx
    exact h.2.embeds
  | ret h hp =>
    obtain rfl := Option.some.inj hx
    subst hp
    exact (h.2.embeds.left (Layout.keeps_convertResult _ _ _ _ _)).left (.refl _)
  | binary _ _ hleft hright =>
    rcases hx with rfl | rfl
    · -- The code of the left operand stands first, that of the right one starts where it ends.
      exact (hleft.embeds.left (hright.keeps EmitsBelow.keeps)).left (.of_eq rfl)
    · refine (hright.embeds.right fun hl => ?_).left (.of_eq rfl)
      exact (hleft.ordered EmitsBelow.ordered hl).1
  | plus _ h =>
    obtain ⟨rfl, -⟩ := hx
    exact h.embeds
  | folded hop hword => exact (hx.2 ⟨hop, by rw [hword]; rfl⟩).elim
  | minus _ _ _ h =>
    obtain ⟨rfl, -⟩ := hx
    exact h.embeds.left (.of_eq rfl)
  | call h =>
    obtain rfl := hx
    exact h.2.embeds.left (.of_eq rfl)
  | cast h =>
    obtain rfl := hx
    exact h.embeds

/-- **The code of a node is found in that of what uses it.** -/
theorem Emits.uses (h : Emits c ℓ id l code v l') (hx : c.Uses id x) : Embeds c ℓ x l code l' := by
  induction hx with
  | refl => exact h.embeds
  | tail _ hoperand ih =>
    obtain ⟨_, _, _, _, hy, hpart, hordered, hkeeps⟩ := ih
    exact (hy.operand hoperand).within hpart hordered hkeeps

/-! ### Every node -/

/-- Types, operators and the parts of definitions have no code. -/
theorem Shape.isInert_of_part {shape : Shape}
    (h : shape.isType || shape.isField || shape.isVariant || shape.isBinaryOp || shape.isSignOp) :
    shape.isInert = true := by
  cases shape <;> first | rfl | cases h

namespace LowerContext.Sound

variable (hc : c.Sound) {y : NodeId}

include hc

/-- A child of what may stand in a scope is an operand, the body of a procedure, or silent. -/
theorem child_cases (hid : id ∈ c.tree.preorder c.root) (hitem : (c.tree.shape id).isItem = true)
    (hx : x ∈ c.tree.children id) :
    (c.IsOperand id x ∧ (c.tree.shape x).isItem = true)
      ∨ (∃ result, c.tree.shape id = .procedure result x) ∨ c.IsSilent x := by
  have hfits := hc.tree.fits id hid
  unfold Tree.fits at hfits
  -- What a well-formed tree has for children, for each shape.
  cases hshape : c.tree.shape id <;> rw [hshape] at hfits hitem <;>
    simp only [Tree.children_of_shape hshape, Shape.children, List.mem_cons, List.not_mem_nil,
      or_false, List.mem_append, Option.mem_toList, Bool.and_eq_true, List.all_eq_true,
      Option.all_eq_true] at hx hfits <;>
    simp only [LowerContext.IsOperand, hshape]
  case module | block => exact .inl ⟨hx, hfits x hx⟩
  case constant | exprStmt | group | call =>
    subst hx
    exact .inl ⟨rfl, Shape.isItem_of_isExpr hfits⟩
  case var =>
    rcases hx with hty | hinit
    · exact .inr (.inr (.inert (Shape.isInert_of_part (by simp [hfits.1 x hty]))))
    · exact .inl ⟨hinit, Shape.isItem_of_isExpr (hfits.2 x hinit)⟩
  case procedure =>
    rcases hx with hresult | rfl
    · exact .inr (.inr (.inert (Shape.isInert_of_part (by simp [hfits.1 x hresult]))))
    · exact .inr (.inl ⟨_, rfl⟩)
  case struct =>
    exact .inr (.inr (.inert (Shape.isInert_of_part (by simp [hfits x hx]))))
  case enum =>
    exact .inr (.inr (.inert (Shape.isInert_of_part (by simp [hfits x hx]))))
  case assign =>
    rcases hx with rfl | rfl
    · exact .inr (.inr (.target (hc.hasKind_assign hid hshape).1))
    · exact .inl ⟨rfl, Shape.isItem_of_isExpr hfits.2⟩
  case parallel =>
    rcases hx with htarget | hvalue
    · exact .inr (.inr (.target (hc.isVariable_parallel hid hshape htarget)))
    · exact .inl ⟨hvalue, Shape.isItem_of_isExpr (hfits.2 x hvalue)⟩
  case ret => exact .inl ⟨hx, Shape.isItem_of_isExpr (hfits x hx)⟩
  case binary =>
    rcases hx with rfl | rfl | rfl
    · exact .inl ⟨.inl rfl, Shape.isItem_of_isExpr hfits.1.1⟩
    · exact .inr (.inr (.inert (Shape.isInert_of_part (by simp [hfits.1.2]))))
    · exact .inl ⟨.inr rfl, Shape.isItem_of_isExpr hfits.2⟩
  case signed op y =>
    rcases hx with rfl | rfl
    · exact .inr (.inr (.inert (Shape.isInert_of_part (by simp [hfits.1]))))
    -- A literal that is folded has no code of its own; the negation is loaded in its place.
    · by_cases hfolds : c.Folds op x (c.typeOf id)
      · exact .inr (.inr (.folded hid hshape hfolds))
      · exact .inl ⟨⟨rfl, hfolds⟩, Shape.isItem_of_isExpr hfits.2⟩
  case cast =>
    rcases hx with rfl | rfl
    · exact .inl ⟨rfl, Shape.isItem_of_isExpr hfits.1⟩
    · exact .inr (.inr (.inert (Shape.isInert_of_part (by simp [hfits.2]))))
  case native =>
    rcases hx with hinput | houtput
    · exact .inr (.inr (.slot (hfits.1 x hinput)))
    · exact .inr (.inr (.slot (hfits.2 x houtput)))
  -- The shapes that are left stand in no scope.
  all_goals cases hitem

/-- What is below something silent is a part of a definition, a slot, a name, or folded. -/
theorem silent_cases (hy : y ∈ c.tree.preorder c.root) (h : c.IsSilent y)
    (hx : x ∈ c.tree.preorder y) :
    (c.tree.shape x).isInert = true ∨ (c.tree.shape x).isSlot = true
      ∨ (c.tree.shape (c.tree.ungroup x)).isIdent = true ∨ c.IsFolded x := by
  cases h with
  | inert h => exact .inl (hc.isInert_below hy h x hx)
  | slot h =>
    -- The child of a slot is a name, below which there is nothing.
    cases hshape : c.tree.shape y <;> rw [hshape] at h <;> first | (cases h; done) | skip
    next target offset =>
    rcases c.tree.mem_preorder.1 hx with rfl | ⟨z, hz, hx⟩
    · exact .inr (.inl (by rw [hshape]; rfl))
    · obtain rfl : z = target := by simpa [Tree.children_of_shape hshape, Shape.children] using hz
      refine .inr (.inr (.inl ?_))
      obtain ⟨-, name, hident⟩ := hc.tree.slot_ident hy hshape
      have hroot : c.tree.ungroup z = z := Tree.ungroup_of_not_group (by simp [hident])
      rw [Tree.ungroup_of_mem_preorder (by simp [hroot, hident, Shape.children]) hx, hroot, hident]
      rfl
  | target h =>
    obtain ⟨-, -, -, -, -, -, name, hident⟩ := h
    change c.tree.shape (c.tree.ungroup y) = .ident name at hident
    refine .inr (.inr (.inl ?_))
    rw [Tree.ungroup_of_mem_preorder (by simp [hident, Shape.children]) hx, hident]
    rfl
  | folded hid hshape h => exact .inr (.inr (.inr ⟨_, _, y, hid, hshape, h, hx⟩))

omit hc in
/-- Folded are literals only, in parentheses or not. -/
theorem literal_of_isFolded (h : c.IsFolded x) :
    ∃ spelling, c.tree.shape (c.tree.ungroup x) = .literal (.number spelling) := by
  obtain ⟨id, op, y, -, -, ⟨-, hfolds⟩, hx⟩ := h
  obtain ⟨w, hw⟩ := Option.isSome_iff_exists.1 hfolds
  obtain ⟨-, spelling, -, -, hshape, -⟩ := Lower.negatedLiteral_some hw
  refine ⟨spelling, ?_⟩
  rw [Tree.ungroup_of_mem_preorder (by simp [hshape, Shape.children]) hx, hshape]

/-- A node is used by what may stand in a scope above it, by the body of a procedure below that, or
is below something silent. -/
theorem uses_or_silent (hid : id ∈ c.tree.preorder c.root) (hitem : (c.tree.shape id).isItem = true)
    (hx : x ∈ c.tree.preorder id) :
    c.Uses id x
      ∨ (∃ q ∈ c.tree.preorder id, ∃ result body, c.tree.shape q = .procedure result body
          ∧ c.Uses body x)
      ∨ ∃ y ∈ c.tree.preorder id, c.IsSilent y ∧ x ∈ c.tree.preorder y := by
  induction id using Nat.strongRecOn with
  | ind id ih =>
    rcases c.tree.mem_preorder.1 hx with rfl | ⟨z, hz, hx⟩
    · exact .inl .refl
    have hlt := c.tree.child_lt hz
    have hzid := c.tree.child_mem_preorder hz
    have hzroot := hc.tree.child hid hz
    rcases hc.child_cases hid hitem hz with ⟨hoperand, hzitem⟩ | ⟨result, hshape⟩ | hsilent
    · -- An operand has the node among what it uses, or in a procedure of its own.
      rcases ih z hlt hzroot hzitem hx with huses | ⟨q, hq, hbody⟩ | ⟨y, hy, hsilent⟩
      · exact .inl (.head hoperand huses)
      · exact .inr (.inl ⟨q, c.tree.mem_preorder_trans hzid hq, hbody⟩)
      · exact .inr (.inr ⟨y, c.tree.mem_preorder_trans hzid hy, hsilent⟩)
    · -- The body of a procedure is used from the body on.
      rcases ih z hlt hzroot (hc.tree.isItem_body hid hshape) hx
        with huses | ⟨q, hq, hbody⟩ | ⟨y, hy, hsilent⟩
      · exact .inr (.inl ⟨id, c.tree.self_mem_preorder id, result, z, hshape, huses⟩)
      · exact .inr (.inl ⟨q, c.tree.mem_preorder_trans hzid hq, hbody⟩)
      · exact .inr (.inr ⟨y, c.tree.mem_preorder_trans hzid hy, hsilent⟩)
    · exact .inr (.inr ⟨z, hzid, hsilent, hx⟩)

end LowerContext.Sound

/-- **Every node is used by the body of some procedure, or is below something silent.** -/
theorem Implements.uses_or_silent {P : Program} (hc : c.Sound) (h : Implements c ℓ P)
    (hx : x ∈ c.tree.preorder c.root) :
    (∃ body result p, BodyOf c ℓ P body result p ∧ c.Uses body x)
      ∨ ∃ y ∈ c.tree.preorder c.root, c.IsSilent y ∧ x ∈ c.tree.preorder y := by
  rcases hc.uses_or_silent (c.tree.self_mem_preorder c.root) hc.tree.isItem_root hx
    with huses | ⟨q, hq, result, body, hshape, huses⟩ | hsilent
  · obtain ⟨p, hp, -⟩ := h.start
    exact .inl ⟨c.root, none, p, .start hp, huses⟩
  · have hprocedure : (c.tree.shape q).isProcedure = true := by rw [hshape]; rfl
    obtain ⟨j, hj⟩ := h.targets q hq hprocedure
    obtain ⟨-, result', body', p, hshape', hp, -⟩ := h.procedures q j hj hprocedure
    exact .inl ⟨body, _, p, .procedure hq hshape hj hp, huses⟩
  · exact .inr hsilent

/-- What is no part of a definition, no slot, no name and no literal is used by some procedure. -/
theorem Implements.used {P : Program} (hc : c.Sound) (h : Implements c ℓ P)
    (hx : x ∈ c.tree.preorder c.root) (hinert : (c.tree.shape x).isInert = false)
    (hslot : (c.tree.shape x).isSlot = false) (hgroup : ∀ y, c.tree.shape x ≠ .group y)
    (hident : (c.tree.shape x).isIdent = false) (hliteral : ∀ lit, c.tree.shape x ≠ .literal lit) :
    ∃ body result p, BodyOf c ℓ P body result p ∧ c.Uses body x := by
  have hself : c.tree.ungroup x = x := Tree.ungroup_of_not_group hgroup
  rcases h.uses_or_silent hc hx with huses | ⟨y, hy, hsilent, hxy⟩
  · exact huses
  · rcases hc.silent_cases hy hsilent hxy with h | h | h | h
    · rw [hinert] at h
      cases h
    · rw [hslot] at h
      cases h
    · rw [hself, hident] at h
      cases h
    · obtain ⟨spelling, h⟩ := LowerContext.Sound.literal_of_isFolded h
      exact (hliteral _ (hself ▸ h)).elim

end MiddleEnd
