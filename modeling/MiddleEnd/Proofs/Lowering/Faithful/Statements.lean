import MiddleEnd.Proofs.Lowering.Faithful.Basic

/-!
# Statements are lowered faithfully

One lemma for each shape of a declaration or a statement: what is appended is the code that the rule
of the shape gives, and a declaration has been given a register exactly if it has a value.

## Main results

* `Lower.items_lowered` — the items of a scope are lowered one after the other.
* `Lower.declare_lowered` — a declaration is tied to the register of its initial value.
* `Lower.stages_lowered`, `Lower.stores_lowered` — the two halves of a parallel assignment.
* `Lower.return_lowered` — a value is handed back as the declared result.
-/

namespace MiddleEnd.Lower

open Lowering

variable {c : LowerContext} {ℓ : Linkage} {lower : NodeId → Lower (Option Register)} {id : NodeId}
  {s s' : Lowering} {v : Option Register} {done : NodeId → Prop}

variable (hc : c.Sound) (ih : LowersBelow c ℓ lower id)

include hc ih

/-! ### Statements -/

theorem exprStmt_lowered {x : NodeId} (hshape : c.tree.shape id = .exprStmt x)
    (h : Before c done [id] s) (hx : lower x s = .ok (v, s')) (hp : s'.problems = #[]) :
    Lowered c ℓ id s none s' := by
  have hid := h.inTree id (.head _)
  have hfits := hc.tree.fits id hid
  simp only [Tree.fits, hshape] at hfits
  have hbefore : Before c done [x] s := h.children hc hshape rfl
  obtain ⟨hlowered, -⟩ := ih.step hbefore (Shape.isItem_of_isExpr hfits) hx hp
  obtain ⟨code, hcode, hemits⟩ := hlowered.emits
  have hlt := (ih _ _ _ _ hx).1
  refine statement_lowered hc hshape h rfl (fun τ hτ => by cases hτ; rfl)
    (hlowered.passed.aroundOnly hshape ⟨rfl, rfl⟩ rfl) hcode fun hℓ => ?_
  have hbelow : EmitsBelow c ℓ id x s.layout code v s'.layout := ⟨hlt, hemits hℓ⟩
  exact .exprStmt hbelow

omit hc in
theorem items_lowered {items : List NodeId} (h : Before c done items s)
    (hitems : ∀ x ∈ items, (c.tree.shape x).isItem = true)
    (houtcome : ItemsOutcome lower items s s') (hp : s'.problems = #[]) :
    Passed c ℓ (· ∈ items.flatMap c.tree.preorder) s s'
      ∧ ∃ pieces, s.Appends pieces.flatten s'
        ∧ (s'.Linked ℓ → EmitsItems (EmitsBelow c ℓ id) items s.layout pieces s'.layout) := by
  -- Node by node: what has been passed is done when the next one is lowered.
  induction houtcome generalizing done with
  | nil =>
    refine ⟨(Keeps.refl h.tracked.toSound).passed h.tracked fun x hx => ?_, [], .refl _,
      fun _ => .nil⟩
    simp at hx
  | @cons item items s s₁ s' v hitem hrest ihrest =>
    have hs := h.tracked.toSound
    have hs₁ := (ih.advances _ _ _ _ hitem hs).sound
    have hp₁ := (items_advances ih.advances hs₁ hrest).grows.problems_eq hp
    obtain ⟨hlowered, hnext⟩ := ih.step h (hitems item (.head _)) hitem hp₁
    obtain ⟨hpassed, pieces, hpieces, hemitsrest⟩ :=
      ihrest hnext (fun x hx => hitems x (.tail _ hx)) hp
    obtain ⟨code, hcode, hemits⟩ := hlowered.emits
    have hlt := (ih _ _ _ _ hitem).1
    have hnodup := h.nodup
    rw [List.flatMap_cons, List.nodup_append] at hnodup
    refine ⟨(hlowered.passed.trans hs hpassed fun x hx hx' => ?_).congr fun x => ?_,
      code :: pieces, ?_, fun hℓ => .cons ⟨hlt, hemits (hpassed.linked hℓ)⟩ (hemitsrest hℓ)⟩
    · -- No node is below two of the list.
      exact hnodup.2.2 x hx x hx' rfl
    · rw [List.flatMap_cons, List.mem_append]
    · rw [List.flatten_cons]
      exact hcode.trans hpieces

theorem scope_lowered {items : List NodeId} {shape : Shape} (hshape : c.tree.shape id = shape)
    (hscope : shape = .module items ∨ shape = .block items) (h : Before c done [id] s)
    (houtcome : ItemsOutcome lower items s s') (hp : s'.problems = #[]) :
    Lowered c ℓ id s none s' := by
  have hid := h.inTree id (.head _)
  have hfits := hc.tree.fits id hid
  have hitems : ∀ x ∈ items, (c.tree.shape x).isItem = true := by
    unfold Tree.fits at hfits
    rcases hscope with rfl | rfl <;> simpa only [hshape, List.all_eq_true] using hfits
  have hbefore : Before c done items s := by
    rcases hscope with rfl | rfl <;> exact h.children hc hshape rfl
  obtain ⟨hpassed, pieces, hpieces, hemits⟩ := items_lowered ih hbefore hitems houtcome hp
  have hchildren : shape.children = items := by rcases hscope with rfl | rfl <;> rfl
  refine statement_lowered hc hshape h (by rcases hscope with rfl | rfl <;> rfl)
    (fun τ hτ => ?_)
    (hpassed.aroundChildren hshape ?_ (fun x hx => hchildren ▸ hx) fun y hy hyx => ?_)
    hpieces fun hℓ => ?_
  · rcases hscope with rfl | rfl <;> cases hτ <;> rfl
  · rcases hscope with rfl | rfl <;> exact ⟨rfl, rfl⟩
  · exact (hyx (hchildren ▸ hy)).elim
  · rcases hscope with rfl | rfl
    · exact .module (hemits hℓ)
    · exact .block (hemits hℓ)

omit ih in
theorem inert_lowered (h : Before c done [id] s) (hitem : (c.tree.shape id).isItem = true)
    (hinert : (c.tree.shape id).isInert = true) : Lowered c ℓ id s none s := by
  have hplain := hc.plain_of_isInert (h.inTree id (.head _)) hinert
  refine statement_lowered hc rfl h ?_ (fun τ hτ => ?_)
    ((Keeps.refl h.tracked.toSound).passed h.tracked hplain) (.refl s) fun _ => .inert hinert
  · cases hshape : c.tree.shape id <;> rw [hshape] at hinert <;> first | rfl | cases hinert
  · cases hshape : c.tree.shape id <;> rw [hshape] at hitem hinert hτ <;>
      first | (cases hinert; done) | (cases hitem; done) | skip
    all_goals
      cases hτ
      rfl

/-! ### Declarations -/

omit hc ih in
/-- A declaration without a register, whose initial value has none. -/
theorem missing_lowered {init : NodeId} (h : Before c done [id] s)
    (hdecl : (c.tree.shape id).isDeclaration = true) (hinit : init ∈ c.tree.children id)
    (hplain : ∀ x ∈ c.tree.children id, x ≠ init → ∀ y ∈ c.tree.preorder x, c.tree.IsPlain y)
    (hvalued : c.Valued id ↔ c.Valued init)
    (hkind : (c.typeOf id).hasKind = (c.typeOf init).hasKind)
    (hlowered : Lowered c ℓ init s none s')
    (hrule : ∀ code, Emits c ℓ init s.layout code none s'.layout →
      EmitsRule c ℓ (EmitsBelow c ℓ id) id (c.tree.shape id) s.layout code none s'.layout) :
    Lowered c ℓ id s none s' := by
  have hs := h.tracked.toSound
  -- Since there is no register, neither of the two has a value, nor a type with a kind.
  have hnot : ¬c.Valued init := by
    rw [← hlowered.valued]
    simp
  have hkind' : (c.typeOf init).hasKind = false := by
    cases hk : (c.typeOf init).hasKind with
    | false => rfl
    | true => cases hlowered.kinded hk
  have hid : id ∉ c.tree.preorder init := fun hmem =>
    Nat.not_le_of_lt (c.tree.child_lt hinit) (c.tree.le_of_mem_preorder hmem)
  have hfresh := h.fresh id (by simp [c.tree.self_mem_preorder])
  have huntied := hlowered.passed.tracked.untied (ℓ := ℓ)
    ((hlowered.passed.owners id hid).trans hfresh.1) hdecl (fun hv => hnot (hvalued.1 hv))
    (hkind.trans hkind')
  obtain ⟨code, hcode, hemits⟩ := hlowered.emits
  have hvalued' : (none : Option Register).isSome = true ↔ c.Valued id := by simp [hvalued, hnot]
  refine ⟨hlowered.passed.declared hs huntied hinit hplain, fun _ h => (by cases h), hvalued',
    fun hk => ?_, code, hcode, fun hℓ => Emits.rule_iff.2 ⟨hvalued', hrule code (hemits hℓ)⟩⟩
  rw [hkind, hkind'] at hk
  cases hk

omit hc in
/-- A declaration with an initial value, before which nothing is lowered. -/
theorem declare_lowered {init : NodeId} (h : Before c done [id] s)
    {done' : NodeId → Prop} (hbefore : Before c done' [init] s)
    (hdecl : (c.tree.shape id).isDeclaration = true) (hinit : init ∈ c.tree.children id)
    (hitem : (c.tree.shape init).isItem = true)
    (hplain : ∀ x ∈ c.tree.children id, x ≠ init → ∀ y ∈ c.tree.preorder x, c.tree.IsPlain y)
    (hvalued : c.Valued id ↔ c.Valued init)
    (hkind : (c.typeOf id).hasKind = (c.typeOf init).hasKind)
    (houtcome : DeclareOutcome c lower id init s v s') (hp : s'.problems = #[])
    (hrule : ∀ code, EmitsDeclare c (EmitsBelow c ℓ id) id init s.layout code v s'.layout →
      EmitsRule c ℓ (EmitsBelow c ℓ id) id (c.tree.shape id) s.layout code v s'.layout) :
    Lowered c ℓ id s v s' := by
  have hs := h.tracked.toSound
  have hid : id ∉ c.tree.preorder init := fun hmem =>
    Nat.not_le_of_lt (c.tree.child_lt hinit) (c.tree.le_of_mem_preorder hmem)
  cases houtcome with
  -- The initial value has no register, and so the declaration has none.
  | missing hx =>
    obtain ⟨hlowered, -⟩ := ih.step hbefore hitem hx hp
    have hlt := (ih _ _ _ _ hx).1
    exact missing_lowered h hdecl hinit hplain hvalued hkind hlowered
      fun code hemits => hrule code (.missing ⟨hlt, hemits⟩)
  -- The value is converted, and the register of the converted value tied to the declaration.
  | @tied value converted r s₁ s₂ _ hx hconvert hbind =>
    have hadv := ih.advances _ _ _ _ hx hs
    have hadv₂ := convert_advances hadv.sound (hadv.holds value rfl) hconvert
    have hholds := hadv₂.holds converted rfl
    have hadv₃ := bind_advances hadv₂.sound hholds hbind
    obtain ⟨hlowered, -⟩ := ih.stepAs hbefore hitem
      (.inr ⟨value, s₁, converted, hx, hconvert, rfl⟩) (hadv₃.grows.problems_eq hp)
    have hvalued_id : c.Valued id := hvalued.2 (hlowered.valued.1 rfl)
    have hbound := bind_passed (ℓ := ℓ) hlowered.passed.tracked hholds hdecl hvalued_id hbind
    -- The declaration had no register before: it has not been lowered, and is not below its value.
    have hnew := hlowered.passed.tracked.register_none ((hlowered.passed.owners id hid).trans
      (h.fresh id (by simp [c.tree.self_mem_preorder])).1)
    have hwrote := bind_piece hadv₂.sound hholds hbind
    obtain ⟨code, hcode, hemits⟩ := hlowered.converted converted rfl
    refine value_lowered hvalued_id (hlowered.passed.declared hs hbound hinit hplain)
      (hadv₃.holds r rfl) (hcode.trans hwrote.appends) fun hℓ => hrule _ ?_
    rw [hwrote.layout, hwrote.value]
    exact .tied (hemits (hbound.linked hℓ)) hnew rfl

theorem constant_lowered {name : String} {x : NodeId} (hshape : c.tree.shape id = .constant name x)
    (h : Before c done [id] s) (houtcome : DeclareOutcome c lower id x s v s')
    (hp : s'.problems = #[]) : Lowered c ℓ id s v s' := by
  have hid := h.inTree id (.head _)
  have hfits := hc.tree.fits id hid
  simp only [Tree.fits, hshape] at hfits
  have hchildren : c.tree.children id = [x] := Tree.children_of_shape hshape
  refine declare_lowered ih h (h.children hc hshape rfl) (by rw [hshape]; rfl)
    (by simp [hchildren]) (Shape.isItem_of_isExpr hfits) ?_ (c.valued_constant_iff hshape) ?_
    houtcome hp fun code hemits => ?_
  · intro y hy hne
    rw [hchildren, List.mem_singleton] at hy
    exact (hne hy).elim
  · rw [hc.typeOf_constant hid hshape]
  · rw [hshape]
    exact .constant hemits

omit ih in
/-- The declared type of a variable needs no code. -/
theorem var_before {name : String} {ty init : Option NodeId}
    (hshape : c.tree.shape id = .var name ty init) (h : Before c done [id] s) :
    (∃ done', Before c done' init.toList s)
      ∧ ∀ x ∈ ty.toList, ∀ y ∈ c.tree.preorder x, c.tree.IsPlain y := by
  have hid := h.inTree id (.head _)
  have hfits := hc.tree.fits id hid
  simp only [Tree.fits, hshape, Bool.and_eq_true] at hfits
  have hplain : ∀ x ∈ ty.toList, ∀ y ∈ c.tree.preorder x, c.tree.IsPlain y := by
    intro x hx
    obtain rfl := Option.mem_toList.1 hx
    refine hc.plain_of_isType (hc.tree.child hid ?_) (by simpa using hfits.1)
    simp [Tree.children_of_shape hshape, Shape.children]
  exact ⟨(h.children hc hshape rfl).skipAll hplain, hplain⟩

theorem var_lowered {name : String} {ty : Option NodeId} {x : NodeId}
    (hshape : c.tree.shape id = .var name ty (some x)) (h : Before c done [id] s)
    (houtcome : DeclareOutcome c lower id x s v s') (hp : s'.problems = #[]) :
    Lowered c ℓ id s v s' := by
  have hid := h.inTree id (.head _)
  have hfits := hc.tree.fits id hid
  simp only [Tree.fits, hshape, Bool.and_eq_true, Option.all_some] at hfits
  have hchildren : c.tree.children id = ty.toList ++ [x] := Tree.children_of_shape hshape
  obtain ⟨⟨done', hbefore⟩, hplain⟩ := var_before hc hshape h
  refine declare_lowered ih h hbefore (by rw [hshape]; rfl) (by simp [hchildren])
    (Shape.isItem_of_isExpr hfits.2) ?_ (c.valued_var_iff hshape) ?_ houtcome hp
    fun code hemits => ?_
  · intro y hy hne
    rw [hchildren, List.mem_append, List.mem_singleton] at hy
    exact hplain y (hy.resolve_right hne)
  · exact (hc.hasKind_var hid hshape).symm
  · rw [hshape]
    exact .var hemits

omit ih in
theorem varFresh_lowered {name : String} {ty : Option NodeId}
    (hshape : c.tree.shape id = .var name ty none) (h : Before c done [id] s) {r : Register}
    (hbind : bind c id s.current.nextRegister (c.span id) s.allocated = .ok (r, s')) :
    Lowered c ℓ id s (some r) s' := by
  have hs := h.tracked.toSound
  have hkeeps := Keeps.allocated hs
  have hadv := Advances.allocated hs
  have hholds := hadv.holds _ rfl
  have hvalued : c.Valued id := .varFresh hshape
  -- A register is given out and tied to the variable at once.
  have hbound := bind_passed (ℓ := ℓ) (hkeeps.tracked h.tracked) hholds (by rw [hshape]; rfl)
    hvalued hbind
  have hwrote := bind_piece hadv.sound hholds hbind
  have hpassed := (hkeeps.passed (c := c) (ℓ := ℓ) (P := fun _ => False) h.tracked
    fun _ h => h.elim).trans hs hbound fun _ h => h.elim
  have hlayout := layout_allocated hs
  refine value_lowered hvalued ?_ ((bind_advances hadv.sound hholds hbind).holds r rfl)
    ((Appends.allocated hs).trans hwrote.appends) fun _ => ?_
  · refine hpassed.around hshape (fun x hx => .inl (hx.resolve_left fun h => h)) (.inl (.inr rfl))
      ?_
    -- The declared type, if there is one, declares nothing.
    intro x hx
    refine .inr ((var_before hc hshape h).2 x ?_)
    simpa [Shape.children] using hx
  · rw [hwrote.layout, hwrote.value, hlayout, hshape]
    exact .varFresh (h.tracked.register_none (h.fresh id (by simp [c.tree.self_mem_preorder])).1)
      rfl

/-! ### Stores -/

theorem assign_lowered {target value : NodeId} (hshape : c.tree.shape id = .assign target value)
    (h : Before c done [id] s) (houtcome : AssignOutcome c lower id target value s s')
    (hp : s'.problems = #[]) : Lowered c ℓ id s none s' := by
  have hid := h.inTree id (.head _)
  have hs := h.tracked.toSound
  have hfits := hc.tree.fits id hid
  simp only [Tree.fits, hshape, Bool.and_eq_true] at hfits
  have hitem := Shape.isItem_of_isExpr hfits.2
  have hplain := plain_of_isVariable (hc.hasKind_assign hid hshape).1
  have hbefore : Before c done [target, value] s := h.children hc hshape rfl
  -- The target declares nothing, so passing the value is passing the whole statement.
  have around {s' : Lowering} (h : Passed c ℓ (· ∈ c.tree.preorder value) s s') :
      Passed c ℓ (· ∈ c.tree.preorder id) s s' := by
    refine h.aroundChild hshape ⟨rfl, rfl⟩ (by simp [Shape.children]) fun y hy hyx => ?_
    obtain rfl : y = target := by simp_all [Shape.children]
    exact hplain
  have hempty : ∀ τ, Typing.HasType c.typingContext c.typing id (.assign target value) τ →
      τ.hasKind = false := by
    intro τ hτ
    cases hτ
    rfl
  cases houtcome with
  -- A value without a register is not stored.
  | missing hx =>
    obtain ⟨hlowered, -⟩ := ih.step (hbefore.skip hplain) hitem hx hp
    obtain ⟨code, hcode, hemits⟩ := hlowered.emits
    have hlt := (ih _ _ _ _ hx).1
    exact statement_lowered hc hshape h rfl hempty (around hlowered.passed) hcode
      fun hℓ => .assignMissing ⟨hlt, hemits hℓ⟩
  -- The value, its conversion and the store are appended one after the other.
  | @stored r converted s₁ s₂ _ hx hconvert hstore =>
    have hadv := ih.advances _ _ _ _ hx hs
    have hadv₂ := convert_advances hadv.sound (hadv.holds r rfl) hconvert
    have hholds := hadv₂.holds converted rfl
    have hp₂ := (store_advances hadv₂.sound hholds hstore).grows.problems_eq hp
    obtain ⟨hlowered, -⟩ := ih.stepAs (hbefore.skip hplain) hitem
      (.inr ⟨r, s₁, converted, hx, hconvert, rfl⟩) hp₂
    obtain ⟨code, hcode, hemits⟩ := hlowered.converted converted rfl
    obtain ⟨hkeeps, hwrote⟩ := store_lowered hlowered.passed.tracked hholds hstore hp
    refine statement_lowered hc hshape h rfl hempty (around (hlowered.passed.keeps hs hkeeps))
      (hcode.trans hwrote.appends) fun hℓ => ?_
    rw [hwrote.layout]
    exact .assign (hemits (hkeeps.linked hℓ)) rfl

omit hc in
/-- One value of a parallel assignment is staged, and the next one begins. -/
theorem stage_lowered {value : NodeId} {values : List NodeId} {s₁ : Lowering}
    (h : Before c done (value :: values) s) (hitem : (c.tree.shape value).isItem = true)
    (houtcome : StageOutcome c lower value s v s₁) (hp : s₁.problems = #[]) :
    Passed c ℓ (· ∈ c.tree.preorder value) s s₁
      ∧ Before c (fun d => done d ∨ d ∈ c.tree.preorder value) values s₁
      ∧ ∃ code, s.Appends code s₁
        ∧ ∀ {rest : List CodeLine} {staged : List (Option Register)} {l : Layout}, s₁.Linked ℓ →
          EmitsStages c (EmitsBelow c ℓ id) values s₁.layout rest staged l →
          EmitsStages c (EmitsBelow c ℓ id) (value :: values) s.layout (code ++ rest)
            (v :: staged) l := by
  have hs := h.tracked.toSound
  cases houtcome with
  | missing hx =>
    obtain ⟨hlowered, hnext⟩ := ih.step h hitem hx hp
    obtain ⟨code, hcode, hemits⟩ := hlowered.emits
    have hlt := (ih _ _ _ _ hx).1
    exact ⟨hlowered.passed, hnext, code, hcode, fun hℓ => .missing ⟨hlt, hemits hℓ⟩⟩
  | @copied r s₀ hx hbound =>
    -- The register is that of a variable, which a store may change before the value is used.
    have hadv := ih.advances _ _ _ _ hx hs
    have hr : s₀.Holds r := hadv.holds r rfl
    obtain ⟨hkeeps, hholds, hlayout, happends⟩ := computed_lowered hadv.sound
      (i := ⟨.copy, s₀.current.nextRegister, .register r, .none⟩)
      (.copy (Advances.fresh_inFrame hadv.sound) (hr.mono (Nat.le_succ _))) rfl
      (c.typeOf value) (c.span value)
    obtain ⟨hlowered, hnext⟩ := ih.step h hitem hx (hkeeps.grows.problems_eq hp)
    obtain ⟨code, hcode, hemits⟩ := hlowered.emits
    have hlt := (ih _ _ _ _ hx).1
    have hpiece : s₀.layout.stage r (c.typeOf value) (c.span value)
        = ⟨[(⟨.copy, s₀.current.nextRegister, .register r, .none⟩, c.span value)],
            s₀.current.nextRegister, s₀.layout.computed (c.typeOf value)⟩ := by
      simp [Layout.stage, layout, hbound]
    refine ⟨hlowered.passed.keeps hs hkeeps, hnext.keeps hkeeps, _, hcode.trans happends,
      fun hℓ hrest => ?_⟩
    rw [hlayout] at hrest
    exact .staged (p := ⟨_, _, _⟩) ⟨hlt, hemits (hkeeps.linked hℓ)⟩ hpiece.symm hrest
  | @kept r _ hx hbound =>
    obtain ⟨hlowered, hnext⟩ := ih.step h hitem hx hp
    obtain ⟨code, hcode, hemits⟩ := hlowered.emits
    have hlt := (ih _ _ _ _ hx).1
    have hpiece : s₁.layout.stage r (c.typeOf value) (c.span value) = ⟨[], r, s₁.layout⟩ := by
      simp [Layout.stage, layout, hbound]
    refine ⟨hlowered.passed, hnext, code, hcode, fun hℓ hrest => ?_⟩
    rw [← List.append_nil code]
    exact .staged (p := ⟨[], r, s₁.layout⟩) ⟨hlt, hemits hℓ⟩ hpiece.symm hrest

omit hc in
theorem stages_lowered {values : List NodeId} {staged : List (Option Register)}
    (h : Before c done values s) (hitems : ∀ x ∈ values, (c.tree.shape x).isItem = true)
    (houtcome : StagesOutcome c lower values s staged s') (hp : s'.problems = #[]) :
    Passed c ℓ (· ∈ values.flatMap c.tree.preorder) s s'
      ∧ ∃ code, s.Appends code s'
        ∧ (s'.Linked ℓ →
          EmitsStages c (EmitsBelow c ℓ id) values s.layout code staged s'.layout) := by
  -- Value by value: the values before are done when the next one is lowered.
  induction houtcome generalizing done with
  | nil =>
    refine ⟨(Keeps.refl h.tracked.toSound).passed h.tracked fun x hx => ?_, [], .refl _,
      fun _ => .nil⟩
    simp at hx
  | @cons value values s s₁ s' v vs hstage hrest ihrest =>
    have hs := h.tracked.toSound
    have hs₁ := (stage_advances ih.advances hs hstage).sound
    have hp₁ := (stages_advances ih.advances hs₁ hrest).1.grows.problems_eq hp
    obtain ⟨hpassed, hnext, code, hcode, hemits⟩ :=
      stage_lowered ih h (hitems value (.head _)) hstage hp₁
    obtain ⟨hall, code', hcode', hemits'⟩ := ihrest hnext (fun x hx => hitems x (.tail _ hx)) hp
    have hnodup := h.nodup
    rw [List.flatMap_cons, List.nodup_append] at hnodup
    refine ⟨(hpassed.trans hs hall fun x hx hx' => ?_).congr fun x => ?_, _, hcode.trans hcode',
      fun hℓ => hemits (hall.linked hℓ) (hemits' hℓ)⟩
    · -- No node is below two of the values.
      exact hnodup.2.2 x hx x hx' rfl
    · rw [List.flatMap_cons, List.mem_append]

omit hc ih in
theorem stores_lowered {triples : List (NodeId × NodeId × Option Register)} (hs : s.Tracked)
    (houtcome : StoresOutcome c triples s s')
    (hholds : ∀ triple ∈ triples, ∀ r, triple.2.2 = some r → s.Holds r)
    (hp : s'.problems = #[]) :
    s.Keeps s' ∧ s'.layout = (s.layout.storeAll c triples).2
      ∧ s.Appends (s.layout.storeAll c triples).1 s' := by
  -- Store by store: each keeps what is known, so the next one can be carried out.
  induction houtcome with
  | nil => exact ⟨.refl hs.toSound, rfl, .refl _⟩
  | missing _ ihrest => exact ihrest hs (fun triple hmem => hholds triple (.tail _ hmem)) hp
  | @stored target value rest r converted s s₁ s₂ s' hconvert hstore hrest ihrest =>
    have hr := hholds _ (.head _) r rfl
    have hadv := convert_advances hs.toSound hr hconvert
    have hkeeps := convert_keeps hs.toSound hr hconvert
    have hwrote := convert_piece hs.toSound hconvert
    have hadv₂ := store_advances hadv.sound (hadv.holds _ rfl) hstore
    -- Registers of values that are stored later still hold them.
    have hmono : ∀ triple ∈ rest, ∀ r, triple.2.2 = some r → s₂.Holds r := by
      intro triple hmem r hr
      exact (hadv.trans hadv₂).keeps (hholds triple (.tail _ hmem) r hr)
    have hp₂ := (stores_advances hadv₂.sound hrest hmono).grows.problems_eq hp
    obtain ⟨hkeeps₂, hwrote₂⟩ :=
      store_lowered (hkeeps.tracked hs) (hadv.holds _ rfl) hstore hp₂
    obtain ⟨hkeeps₃, hlayout, happends⟩ :=
      ihrest (hkeeps₂.tracked (hkeeps.tracked hs)) hmono hp
    have hcode := (hwrote.appends.trans hwrote₂.appends).trans happends
    rw [hwrote₂.layout] at hlayout hcode
    simp only [hwrote.layout, hwrote.value] at hlayout hcode
    exact ⟨(hkeeps.trans hkeeps₂).trans hkeeps₃, hlayout, hcode⟩

theorem parallel_lowered {targets values : List NodeId} {staged : List (Option Register)}
    {s₁ : Lowering} (hshape : c.tree.shape id = .parallel targets values)
    (h : Before c done [id] s) (hstages : StagesOutcome c lower values s staged s₁)
    (hstores : StoresOutcome c (targets.zip (values.zip staged)) s₁ s')
    (hp : s'.problems = #[]) : Lowered c ℓ id s none s' := by
  have hid := h.inTree id (.head _)
  have hs := h.tracked.toSound
  have hfits := hc.tree.fits id hid
  simp only [Tree.fits, hshape, Bool.and_eq_true, List.all_eq_true] at hfits
  have hplain := fun x hx => plain_of_isVariable (hc.isVariable_parallel hid hshape (x := x) hx)
  -- The targets declare nothing, so the values begin where the statement does.
  obtain ⟨done', hbefore⟩ := (h.children hc hshape rfl).skipAll hplain
  obtain ⟨hadv, hholds⟩ := stages_advances ih.advances hs hstages
  have hmem : ∀ triple ∈ targets.zip (values.zip staged), ∀ r, triple.2.2 = some r →
      s₁.Holds r := by
    intro triple hmem r hr
    have hmem := (List.of_mem_zip hmem).2
    exact hholds r (hr ▸ (List.of_mem_zip hmem).2)
  have hp₁ := (stores_advances hadv.sound hstores hmem).grows.problems_eq hp
  -- The code is that of all the values, and then that of the stores.
  obtain ⟨hpassed, code, hcode, hemits⟩ := stages_lowered ih hbefore
    (fun x hx => Shape.isItem_of_isExpr (hfits.2 x hx)) hstages hp₁
  obtain ⟨hkeeps, hlayout, happends⟩ := stores_lowered hpassed.tracked hstores hmem hp
  refine statement_lowered hc hshape h rfl (fun τ hτ => by cases hτ; rfl) ?_
    (hcode.trans happends) fun hℓ => ?_
  · -- The targets have been passed together with the values.
    exact (hpassed.keeps hs hkeeps).aroundChildren hshape ⟨rfl, rfl⟩
      (fun x hx => List.mem_append_right _ hx)
      fun y hy hyx => hplain y ((List.mem_append.1 hy).resolve_right hyx)
  · rw [hlayout]
    exact .parallel (hemits (hkeeps.linked hℓ)) rfl

/-- A value is handed back once it has been converted to the declared result. -/
theorem returned_lowered {x : NodeId} {r r' : Register} {s₁ s₂ : Lowering}
    (hshape : c.tree.shape id = .ret (some x)) (h : Before c done [id] s)
    (hx : lower x s = .ok (some r, s₁)) (hkeeps : s₁.Keeps s₂) (hholds : s₂.Holds r')
    (hwrote : s₁.Wrote (s₁.layout.convertResult r (c.typeOf x) (c.resultTy? id) (c.span id)) r' s₂)
    (hp : s₂.problems = #[]) :
    Lowered c ℓ id s none
      (s₂.emitted ⟨.ret, .none, .register r', .none⟩ .empty (c.span id)) := by
  have hs := h.tracked.toSound
  have hfits := hc.tree.fits id (h.inTree id (.head _))
  simp only [Tree.fits, hshape, Option.all_some] at hfits
  obtain ⟨hlowered, -⟩ := ih.step (h.children hc hshape rfl) (Shape.isItem_of_isExpr hfits) hx
    (hkeeps.grows.problems_eq hp)
  obtain ⟨code, hcode, hemits⟩ := hlowered.emits
  have hpassed := hlowered.passed.keeps hs hkeeps
  have hs₂ := hpassed.tracked.toSound
  have hleaves : s₂.Keeps (s₂.emitted ⟨.ret, .none, .register r', .none⟩ .empty (c.span id)) :=
    .emitted hs₂ (.ret hholds) _ _
  refine statement_lowered hc hshape h rfl (fun τ hτ => by cases hτ <;> rfl)
    ((hpassed.keeps hs hleaves).aroundOnly hshape ⟨rfl, rfl⟩ rfl)
    ((hcode.trans hwrote.appends).trans (.emitted hs₂ _ _ _)) fun hℓ => ?_
  rw [layout_emitted_none hs₂ rfl, hwrote.layout, hwrote.value]
  exact .ret ⟨(ih _ _ _ _ hx).1, hemits (hkeeps.linked (hleaves.linked hℓ))⟩ rfl

theorem return_lowered {value : Option NodeId} (hshape : c.tree.shape id = .ret value)
    (h : Before c done [id] s) (houtcome : ReturnOutcome c lower id s value s')
    (hp : s'.problems = #[]) : Lowered c ℓ id s none s' := by
  have hs := h.tracked.toSound
  have hresult := h.result id (.head _)
  cases houtcome with
  -- Nothing is returned.
  | bare =>
    have hkeeps : s.Keeps (s.emitted ⟨.ret, .none, .none, .none⟩ .empty (c.span id)) :=
      .emitted hs .retNone _ _
    refine statement_lowered hc hshape h rfl (fun τ hτ => by cases hτ <;> rfl)
      (hkeeps.passed h.tracked (plain_of_leaf hshape ⟨rfl, rfl⟩ rfl)) (.emitted hs _ _ _) fun _ =>
      ?_
    rw [layout_emitted_none hs rfl]
    exact .retBare
  -- A value without a register is not returned; its type has no kind.
  | missing hx =>
    have hfits := hc.tree.fits id (h.inTree id (.head _))
    simp only [Tree.fits, hshape, Option.all_some] at hfits
    obtain ⟨hlowered, -⟩ := ih.step (h.children hc hshape rfl) (Shape.isItem_of_isExpr hfits) hx hp
    obtain ⟨code, hcode, hemits⟩ := hlowered.emits
    refine statement_lowered hc hshape h rfl (fun τ hτ => by cases hτ <;> rfl)
      (hlowered.passed.aroundOnly hshape ⟨rfl, rfl⟩ rfl) hcode fun hℓ =>
        .retMissing ⟨(ih _ _ _ _ hx).1, hemits hℓ⟩ (Bool.eq_false_iff.2 fun hkind => ?_)
    cases hlowered.kinded hkind
  -- The value is returned as it is, for no result type is declared.
  | @raw x r s₁ hx hnone =>
    have hadv := ih.advances _ _ _ _ hx hs
    rw [hadv.grows.result, hresult] at hnone
    refine returned_lowered hc ih hshape h hx (.refl hadv.sound) (hadv.holds r rfl) ?_ hp
    rw [hnone]
    exact ⟨rfl, rfl, .refl s₁⟩
  -- The value is converted to the declared result type first.
  | @converted x r r' result s₁ s₂ hx hsome hconvert =>
    have hadv := ih.advances _ _ _ _ hx hs
    have hholds := hadv.holds r rfl
    rw [hadv.grows.result, hresult] at hsome
    refine returned_lowered hc ih hshape h hx (convert_keeps hadv.sound hholds hconvert)
      ((convert_advances hadv.sound hholds hconvert).holds r' rfl) ?_ hp
    rw [hsome]
    exact convert_piece hadv.sound hconvert

end MiddleEnd.Lower
