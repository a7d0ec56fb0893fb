import MiddleEnd.Proofs.Lowering.Faithful.Basic

/-!
# Expressions are lowered faithfully

One lemma for each shape of an expression but native code: what is appended is the code that the
rule of the shape gives.

## Main results

* `Lower.binary_lowered`, `Lower.signed_lowered`, `Lower.cast_lowered` — operands are lowered and
  converted before the instruction that uses them.
* `Lower.ident_known` — what a name is bound to has been lowered before, unless it is a procedure.
* `Lower.ident_lowered` — a name has the register of its declaration, or loads a literal.
-/

namespace MiddleEnd.Lower

open Lowering

variable {c : LowerContext} {ℓ : Linkage} {lower : NodeId → Lower (Option Register)} {id : NodeId}
  {s s' : Lowering} {v : Option Register} {done : NodeId → Prop}

variable (hc : c.Sound) (ih : LowersBelow c ℓ lower id)

/-! ### Literals -/

/-- A literal that is loaded. -/
theorem load_lowered (h : Before c done [id] s) {w : Word} {ty : Ty} {span : Span} {r : Register}
    (hload : load c w ty span s = .ok (r, s')) (hplain : ∀ y ∈ c.tree.preorder id, c.tree.IsPlain y)
    (hvalued : c.Valued id)
    (hrule : ∀ index, ℓ.constants[index]? = some w →
      EmitsRule c ℓ (EmitsBelow c ℓ id) id (c.tree.shape id) s.layout
        (s.layout.load index ty span).code (some (s.layout.load index ty span).value)
        (s.layout.load index ty span).layout) :
    Lowered c ℓ id s (some r) s' := by
  have hs := h.tracked.toSound
  have hwrote := load_piece hs hload
  refine value_lowered hvalued ((load_keeps hs hload).passed h.tracked hplain)
    ((load_advances hs hload).holds r rfl) hwrote.appends fun hℓ => ?_
  rw [hwrote.layout, hwrote.value]
  exact hrule _ (load_linked hload hℓ)

theorem literal_lowered {lit : Literal} (hshape : c.tree.shape id = .literal lit)
    (h : Before c done [id] s) (hlit : literalRule c id (c.span id) lit s = .ok (v, s'))
    (hp : s'.problems = #[]) : Lowered c ℓ id s v s' := by
  rcases literalRule_ok hlit with ⟨-, rfl, rfl⟩ | ⟨value, r, hvalue, hload, rfl⟩
  · simp [withProblem] at hp
  · refine load_lowered h hload (plain_of_leaf hshape ⟨rfl, rfl⟩ rfl) (.literal hshape) ?_
    intro index hindex
    rw [hshape]
    exact .literal hvalue hindex rfl

/-! ### Operands -/

include hc ih

theorem group_lowered {x : NodeId} (hshape : c.tree.shape id = .group x)
    (h : Before c done [id] s) (hx : lower x s = .ok (v, s')) (hp : s'.problems = #[]) :
    Lowered c ℓ id s v s' := by
  have hid := h.inTree id (.head _)
  have hfits := hc.tree.fits id hid
  simp only [Tree.fits, hshape] at hfits
  have hbefore : Before c done [x] s := h.children hc hshape rfl
  obtain ⟨hlowered, -⟩ := ih.step hbefore (Shape.isItem_of_isExpr hfits) hx hp
  obtain ⟨code, hcode, hemits⟩ := hlowered.emits
  have hlt := (ih _ _ _ _ hx).1
  have hvalued := hlowered.valued.trans (c.valued_group_iff hshape).symm
  refine
    { passed := hlowered.passed.aroundOnly hshape ⟨rfl, rfl⟩ rfl
      holds := hlowered.holds
      valued := hvalued
      kinded := fun hkind => hlowered.kinded ?_
      emits := ⟨code, hcode, fun hℓ => Emits.rule_iff.2 ⟨hvalued, ?_⟩⟩ }
  · rwa [← hc.typeOf_group hid hshape]
  · rw [hshape]
    exact .group ⟨hlt, hemits hℓ⟩

/-- Both operands of an arithmetic expression are lowered, the left one first. -/
theorem operands_lowered {left op right : NodeId} {sym : BinaryOp} {a b : Option Register}
    {s₁ s₂ : Lowering} (hshape : c.tree.shape id = .binary left op right)
    (hop : c.tree.shape op = .binaryOp sym) (h : Before c done [id] s)
    (ha : operand c lower left (c.typeOf id) s = .ok (a, s₁))
    (hb : operand c lower right (c.typeOf id) s₁ = .ok (b, s₂)) (hp : s₂.problems = #[]) :
    LoweredAs c ℓ id left (c.typeOf id) (c.span left) s a s₁
      ∧ LoweredAs c ℓ id right (c.typeOf id) (c.span right) s₁ b s₂
      ∧ Passed c ℓ (· ∈ c.tree.preorder id) s s₂ := by
  have hs := h.tracked.toSound
  have hfits := hc.tree.fits id (h.inTree id (.head _))
  simp only [Tree.fits, hshape, Bool.and_eq_true] at hfits
  have hbefore : Before c done [left, op, right] s := h.children hc hshape rfl
  have hplain := plain_of_leaf hop ⟨rfl, rfl⟩ rfl
  -- The problems of a run are those of its parts, so there are none in between.
  have hadv := operand_advances ih.advances hs ha
  have hp₁ := (operand_advances ih.advances hadv.sound hb).grows.problems_eq hp
  obtain ⟨hleft, hnext⟩ := ih.stepAs hbefore (Shape.isItem_of_isExpr hfits.1.1) (operand_ok ha) hp₁
  obtain ⟨hright, -⟩ :=
    ih.stepAs (hnext.skip hplain) (Shape.isItem_of_isExpr hfits.2) (operand_ok hb) hp
  -- Passing the two operands is passing the whole, for the operator declares nothing.
  have hboth : Passed c ℓ (· ∈ [left, right].flatMap c.tree.preorder) s s₂ := by
    refine (hleft.passed.trans hs hright.passed fun x hx hx' => ?_).congr fun x => by simp
    have hnodup := hbefore.nodup
    simp only [List.flatMap_cons, List.nodup_append] at hnodup
    exact hnodup.2.2 x hx x (by simp [hx']) rfl
  refine ⟨hleft, hright, hboth.aroundChildren hshape ⟨rfl, rfl⟩ (by simp [Shape.children])
    fun y hy hyx => ?_⟩
  obtain rfl : y = op := by simp_all [Shape.children]
  exact hplain

/-- Both operands of an arithmetic expression are numbers, and so they have values. -/
theorem binary_lowered {left op right : NodeId} {sym : BinaryOp} {kind : Kind}
    (hshape : c.tree.shape id = .binary left op right) (hop : c.tree.shape op = .binaryOp sym)
    (hkind : Kind.ofTy? (c.typeOf id) = some kind) (h : Before c done [id] s)
    (houtcome : BinaryOutcome c lower id left right sym kind s v s') (hp : s'.problems = #[]) :
    Lowered c ℓ id s v s' := by
  have hkinds := hc.hasKind_binary (h.inTree id (.head _)) hshape
  cases houtcome with
  -- Both operands are numbers, so neither can be without a register.
  | missing ha hb hnone =>
    obtain ⟨hleft, hright, -⟩ := operands_lowered hc ih hshape hop h ha hb hp
    rcases hnone with rfl | rfl
    · cases hleft.kinded hkinds.1
    · cases hright.kinded hkinds.2
  -- The operation is appended to the code of the operands, in a register given out last.
  | @emitted a b s₁ s₂ ha hb =>
    obtain ⟨hleft, hright, hpassed⟩ := operands_lowered hc ih hshape hop h ha hb hp
    have hs₂ := hright.passed.tracked.toSound
    have hra : s₂.Holds a := (hleft.holds a rfl).mono hright.passed.grows.current.next
    have hrb : s₂.Holds b := hright.holds b rfl
    obtain ⟨hkeeps, hholds, hlayout, happends⟩ := computed_lowered hs₂
      (i := ⟨.binary sym kind, s₂.current.nextRegister, .register a, .register b⟩)
      (.binary (Advances.fresh_inFrame hs₂) (hra.mono (Nat.le_succ _)) (hrb.mono (Nat.le_succ _)))
      rfl (c.typeOf id) (c.span id)
    obtain ⟨code₁, hcode₁, hemits₁⟩ := hleft.converted a rfl
    obtain ⟨code₂, hcode₂, hemits₂⟩ := hright.converted b rfl
    refine value_lowered (.binary hshape) (hpassed.keeps h.tracked.toSound hkeeps) hholds
      ((hcode₁.trans hcode₂).trans happends) fun hℓ => ?_
    have hℓ₂ := hkeeps.linked hℓ
    rw [hshape, hlayout]
    exact .binary hop hkind (hemits₁ (hright.passed.linked hℓ₂)) (hemits₂ hℓ₂)

theorem signed_lowered {op x : NodeId} {sign : Sign} (hshape : c.tree.shape id = .signed op x)
    (hop : c.tree.shape op = .signOp sign) (h : Before c done [id] s)
    (houtcome : SignedOutcome c lower id x s sign v s') (hp : s'.problems = #[]) :
    Lowered c ℓ id s v s' := by
  have hid := h.inTree id (.head _)
  have hs := h.tracked.toSound
  have hfits := hc.tree.fits id hid
  simp only [Tree.fits, hshape, Bool.and_eq_true] at hfits
  have hitem := Shape.isItem_of_isExpr hfits.2
  have hbefore : Before c done [op, x] s := h.children hc hshape rfl
  have hplain := plain_of_leaf hop ⟨rfl, rfl⟩ rfl
  have hnext := hbefore.skip hplain
  have hkind := (hc.hasKind_signed hid hshape).1
  have hvalued : c.Valued id := .signed hshape
  -- The sign declares nothing, so passing the operand is passing the whole.
  have around {s' : Lowering} (h : Passed c ℓ (· ∈ c.tree.preorder x) s s') :
      Passed c ℓ (· ∈ c.tree.preorder id) s s' := by
    refine h.aroundChild hshape ⟨rfl, rfl⟩ (by simp [Shape.children]) fun y hy hyx => ?_
    obtain rfl : y = op := by simp_all [Shape.children]
    exact hplain
  cases houtcome with
  -- A plus has the value of the operand, converted.
  | plus hx =>
    obtain ⟨hoperand, -⟩ := ih.stepAs hnext hitem (operand_ok hx) hp
    cases v with
    | none => cases hoperand.kinded hkind
    | some r =>
      obtain ⟨code, hcode, hemits⟩ := hoperand.converted r rfl
      refine value_lowered hvalued (around hoperand.passed) (hoperand.holds r rfl) hcode fun hℓ =>
        ?_
      rw [hshape]
      exact .plus hop (hemits hℓ)
  | @folded w r s' hword hload =>
    have hwrote := load_piece hs hload
    -- The operand is an integer literal, perhaps in parentheses, and is not lowered.
    obtain ⟨-, spelling, -, -, hliteral, -⟩ := negatedLiteral_some hword
    have hx := plain_of_ungroup hliteral ⟨rfl, rfl⟩ rfl
    refine value_lowered hvalued (around ((load_keeps hs hload).passed h.tracked hx))
      ((load_advances hs hload).holds r rfl) hwrote.appends fun hℓ => ?_
    rw [hwrote.layout, hwrote.value, hshape]
    exact .folded hop hword (load_linked hload hℓ) rfl
  -- The operand is a number, so it cannot be without a register.
  | missing _ hx =>
    obtain ⟨hoperand, -⟩ := ih.stepAs hnext hitem (operand_ok hx) hp
    cases hoperand.kinded hkind
  -- A change of sign is appended to the code of the operand.
  | @emitted a kind s₁ hword hx hkind' =>
    obtain ⟨hoperand, -⟩ := ih.stepAs hnext hitem (operand_ok hx) hp
    have hs₁ := hoperand.passed.tracked.toSound
    have hra : s₁.Holds a := hoperand.holds a rfl
    obtain ⟨hkeeps, hholds, hlayout, happends⟩ := computed_lowered hs₁
      (i := ⟨.negate kind, s₁.current.nextRegister, .register a, .none⟩)
      (.negate (Advances.fresh_inFrame hs₁) (hra.mono (Nat.le_succ _)))
      rfl (c.typeOf id) (c.span id)
    obtain ⟨code, hcode, hemits⟩ := hoperand.converted a rfl
    refine value_lowered hvalued (around (hoperand.passed.keeps hs hkeeps)) hholds
      (hcode.trans happends) fun hℓ => ?_
    rw [hshape, hlayout]
    exact .minus hop hword hkind' (hemits (hkeeps.linked hℓ))

theorem call_lowered {callee : NodeId} {u : Option Register} {s₁ : Lowering}
    (hshape : c.tree.shape id = .call callee) (h : Before c done [id] s)
    (hcallee : lower callee s = .ok (u, s₁)) (houtcome : CallOutcome c id callee s₁ v s')
    (hp : s'.problems = #[]) : Lowered c ℓ id s v s' := by
  have hid := h.inTree id (.head _)
  have hs := h.tracked.toSound
  have hfits := hc.tree.fits id hid
  simp only [Tree.fits, hshape] at hfits
  have hbefore : Before c done [callee] s := h.children hc hshape rfl
  have hs₁ := (ih.advances _ _ _ _ hcallee hs).sound
  cases houtcome with
  -- An unknown procedure would have been reported.
  | indirect _ => simp [withProblem] at hp
  -- The call is appended to the code of the callee.
  | @direct target index htarget hindex =>
    obtain ⟨hkeeps, hholds, hlayout, happends⟩ := computed_lowered hs₁
      (i := ⟨.call, s₁.current.nextRegister, .procedure index, .none⟩)
      (.call (Advances.fresh_inFrame hs₁) (hs₁.targets _ _ hindex)) rfl (c.typeOf id) (c.span id)
    obtain ⟨hlowered, -⟩ := ih.step hbefore (Shape.isItem_of_isExpr hfits) hcallee
      (hkeeps.grows.problems_eq hp)
    obtain ⟨code, hcode, hemits⟩ := hlowered.emits
    have hlt := (ih _ _ _ _ hcallee).1
    have hpassed := (hlowered.passed.keeps hs hkeeps).aroundOnly hshape ⟨rfl, rfl⟩ rfl
    refine value_lowered (.call hshape) hpassed hholds (hcode.trans happends) fun hℓ => ?_
    have hbelow : EmitsBelow c ℓ id callee s.layout code u s₁.layout :=
      ⟨hlt, hemits (hkeeps.linked hℓ)⟩
    rw [hshape, hlayout]
    exact .call hbelow htarget (hℓ.targets target index hindex)

theorem cast_lowered {x y : NodeId} (hshape : c.tree.shape id = .cast x y)
    (h : Before c done [id] s) (hcast : castRule c lower id x s = .ok (v, s'))
    (hp : s'.problems = #[]) : Lowered c ℓ id s v s' := by
  have hid := h.inTree id (.head _)
  have hfits := hc.tree.fits id hid
  simp only [Tree.fits, hshape, Bool.and_eq_true] at hfits
  have hbefore : Before c done [x, y] s := h.children hc hshape rfl
  have hplain := hc.plain_of_isType (hbefore.inTree y (by simp)) hfits.2
  obtain ⟨hlowered, -⟩ := ih.stepAs hbefore (Shape.isItem_of_isExpr hfits.1) (castRule_ok hcast) hp
  have hvalued := hlowered.valued.trans (c.valued_cast_iff hshape).symm
  -- Only what has a kind can be cast to something that has one.
  have hkind : (c.typeOf id).hasKind = true → (c.typeOf x).hasKind = true := fun hkind =>
    (hc.hasKind_cast hid hshape).trans hkind
  -- The type declares nothing, so passing the operand is passing the whole.
  have hpassed : Passed c ℓ (· ∈ c.tree.preorder id) s s' := by
    refine hlowered.passed.aroundChild hshape ⟨rfl, rfl⟩ (by simp [Shape.children])
      fun z hz hzx => ?_
    obtain rfl : z = y := by simp_all [Shape.children]
    exact hplain
  cases v with
  | none =>
    obtain ⟨code, hcode, hemits⟩ := hlowered.missing rfl
    refine ⟨hpassed, hlowered.holds, hvalued, fun hk => hlowered.kinded (hkind hk), code, hcode,
      fun hℓ => Emits.rule_iff.2 ⟨hvalued, ?_⟩⟩
    rw [hshape]
    exact .castMissing (hemits hℓ)
  | some r =>
    obtain ⟨code, hcode, hemits⟩ := hlowered.converted r rfl
    refine ⟨hpassed, hlowered.holds, hvalued, fun hk => hlowered.kinded (hkind hk), code, hcode,
      fun hℓ => Emits.rule_iff.2 ⟨hvalued, ?_⟩⟩
    rw [hshape]
    exact .cast (hemits hℓ)

omit ih in
/-- A procedure, perhaps in parentheses, has the type of procedures. -/
theorem typeOf_of_isProcedure {x : NodeId} (hx : x ∈ c.tree.preorder c.root)
    (h : (c.tree.shape (c.tree.ungroup x)).isProcedure = true) : c.typeOf x = .procedure := by
  have hmem := c.tree.mem_preorder_trans hx (c.tree.ungroup_mem_preorder x)
  obtain ⟨result, body, hshape⟩ := Shape.exists_of_isProcedure h
  obtain ⟨τ, hτ, hty⟩ := hc.judged hmem hshape
  rw [← hc.typeOf_ungroup hx, hτ]
  cases hty
  rfl

omit ih in
/-- A constant that is a procedure has the type of procedures. -/
theorem typeOf_of_namesProcedure {decl : NodeId} (hdecl : decl ∈ c.tree.preorder c.root)
    (h : c.tree.namesProcedure decl = true) : c.typeOf decl = .procedure := by
  unfold Tree.namesProcedure at h
  split at h
  · next name x hshape =>
    have hx : x ∈ c.tree.children decl := by simp [Tree.children_of_shape hshape, Shape.children]
    rw [hc.typeOf_constant hdecl hshape]
    exact typeOf_of_isProcedure hc (hc.tree.child hdecl hx) h
  · cases h

omit ih in
/-- What an identifier is bound to is known, unless it is a procedure. -/
theorem ident_known {x decl : NodeId} {name : String} (hshape : c.tree.shape x = .ident name)
    (h : Before c done [x] s) (hdecl : c.resolution.declaration? x = some decl)
    (hty : c.typeOf decl ≠ .procedure) : Knows c s decl := by
  obtain ⟨decl', hdecl', hmem, hdeclares⟩ := hc.analysis.bound x name (h.inTree x (.head _)) hshape
  obtain rfl := Option.some.inj (hdecl.symm.trans hdecl')
  cases h.served with
  | cons hserved _ =>
    cases hserved with
    | node hident _ =>
      obtain ⟨decl', hdecl', hdone⟩ := hident name hshape
      obtain rfl := Option.some.inj (hdecl.symm.trans hdecl')
      rcases hdone with hdone | hnames
      · exact h.knows decl hdone hdeclares
      · exact (hty (typeOf_of_namesProcedure hc hmem hnames)).elim

omit hc ih in
/-- A node without a value for which there is nothing to do. -/
theorem absent_lowered (h : Before c done [id] s)
    (hplain : ∀ y ∈ c.tree.preorder id, c.tree.IsPlain y) (hnot : ¬c.Valued id)
    (hkind : (c.typeOf id).hasKind = false)
    (hrule : EmitsRule c ℓ (EmitsBelow c ℓ id) id (c.tree.shape id) s.layout [] none s.layout) :
    Lowered c ℓ id s none s := by
  have hvalued : (none : Option Register).isSome = true ↔ c.Valued id := by simp [hnot]
  refine ⟨(Keeps.refl h.tracked.toSound).passed h.tracked hplain, fun _ h => (by cases h), hvalued,
    fun hk => ?_, [], .refl s, fun _ => Emits.rule_iff.2 ⟨hvalued, hrule⟩⟩
  rw [hkind] at hk
  cases hk

omit ih in
theorem ident_lowered {decl : NodeId} {name : String} (hshape : c.tree.shape id = .ident name)
    (h : Before c done [id] s) (hdecl : c.resolution.declaration? id = some decl)
    (houtcome : IdentOutcome c id decl s v s') (hp : s'.problems = #[]) :
    Lowered c ℓ id s v s' := by
  have hs := h.tracked.toSound
  have hiff := c.valued_ident_iff hshape hdecl
  have hplain := plain_of_leaf hshape ⟨rfl, rfl⟩ rfl
  have htypeOf := hc.typeOf_ident (h.inTree id (.head _)) hshape hdecl
  -- A declaration that has an owner has a value, and so have its names.
  have hvalued {owner : Nat} (hty : c.typeOf decl ≠ .procedure)
      (howner : s.ownerOf[decl]? = some owner) : c.Valued id := by
    refine hiff.2 ⟨hty, (ident_known hc hshape h hdecl hty).valued.1 ?_⟩
    rw [howner]
    rfl
  cases houtcome with
  -- Values of structures and enumerations would have been reported.
  | shape _ => simp [withProblem] at hp
  | procedure _ hty =>
    refine absent_lowered h hplain (by simp [hiff, hty]) (by rw [htypeOf, hty]; rfl) ?_
    rw [hshape]
    exact .identProcedure hdecl hty
  -- A declaration without an owner has no value, and its type has no kind.
  | unowned _ hty howner =>
    have hknows := ident_known hc hshape h hdecl hty
    have hnot : ¬c.Valued decl := by
      rw [← hknows.valued, howner]
      simp
    refine absent_lowered h hplain (by simp [hiff, hnot]) (Bool.eq_false_iff.2 fun hkind => ?_) ?_
    · have hsome := hknows.kinded (htypeOf ▸ hkind)
      rw [howner] at hsome
      cases hsome
    · rw [hshape]
      exact .identAbsent hdecl hty (h.tracked.register_none howner) hnot
  | @outer owner _ _ _ hty howner hne houter =>
    -- The declaration has a register in another procedure, so it has none here.
    have hnone : s.layout.registers[decl]? = none := by
      cases hr : s.layout.registers[decl]? with
      | none => rfl
      | some r =>
        rw [(h.tracked.owned decl).1 ⟨r, hr⟩] at howner
        exact (hne (Option.some.inj howner).symm).elim
    -- A literal is loaded again; anything else of another procedure would have been reported.
    rcases outerRule_ok houter with ⟨x, lit, hlit, hload⟩ | ⟨-, -, rfl⟩
    · rcases literalRule_ok hload with ⟨-, -, rfl⟩ | ⟨value, r, hvalue, hword, rfl⟩
      · simp [withProblem] at hp
      · refine load_lowered h hword hplain (hvalued hty howner) fun index hindex => ?_
        rw [hshape]
        exact .identLiteral hdecl hty hnone hlit hvalue hindex rfl
    · simp [withProblem] at hp
  -- A declaration of this procedure is where its home is, and there is no code.
  | @own r _ hty howner hr =>
    refine value_lowered (hvalued hty howner) ((Keeps.refl hs).passed h.tracked hplain)
      (hs.current.registers decl r hr) (.refl s) fun _ => ?_
    rw [hshape]
    exact .identOwn hdecl hty hr

end MiddleEnd.Lower
