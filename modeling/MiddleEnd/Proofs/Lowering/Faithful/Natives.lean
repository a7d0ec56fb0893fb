import MiddleEnd.Proofs.Lowering.Faithful.Expressions

/-!
# Native code is lowered faithfully

The slots of native code are tied to names.  Its inputs are lowered as these names are, and its
output is the register of a variable, so that the whole is one call behind the code of its inputs.

## Main results

* `Lower.inputs_lowered` — the inputs are lowered in their order.
* `Lower.output_lowered` — the output has a register already.
* `Lower.native_lowered` — **native code is called after its inputs**.
-/

namespace MiddleEnd.Lower

open Lowering

variable {c : LowerContext} {ℓ : Linkage} {lower : NodeId → Lower (Option Register)} {id : NodeId}
  {s s' : Lowering} {v : Option Register} {done : NodeId → Prop}

variable (hc : c.Sound) (ih : LowersBelow c ℓ lower id)

include hc ih

omit ih in
/-- A slot of native code is tied to a name whose type has a kind. -/
theorem slot_fits {x target : NodeId} {offset : Nat} (hx : x ∈ c.tree.preorder c.root)
    (hslot : c.tree.shape x = .slot target offset) :
    (∃ name, c.tree.shape target = .ident name) ∧ (c.typeOf target).hasKind = true := by
  constructor
  · exact (hc.tree.slot_ident hx hslot).2
  · obtain ⟨τ, -, hty⟩ := hc.judged hx hslot
    cases hty with
    | slot hdone hτ =>
      show (c.typing.typeOf target).hasKind = true
      rw [hdone.typeOf, Ty.hasKind_eq]
      rcases hτ with hτ | rfl
      · simp [hτ]
      · rfl

/-- A slot is lowered as the name that it is tied to, which has a value. -/
theorem slot_lowered {input target : NodeId} {offset : Nat} {rest : List NodeId}
    (h : Before c done (input :: rest) s) (hslot : c.tree.shape input = .slot target offset)
    (hx : lower target s = .ok (v, s')) (hp : s'.problems = #[]) :
    Lowered c ℓ target s v s' ∧ Passed c ℓ (· ∈ c.tree.preorder input) s s' ∧ v.isSome = true := by
  obtain ⟨⟨name, hname⟩, hkind⟩ := slot_fits hc (h.inTree input (.head _)) hslot
  have hbefore : Before c done [target] s := h.head.children hc hslot rfl
  obtain ⟨hlowered, -⟩ := ih.step hbefore (by rw [hname]; rfl) hx hp
  exact ⟨hlowered, hlowered.passed.aroundOnly hslot ⟨rfl, rfl⟩ rfl, hlowered.kinded hkind⟩

/-- The inputs of native code are lowered in their order, and none is missing. -/
theorem inputs_lowered {inputs : List NodeId} {slots : Option (List NativeSlot)}
    {rest : List NodeId} (h : Before c done (inputs ++ rest) s)
    (houtcome : InputsOutcome c lower inputs s slots s') (hp : s'.problems = #[]) :
    (∃ done', Before c done' rest s') ∧ Passed c ℓ (· ∈ inputs.flatMap c.tree.preorder) s s'
      ∧ ∃ l code, slots = some l ∧ s.Appends code s'
        ∧ (s'.Linked ℓ → EmitsInputs c (EmitsBelow c ℓ id) inputs s.layout code l s'.layout) := by
  induction houtcome generalizing done with
  | nil =>
    refine ⟨⟨done, h⟩, (Keeps.refl h.tracked.toSound).passed h.tracked fun x hx => ?_, [], [], rfl,
      .refl _, fun _ => .nil⟩
    simp at hx
  | missing hslot hx =>
    obtain ⟨-, -, hsome⟩ := slot_lowered (ℓ := ℓ) hc ih h hslot hx hp
    cases hsome
  | cut hslot hx hrest ihrest =>
    have hs₁ := (ih.advances _ _ _ _ hx h.tracked.toSound).sound
    have hp₁ := (inputs_advances ih.advances hs₁ hrest).1.grows.problems_eq hp
    obtain ⟨-, hpassed, -⟩ := slot_lowered (ℓ := ℓ) hc ih h hslot hx hp₁
    -- The rest has all its slots, so the inputs were not cut short.
    obtain ⟨-, -, l, -, hl, -⟩ := ihrest (h.next hpassed) hp
    cases hl
  | cons hslot hx hrest ihrest =>
    have hs := h.tracked.toSound
    have hs₁ := (ih.advances _ _ _ _ hx hs).sound
    have hp₁ := (inputs_advances ih.advances hs₁ hrest).1.grows.problems_eq hp
    obtain ⟨hlowered, hpassed, -⟩ := slot_lowered hc ih h hslot hx hp₁
    obtain ⟨hafter, hall, l, code', hl, hcode', hemits'⟩ := ihrest (h.next hpassed) hp
    obtain rfl := Option.some.inj hl
    obtain ⟨code, hcode, hemits⟩ := hlowered.emits
    have hlt := (ih _ _ _ _ hx).1
    have hnodup := h.nodup
    simp only [List.cons_append, List.flatMap_cons, List.flatMap_append,
      List.nodup_append] at hnodup
    refine ⟨hafter, (hpassed.trans hs hall fun x hx hx' => ?_).congr fun x => ?_, _, _, rfl,
      hcode.trans hcode', fun hℓ => .cons hslot ⟨hlt, hemits (hall.linked hℓ)⟩ (hemits' hℓ)⟩
    · exact hnodup.2.2 x hx x (List.mem_append_left _ hx') rfl
    · rw [List.flatMap_cons, List.mem_append]

omit ih in
/-- The output of native code has a register: the type of its variable has a kind. -/
theorem output_lowered {output : NodeId} {slot : Option (Option NativeSlot)}
    (h : Before c done [output] s) (hout : nativeOutput c (some output) s = .ok (slot, s'))
    (hp : s'.problems = #[]) :
    s = s' ∧ ∃ target offset r, c.tree.shape output = .slot target offset
      ∧ s.layout.home c target = some r ∧ s.Holds r
      ∧ slot = some (some ⟨slotName c target, offset, r⟩) := by
  have hs := h.tracked.toSound
  have hmem := h.inTree output (.head _)
  rcases nativeOutput_ok hout with ⟨hnone, -⟩ | ⟨x, target, offset, v, hx, hslot, hplace, rfl⟩
  · cases hnone
  · obtain rfl := Option.some.inj hx
    -- The slot is tied to a name whose type has a kind.
    obtain ⟨⟨name, hname⟩, hkind⟩ := slot_fits hc hmem hslot
    have hungroup : c.tree.ungroup target = target :=
      Tree.ungroup_of_not_group (by simp [hname])
    have hholds := (place_advances hs hplace).holds
    obtain ⟨decl, hdecl, houtcome⟩ := place_ok hplace
    have hbefore : Before c done [target] s := h.children hc hslot rfl
    rw [hungroup] at hdecl houtcome
    have htypeOf := hc.typeOf_ident (hbefore.inTree target (.head _)) hname hdecl
    have hty : c.typeOf decl ≠ .procedure := by
      intro hty
      rw [htypeOf, hty] at hkind
      cases hkind
    -- A declaration of such a type has an owner; if that were another procedure, it would have been
    -- reported.
    have hsome := (ident_known hc hname hbefore hdecl hty).kinded (htypeOf ▸ hkind)
    have howner : s.ownerOf[decl]? = some s.frame.index := by
      cases houtcome with
      | unowned hnone =>
        rw [hnone] at hsome
        cases hsome
      | outer _ _ => simp [withProblem] at hp
      | own howner => exact howner
    obtain ⟨rfl, hhome⟩ := place_home h.tracked hplace hp
    obtain ⟨r, hr⟩ := (h.tracked.owned decl).2 howner
    have hv : v = some r := by
      rw [hhome]
      simp only [Layout.home, hungroup, hdecl, Option.bind_some]
      exact hr
    subst hv
    exact ⟨rfl, target, offset, r, hslot, hhome.symm, hholds r rfl, rfl⟩

omit ih in
/-- The slot of an output is tied to a name, and so nothing is declared there. -/
theorem plain_of_output {source : String} {inputs : List NodeId} {output : Option NodeId}
    (hshape : c.tree.shape id = .native source inputs output) (hid : id ∈ c.tree.preorder c.root) :
    ∀ x ∈ output.toList, ∀ y ∈ c.tree.preorder x, c.tree.IsPlain y := by
  intro x hx y hy
  have hmem : x ∈ c.tree.preorder c.root :=
    hc.tree.child hid (by
      rw [Tree.children_of_shape hshape]
      exact List.mem_append_right _ hx)
  have hfits := hc.tree.fits id hid
  simp only [Tree.fits, hshape, Bool.and_eq_true] at hfits
  obtain rfl := Option.mem_toList.1 hx
  have hslot : (c.tree.shape x).isSlot = true := by simpa using hfits.2
  cases hx' : c.tree.shape x <;> rw [hx'] at hslot <;> first | (cases hslot; done) | skip
  next target offset =>
  obtain ⟨⟨name, hname⟩, -⟩ := slot_fits hc hmem hx'
  rcases c.tree.mem_preorder.1 hy with rfl | ⟨z, hz, hy⟩
  · exact Tree.isPlain_of_shape hx' ⟨rfl, rfl⟩
  · rw [Tree.children_of_shape hx'] at hz
    obtain rfl := List.mem_singleton.1 hz
    exact plain_of_leaf hname ⟨rfl, rfl⟩ rfl y hy

omit hc ih in
/-- The instruction that calls native code keeps to what has been lowered, and it finds its native
code in the table. -/
theorem nativeCall_lowered (hs : s.Sound) (native : NativeCall) {out : Register}
    (hout : out = (native.output.map NativeSlot.register).getD .none)
    (hinputs : ∀ slot ∈ native.inputs, s.Holds slot.register)
    (houtput : ∀ slot, native.output = some slot → s.Holds slot.register) (ty : Ty) (span : Span) :
    let i : Instruction := ⟨.callNative, out, .native s.program.natives.size, .none⟩
    s.Keeps ((s.withNative native).emitted i ty span)
      ∧ s.Appends [(i, span)] ((s.withNative native).emitted i ty span)
      ∧ (((s.withNative native).emitted i ty span).Linked ℓ →
          ℓ.natives[s.program.natives.size]? = some native) := by
  intro i
  have hindex : (s.withNative native).program.natives[s.program.natives.size]? = some native := by
    simp [withNative]
  have hfits : i.Fits (s.withNative native).program (s.withNative native).current.nextRegister := by
    subst hout
    exact .callNative hindex hinputs houtput
  have hsame : s.Appends [] (s.withNative native) := .of_current rfl
  exact ⟨(Keeps.withNative hs native).trans (.emitted (hs.withNative native) hfits ty span),
    hsame.trans (.emitted (hs.withNative native) i ty span), fun hℓ => hℓ.native hindex⟩

/-- Native code is called after its inputs; what it writes has been given a register before. -/
theorem native_lowered {source : String} {inputs : List NodeId} {output : Option NodeId}
    (hshape : c.tree.shape id = .native source inputs output) (h : Before c done [id] s)
    (houtcome : NativeOutcome c lower id source inputs output s v s') (hp : s'.problems = #[]) :
    Lowered c ℓ id s v s' := by
  have hs := h.tracked.toSound
  have hbefore : Before c done (inputs ++ output.toList) s := h.children hc hshape rfl
  have hplain := plain_of_output hc hshape (h.inTree id (.head _))
  -- The output declares nothing, so passing the inputs is passing the whole.
  have around {s' : Lowering} (hpassed : Passed c ℓ (· ∈ inputs.flatMap c.tree.preorder) s s') :
      Passed c ℓ (· ∈ c.tree.preorder id) s s' :=
    hpassed.aroundChildren hshape ⟨rfl, rfl⟩ (fun x hx => List.mem_append_left _ hx)
      fun y hy hyx => hplain y ((List.mem_append.1 hy).resolve_left hyx)
  cases houtcome with
  | tooMany _ => simp [withProblem] at hp
  -- Inputs have types with kinds, so none is without a register.
  | noInput hinputs =>
    obtain ⟨-, -, l, -, hl, -⟩ := inputs_lowered hc ih hbefore hinputs hp
    cases hl
  -- Neither is the output.
  | @noOutput slots s₁ _ hinputs houtput =>
    have hs₁ := (inputs_advances ih.advances hs hinputs).1.sound
    have hp₁ := (output_advances hs₁ houtput).1.grows.problems_eq hp
    obtain ⟨⟨done', hafter⟩, -⟩ := inputs_lowered hc ih hbefore hinputs hp₁
    cases output with
    | none => rcases nativeOutput_ok houtput with ⟨-, hnone, -⟩ | ⟨x, _, _, _, hx, -⟩ <;> simp_all
    | some output =>
      obtain ⟨-, target, offset, r, -, -, -, hslot⟩ := output_lowered hc hafter houtput hp
      cases hslot
  -- The call is appended to the code of the inputs.
  | @emitted slots slot s₁ s₂ out hcount hinputs hout houtput =>
    obtain ⟨hin, hslots⟩ := inputs_advances ih.advances hs hinputs
    obtain ⟨hadv, hslot⟩ := output_advances hin.sound houtput
    obtain ⟨⟨done', hafter⟩, hpassed, l, code, hl, hcode, hemits⟩ :=
      inputs_lowered hc ih hbefore hinputs (hadv.grows.problems_eq hp)
    obtain rfl := Option.some.inj hl
    obtain ⟨hkeeps, happends, hindex⟩ := nativeCall_lowered (ℓ := ℓ) hadv.sound
      ⟨source, slots, slot⟩ hout (fun slot hmem => hadv.keeps (hslots slots rfl slot hmem))
      (fun o ho => hslot o (congrArg some ho)) ((output.map c.typeOf).getD .empty) (c.span id)
    cases output with
    -- Without an output the call writes nothing, and the layout stays as it is.
    | none =>
      obtain ⟨rfl, rfl⟩ : slot = none ∧ s₁ = s₂ := by
        rcases nativeOutput_ok houtput with ⟨-, hslot, rfl⟩ | ⟨x, _, _, _, hx, -⟩ <;> simp_all
      obtain rfl : out = Register.none := hout
      have hlayout := layout_emitted_none (hin.sound.withNative ⟨source, slots, none⟩)
        (i := ⟨.callNative, Register.none, .native s₁.program.natives.size, .none⟩) rfl
        ((none.map c.typeOf).getD .empty) (c.span id)
      refine statement_lowered hc hshape h rfl (fun τ hτ => by cases hτ; rfl)
        (around (hpassed.keeps hs hkeeps)) (hcode.trans happends) fun hℓ => ?_
      rw [hlayout]
      exact .nativeSilent (hemits (hkeeps.linked hℓ)) (hindex hℓ)
    -- With an output the call writes its home, where the value is.
    | some output =>
      obtain ⟨rfl, target, offset, r, hshape', hhome, hr, hsome⟩ :=
        output_lowered hc hafter houtput (by exact hp)
      obtain rfl := Option.some.inj hsome
      obtain rfl : out = r := hout
      have hne : out ≠ Register.none := hr.ne_none
      have hlayout := layout_emitted (hin.sound.withNative
          ⟨source, slots, some ⟨slotName c target, offset, out⟩⟩)
        (i := ⟨.callNative, out, .native s₁.program.natives.size, .none⟩) hne
        (((some output).map c.typeOf).getD .empty) (c.span id)
      rw [if_neg hne]
      refine value_lowered (.native hshape) (around (hpassed.keeps hs hkeeps))
        (hr.mono hkeeps.grows.current.next) (hcode.trans happends) fun hℓ => ?_
      rw [hshape, hlayout]
      exact .native (hemits (hkeeps.linked hℓ)) hshape' hhome (hindex hℓ)

end MiddleEnd.Lower
