import MiddleEnd.Proofs.Lowering.Mirrors

/-!
# Code of trees with more parentheses

Parentheses around expressions change no code.  A group has none of its own, and whoever has to know
what an expression is looks inside of it: folded negations, constants that are read, targets of
stores, callees, and what native code is tied to.  Only the name of a procedure is taken from the
node right above it.

## Main results

* `Lower.rule_mirrors` — the rule of a node that has not been added.
* `Lower.node_mirrors` — **a node has the same code as the one that it stands for.**
-/

namespace MiddleEnd

open Runs

namespace Lower

variable {c c' : LowerContext} {origin : NodeId → NodeId} (h : c.Regroups c' origin)
  {lower lower' : NodeId → Lower (Option Register)} {x : NodeId}

include h

/-! ### Expressions -/

theorem operand_mirrors (hx : x ∈ c'.tree.preorder c'.root)
    (hlower : Mirrored c c' origin (lower (origin x)) (lower' x)) (ty : Ty) :
    Mirrored c c' origin (operand c lower (origin x) ty) (operand c' lower' x ty) := by
  unfold operand
  rw [h.typeOf x hx, h.span hx]
  refine hlower.bind fun value => ?_
  cases value with
  | none => exact .pure _
  | some value => exact (convert_mirrors h value _ ty _).bind fun _ => .pure _

theorem literalRule_mirrors {lit : Literal} (hx : x ∈ c'.tree.preorder c'.root)
    (hshape : c'.tree.shape x = .literal lit) (span : Span) :
    Mirrored c c' origin (literalRule c (origin x) span lit) (literalRule c' x span lit) := by
  unfold literalRule
  cases lit with
  | text s => exact refused_mirrors _ _ _
  | number s | char s =>
    simp only [h.literal x hx _ hshape (by simp), h.typeOf x hx]
    cases c.typing.literal? (origin x) with
    | none => exact .throw _
    | some v => exact (load_mirrors h v.word _ span).bind fun _ => .pure _

/-- The literal that a constant stands for is the same. -/
theorem literalConstant?_eq (hx : c'.Keeps origin x) :
    literalConstant? c.tree (origin x)
      = (literalConstant? c'.tree x).map fun p => (origin p.1, p.2) := by
  unfold literalConstant?
  rw [h.shape hx]
  cases hshape : c'.tree.shape x <;> try rfl
  next name definition =>
  have hmem := h.wellFormed'.child hx.1 (x := definition) (by
    simp [Tree.children, hshape, Shape.children])
  simp only [Shape.rename, h.tree.origin_ungroup hmem,
    h.shape (LowerContext.Regroups.keeps_ungroup hmem)]
  cases c'.tree.shape (c'.tree.ungroup definition) <;> rfl

theorem declaresShape_eq (hx : c'.Keeps origin x) :
    declaresShape c.tree (origin x) = declaresShape c'.tree x := by
  unfold declaresShape
  rw [h.shape hx]
  cases hshape : c'.tree.shape x <;> try rfl
  next name definition =>
  have hmem := h.wellFormed'.child hx.1 (x := definition) (by
    simp [Tree.children, hshape, Shape.children])
  simp only [Shape.rename, h.tree.shape_ungroup hmem]
  cases c'.tree.shape (c'.tree.ungroup definition) <;> rfl

omit h in
/-- A constant that stands for a literal is defined by it. -/
theorem shape_of_literalConstant? {t : Tree} {root d y : NodeId} {lit : Literal}
    (hd : d ∈ t.preorder root) (h : literalConstant? t d = some (y, lit)) :
    y ∈ t.preorder root ∧ t.shape y = .literal lit := by
  unfold literalConstant? at h
  split at h
  · next name definition hshape =>
    split at h
    · next lit' hliteral =>
      cases h
      exact ⟨t.mem_preorder_trans hd (t.mem_preorder_of_child
        (by simp [Tree.children, hshape, Shape.children]) (t.ungroup_mem_preorder definition)),
        hliteral⟩
    · cases h
  · cases h

theorem outerRule_mirrors {decl : NodeId} (hx : x ∈ c'.tree.preorder c'.root)
    (hdecl : c'.Keeps origin decl) :
    Mirrored c c' origin (outerRule c (origin x) (origin decl)) (outerRule c' x decl) := by
  unfold outerRule
  rw [literalConstant?_eq h hdecl, h.span hx]
  cases hconstant : literalConstant? c'.tree decl with
  | none => exact refused_mirrors _ _ _
  | some p =>
    obtain ⟨hmem, hliteral⟩ := shape_of_literalConstant? hdecl.1 hconstant
    exact literalRule_mirrors h hmem hliteral _

theorem identRule_mirrors (hx : c'.Keeps origin x) :
    Mirrored c c' origin (identRule c (origin x)) (identRule c' x) := by
  unfold identRule
  rw [h.declaration hx]
  cases hdecl : c'.resolution.declaration? x with
  | none => exact .throw _
  | some decl =>
    have hkept := h.keeps_declaration hdecl
    simp only [Option.map_some, declaresShape_eq h hkept, h.span hx.1, h.typeOf decl hkept.1]
    refine .ite (fun _ => refused_mirrors _ _ _) fun _ => ?_
    refine .ite (fun _ => .pure _) fun _ => .get fun s s' hs => ?_
    rw [hs.ownerOf decl hkept]
    cases s.ownerOf[origin decl]? with
    | none => exact .pure _
    | some owner =>
      simp only [hs.frame, hs.current.registers decl hkept]
      refine .ite (fun _ => outerRule_mirrors h hx.1 hkept) fun _ => ?_
      cases s.current.registers[origin decl]? with
      | none => exact .throw _
      | some register => exact .pure _

theorem binaryRule_mirrors {left op right : NodeId} (hx : x ∈ c'.tree.preorder c'.root)
    (hshape : c'.tree.shape x = .binary left op right)
    (hlower : ∀ y ∈ c'.tree.children x, Mirrored c c' origin (lower (origin y)) (lower' y)) :
    Mirrored c c' origin (binaryRule c lower (origin x) (origin left) (origin op) (origin right))
      (binaryRule c' lower' x left op right) := by
  have hchildren : c'.tree.children x = [left, op, right] := by
    simp [Tree.children, hshape, Shape.children]
  have hmem : ∀ y ∈ [left, op, right], y ∈ c'.tree.preorder c'.root := fun y hy =>
    h.wellFormed'.child hx (hchildren ▸ hy)
  rw [hchildren] at hlower
  have hfits := h.wellFormed'.fits x hx
  simp only [Tree.fits, hshape, Bool.and_eq_true] at hfits
  unfold binaryRule
  cases hop : c'.tree.shape op <;> rw [hop] at hfits <;> first | (cases hfits.1.2; done) | skip
  next o =>
  simp only [h.shape ⟨hmem op (by simp), Tree.adds_of_shape (by simp [hop])⟩, hop, Shape.rename,
    h.typeOf x hx, h.span hx]
  cases Kind.ofTy? (c.typeOf (origin x)) with
  | none => exact .throw _
  | some kind =>
    refine (operand_mirrors h (hmem left (by simp)) (hlower left (by simp)) _).bind fun a => ?_
    refine (operand_mirrors h (hmem right (by simp)) (hlower right (by simp)) _).bind fun b => ?_
    cases a with
    | none => exact .pure _
    | some a =>
      cases b with
      | none => exact .pure _
      | some b =>
        exact computed_mirrors h _ _ _ _ _

/-- The word of a negated literal is the same, whatever parentheses are around the literal. -/
theorem negatedLiteral?_eq (hx : x ∈ c'.tree.preorder c'.root) (ty : Ty) :
    negatedLiteral? c' x ty = negatedLiteral? c (origin x) ty := by
  have hkept : c'.Keeps origin (c'.tree.ungroup x) := LowerContext.Regroups.keeps_ungroup hx
  unfold negatedLiteral?
  simp only [h.tree.origin_ungroup hx, h.shape hkept]
  cases hshape : c'.tree.shape (c'.tree.ungroup x)
  case literal lit =>
    cases lit with
    | number spelling => simp only [Shape.rename, h.literal _ hkept.1 _ hshape (by simp)]
    | char _ | text _ => simp [Shape.rename]
  all_goals simp [Shape.rename]

theorem signedRule_mirrors {op operand : NodeId} (hx : x ∈ c'.tree.preorder c'.root)
    (hshape : c'.tree.shape x = .signed op operand)
    (hlower : ∀ y ∈ c'.tree.children x, Mirrored c c' origin (lower (origin y)) (lower' y)) :
    Mirrored c c' origin (signedRule c lower (origin x) (origin op) (origin operand))
      (signedRule c' lower' x op operand) := by
  have hchild : operand ∈ c'.tree.children x := by simp [Tree.children, hshape, Shape.children]
  have hmem := h.wellFormed'.child hx hchild
  have hoperand (ty : Ty) := operand_mirrors h hmem (hlower operand hchild) ty
  obtain ⟨sign, hop', hop⟩ := h.context.signOp_eq hx hshape
  have hop' : c'.tree.shape op = .signOp sign := hop'
  have hop : c.tree.shape (origin op) = .signOp sign := hop
  unfold signedRule
  simp only [hop, hop', h.typeOf x hx, h.span hx, negatedLiteral?_eq h hmem]
  cases sign with
  | plus => exact hoperand _
  | minus =>
    cases negatedLiteral? c (origin operand) (c.typeOf (origin x)) with
    | some w => exact (load_mirrors h w _ _).bind fun _ => .pure _
    | none =>
      refine (hoperand _).bind fun value => ?_
      cases value with
      | none => exact .pure _
      | some value =>
        cases Kind.ofTy? (c.typeOf (origin x)) with
        | none => exact .throw _
        | some kind =>
          exact computed_mirrors h _ _ _ _ _

theorem callRule_mirrors {callee : NodeId} (hx : x ∈ c'.tree.preorder c'.root)
    (hcallee : callee ∈ c'.tree.preorder c'.root)
    (hlower : Mirrored c c' origin (lower (origin callee)) (lower' callee)) :
    Mirrored c c' origin (callRule c lower (origin x) (origin callee))
      (callRule c' lower' x callee) := by
  unfold callRule
  have htarget : c.resolution.procedureTarget? c.tree (origin callee)
      = (c'.resolution.procedureTarget? c'.tree callee).map origin :=
      h.context.target callee hcallee
  refine hlower.bind fun _ => ?_
  rw [htarget, h.typeOf x hx, h.span hx]
  cases hp : c'.resolution.procedureTarget? c'.tree callee with
  | none => exact refused_mirrors _ _ _
  | some p =>
    obtain ⟨hmem, hproc⟩ := h.context.target_mem callee hcallee p hp
    refine .get fun s s' hs => ?_
    rw [hs.procedureOf p ⟨hmem, Tree.adds_of_procedure hproc⟩]
    cases s.procedureOf[origin p]? with
    | none => exact .throw _
    | some index =>
      exact computed_mirrors h _ _ _ _ _

theorem castRule_mirrors {expr : NodeId} (hx : x ∈ c'.tree.preorder c'.root)
    (hexpr : expr ∈ c'.tree.preorder c'.root)
    (hlower : Mirrored c c' origin (lower (origin expr)) (lower' expr)) :
    Mirrored c c' origin (castRule c lower (origin x) (origin expr))
      (castRule c' lower' x expr) := by
  unfold castRule
  rw [h.typeOf x hx, h.typeOf expr hexpr, h.span hx]
  refine hlower.bind fun value => ?_
  cases value with
  | none => exact .pure _
  | some value => exact (convert_mirrors h value _ _ _).bind fun _ => .pure _

/-! ### Native code -/

theorem place_mirrors {target : NodeId} (htarget : target ∈ c'.tree.preorder c'.root) :
    Mirrored c c' origin (place c (origin target)) (place c' target) := by
  have hkept : c'.Keeps origin (c'.tree.ungroup target) :=
    LowerContext.Regroups.keeps_ungroup htarget
  unfold place
  simp only [h.tree.origin_ungroup htarget, h.declaration hkept]
  cases hdecl : c'.resolution.declaration? (c'.tree.ungroup target) with
  | none => exact .throw _
  | some decl =>
    have hdecl := h.keeps_declaration hdecl
    refine .get fun s s' hs => ?_
    rw [hs.ownerOf decl hdecl]
    cases s.ownerOf[origin decl]? with
    | none => exact .pure _
    | some owner =>
      simp only [hs.frame, hs.current.registers decl hdecl]
      exact .ite (fun _ => refused_mirrors _ _ _) fun _ => .pure _

/-- The parts of a slot and its name are the same. -/
theorem slot_cases (hx : x ∈ c'.tree.preorder c'.root) (hslot : (c'.tree.shape x).isSlot = true) :
    ∃ target offset, c'.tree.shape x = .slot target offset ∧ target ∈ c'.tree.preorder c'.root
      ∧ slotParts c' x = pure (target, offset)
      ∧ slotParts c (origin x) = pure (origin target, offset)
      ∧ slotName c' target = slotName c (origin target) := by
  cases hshape : c'.tree.shape x <;> rw [hshape] at hslot <;> first | (cases hslot; done) | skip
  next target offset =>
  have hmem :=
    h.wellFormed'.child hx (x := target) (by simp [Tree.children, hshape, Shape.children])
  have horigin := h.shape ⟨hx, Tree.adds_of_shape (by simp [hshape])⟩
  rw [hshape] at horigin
  refine ⟨target, offset, rfl, hmem, ?_, ?_, ?_⟩
  · simp only [slotParts, hshape]
  · simp only [slotParts, horigin, Shape.rename]
  · unfold slotName
    rw [h.tree.shape_ungroup hmem]
    cases c'.tree.shape (c'.tree.ungroup target) <;> rfl

theorem nativeInputs_mirrors {inputs : List NodeId}
    (hinputs : ∀ y ∈ inputs, y ∈ c'.tree.preorder c'.root ∧ (c'.tree.shape y).isSlot = true)
    (hlower : ∀ y ∈ inputs, ∀ target offset, c'.tree.shape y = .slot target offset →
      Mirrored c c' origin (lower (origin target)) (lower' target)) :
    Mirrored c c' origin (nativeInputs c lower (inputs.map origin))
      (nativeInputs c' lower' inputs) := by
  induction inputs with
  | nil => exact .pure _
  | cons input rest ih =>
    have hrest := ih (fun y hy => hinputs y (.tail _ hy)) fun y hy => hlower y (.tail _ hy)
    obtain ⟨hmem, hslot⟩ := hinputs input (.head _)
    obtain ⟨target, offset, hshape, -, hparts', hparts, hname⟩ := slot_cases h hmem hslot
    simp only [List.map_cons, nativeInputs, hparts, hparts', pure_bind, hname]
    refine (hlower input (.head _) target offset hshape).bind fun register => ?_
    cases register with
    | none => exact .pure _
    | some register =>
      refine hrest.bind fun slots => ?_
      cases slots with
      | none => exact .pure _
      | some slots => exact .pure _

theorem nativeOutput_mirrors {output : Option NodeId}
    (houtput : ∀ y, output = some y →
      y ∈ c'.tree.preorder c'.root ∧ (c'.tree.shape y).isSlot = true) :
    Mirrored c c' origin (nativeOutput c (output.map origin)) (nativeOutput c' output) := by
  cases output with
  | none => exact .pure _
  | some output =>
    obtain ⟨hmem, hslot⟩ := houtput output rfl
    obtain ⟨target, offset, -, htarget, hparts', hparts, hname⟩ := slot_cases h hmem hslot
    simp only [Option.map_some, nativeOutput, hparts, hparts', pure_bind, hname]
    refine (place_mirrors h htarget).bind fun register => ?_
    cases register with
    | none => exact .pure _
    | some register => exact .pure _

theorem nativeRule_mirrors {source : String} {inputs : List NodeId} {output : Option NodeId}
    (hx : x ∈ c'.tree.preorder c'.root)
    (hinputs : ∀ y ∈ inputs, y ∈ c'.tree.preorder c'.root ∧ (c'.tree.shape y).isSlot = true)
    (houtput : ∀ y, output = some y →
      y ∈ c'.tree.preorder c'.root ∧ (c'.tree.shape y).isSlot = true)
    (hlower : ∀ y ∈ inputs, ∀ target offset, c'.tree.shape y = .slot target offset →
      Mirrored c c' origin (lower (origin target)) (lower' target)) :
    Mirrored c c' origin
      (nativeRule c lower (origin x) source (inputs.map origin) (output.map origin))
      (nativeRule c' lower' x source inputs output) := by
  -- The output has the type of the one it stands for, if there is one.
  have hty : (output.map c'.typeOf).getD .empty
    = ((output.map origin).map c.typeOf).getD .empty := by
    cases output with
    | none => rfl
    | some output => exact h.typeOf output (houtput output rfl).1
  unfold nativeRule
  rw [List.length_map, hty, h.span hx]
  -- Either both refuse the inputs, or they read them one by one and enter the same code.
  refine .ite (fun _ => refused_mirrors _ _ _) fun _ => ?_
  refine (nativeInputs_mirrors h hinputs hlower).bind fun slots => ?_
  cases slots with
  | none => exact .pure _
  | some slots =>
    refine (nativeOutput_mirrors h houtput).bind fun slot => ?_
    cases slot with
    | none => exact .pure _
    | some slot =>
      exact (addNative_mirrors _ _).bind fun index => (emit_mirrors _ _ _).bind fun _ => .pure _

/-! ### Declarations and statements -/

theorem constantRule_mirrors {definition : NodeId} (hx : c'.Keeps origin x)
    (hdefinition : definition ∈ c'.tree.preorder c'.root)
    (hlower : Mirrored c c' origin (lower (origin definition)) (lower' definition)) :
    Mirrored c c' origin (constantRule c lower (origin x) (origin definition))
      (constantRule c' lower' x definition) := by
  unfold constantRule
  rw [h.typeOf x hx.1, h.typeOf definition hdefinition, h.span hx.1]
  refine hlower.bind fun value => ?_
  cases value with
  | none => exact .pure _
  | some value =>
    exact (convert_mirrors h value _ _ _).bind fun value => (bind_mirrors h hx value _).bind
      fun _ => .pure _

theorem varRule_mirrors {init : Option NodeId} (hx : c'.Keeps origin x)
    (hinit : ∀ y, init = some y → y ∈ c'.tree.preorder c'.root)
    (hlower : ∀ y, init = some y → Mirrored c c' origin (lower (origin y)) (lower' y)) :
    Mirrored c c' origin (varRule c lower (origin x) (init.map origin))
      (varRule c' lower' x init) := by
  unfold varRule
  rw [h.typeOf x hx.1, h.span hx.1]
  cases init with
  | some init =>
    simp only [Option.map_some, h.typeOf init (hinit init rfl)]
    refine (hlower init rfl).bind fun value => ?_
    cases value with
    | none => exact .pure _
    | some value =>
      exact (convert_mirrors h value _ _ _).bind fun value => (bind_mirrors h hx value _).bind
        fun _ => .pure _
  | none =>
    refine .ite (fun _ => refused_mirrors _ _ _) fun _ => ?_
    exact (fresh_mirrors h _).bind fun value => (bind_mirrors h hx value _).bind fun _ => .pure _

theorem store_mirrors {target : NodeId} (htarget : target ∈ c'.tree.preorder c'.root)
    (value : Register) (span : Span) :
    Mirrored c c' origin (store c (origin target) value span) (store c' target value span) := by
  unfold store
  rw [h.typeOf target htarget]
  refine (place_mirrors h htarget).bind fun register => ?_
  cases register with
  | none => exact .pure _
  | some register => exact copy_mirrors _ _ _ _

theorem assignRule_mirrors {target value : NodeId} (hx : x ∈ c'.tree.preorder c'.root)
    (htarget : target ∈ c'.tree.preorder c'.root) (hvalue : value ∈ c'.tree.preorder c'.root)
    (hlower : Mirrored c c' origin (lower (origin value)) (lower' value)) :
    Mirrored c c' origin (assignRule c lower (origin x) (origin target) (origin value))
      (assignRule c' lower' x target value) := by
  unfold assignRule
  rw [h.typeOf target htarget, h.typeOf value hvalue, h.span hx, h.span hvalue]
  refine hlower.bind fun register => ?_
  cases register with
  | none => exact .pure _
  | some register =>
    exact (convert_mirrors h register _ _ _).bind fun converted =>
      store_mirrors h htarget converted _

theorem stage_mirrors {value : NodeId} (hvalue : value ∈ c'.tree.preorder c'.root)
    (hlower : Mirrored c c' origin (lower (origin value)) (lower' value)) :
    Mirrored c c' origin (stage c lower (origin value)) (stage c' lower' value) := by
  unfold stage
  rw [h.typeOf value hvalue, h.span hvalue]
  refine hlower.bind fun register => ?_
  cases register with
  | none => exact .pure _
  | some register =>
    refine (isBound_mirrors register).bind fun b => ?_
    refine .ite (fun _ => ?_) fun _ => .pure _
    exact (fresh_mirrors h _).bind fun out => (copy_mirrors _ _ _ _).bind fun _ => .pure _

theorem parallelRule_mirrors {targets values : List NodeId}
    (htargets : ∀ y ∈ targets, y ∈ c'.tree.preorder c'.root)
    (hvalues : ∀ y ∈ values, y ∈ c'.tree.preorder c'.root)
    (hlower : ∀ y ∈ values, Mirrored c c' origin (lower (origin y)) (lower' y)) :
    Mirrored c c' origin (parallelRule c lower (targets.map origin) (values.map origin))
      (parallelRule c' lower' targets values) := by
  unfold parallelRule
  refine (Mirrors.mapM fun y hy => stage_mirrors h (hvalues y hy) (hlower y hy)).bind fun staged =>
    ?_
  have hzip : (targets.map origin).zip ((values.map origin).zip staged)
      = (targets.zip (values.zip staged)).map (Prod.map origin (Prod.map origin id)) := by
    rw [← List.zip_map, ← List.zip_map, List.map_id]
  rw [hzip]
  refine .forM fun p hp => ?_
  obtain ⟨target, value, register⟩ := p
  obtain ⟨htarget, hpair⟩ := List.of_mem_zip hp
  have htarget := htargets target htarget
  have hvalue := hvalues value (List.of_mem_zip hpair).1
  simp only [Prod.map_apply, id_eq, h.typeOf target htarget, h.typeOf value hvalue, h.span htarget]
  cases register with
  | none => exact .pure _
  | some register =>
    exact (convert_mirrors h register _ _ _).bind fun converted =>
      store_mirrors h htarget converted _

theorem returnRule_mirrors {value : Option NodeId} (hx : x ∈ c'.tree.preorder c'.root)
    (hvalue : ∀ y, value = some y → y ∈ c'.tree.preorder c'.root)
    (hlower : ∀ y, value = some y → Mirrored c c' origin (lower (origin y)) (lower' y)) :
    Mirrored c c' origin (returnRule c lower (origin x) (value.map origin))
      (returnRule c' lower' x value) := by
  unfold returnRule returnWith
  rw [h.span hx]
  cases value with
  | none => exact emit_mirrors _ _ _
  | some value =>
    simp only [Option.map_some, h.typeOf value (hvalue value rfl)]
    refine (hlower value rfl).bind fun register => ?_
    cases register with
    | none => exact .pure _
    | some register =>
      refine .get fun s s' hs => ?_
      rw [hs.frame]
      cases s.frame.result with
      | none => exact (Mirrors.pure register).bind fun _ => emit_mirrors _ _ _
      | some result => exact (convert_mirrors h register _ _ _).bind fun _ => emit_mirrors _ _ _

/-! ### Procedures -/

theorem openProcedure_mirrors (hx : c'.Keeps origin x)
    (hproc : (c'.tree.shape x).isProcedure = true) :
    Mirrored c c' origin (openProcedure c (origin x)) (openProcedure c' x) := by
  have hnames (hkeeps : c.KeepsNames c' origin) : procedureName c' x = procedureName c (origin x) :=
    hkeeps x hx.1 hproc
  unfold openProcedure
  rw [h.span hx.1]
  generalize procedureName c' x = named' at hnames ⊢
  generalize procedureName c (origin x) = named at hnames ⊢
  -- Both states have as many procedures, so both run out of them or neither does.
  refine .get fun s s' hs => ?_
  rw [hs.size]
  refine .ite (fun _ => .throw_bind _) fun _ => ?_
  refine (Mirrors.modify fun s s' hs => ?_).bind fun _ => (Mirrors.modify fun s s' hs => ?_).bind
    fun _ => .pure _
  · exact
      { hs with
        textSymbols := fun hkeeps => by simp only [hnames hkeeps, hs.textSymbols hkeeps]
        procedures := fun j => by
          have hrel := hs.procedures j
          rw [Array.getElem?_push, Array.getElem?_push, hs.size]
          split
          · exact .some (.refl_empty fun hkeeps => by rw [hnames hkeeps])
          · exact hrel
        size := by rw [Array.size_push, Array.size_push, hs.size] }
  · exact { hs with procedureOf := h.carries_insert hs.procedureOf hx _ }

theorem convertLast_mirrors {body : NodeId} (hbody : body ∈ c'.tree.preorder c'.root)
    (result : Ty) :
    Mirrored c c' origin (convertLast c (origin body) result) (convertLast c' body result) := by
  unfold convertLast
  rw [h.span hbody]
  refine .get fun s s' hs => ?_
  simp only [hs.current.lastRegister, hs.current.lastTy]
  exact .ite (fun _ => (convert_mirrors h _ _ _ _).discard) fun _ => .pure _

theorem procedureRule_mirrors {result : Option NodeId} {body : NodeId} (hx : c'.Keeps origin x)
    (hshape : c'.tree.shape x = .procedure result body)
    (hlower : Mirrored c c' origin (lower (origin body)) (lower' body)) :
    Mirrored c c' origin (procedureRule c lower (origin x) (result.map origin) (origin body))
      (procedureRule c' lower' x result body) := by
  have hmem {y : NodeId} (hy : y ∈ (Shape.procedure result body).children) :
      y ∈ c'.tree.preorder c'.root := h.wellFormed'.child hx.1 (by rwa [Tree.children, hshape])
  have hbody := hmem (y := body) (by simp [Shape.children])
  have hresult : result.map c'.typeOf = (result.map origin).map c.typeOf := by
    cases result with
    | none => rfl
    | some result => exact congrArg some (h.typeOf result (hmem (by simp [Shape.children])))
  unfold procedureRule
  refine (openProcedure_mirrors h hx (by rw [hshape]; rfl)).bind fun index => ?_
  simp only [hresult]
  refine .get fun s s' hs => ?_
  rw [hs.frame]
  refine (Mirrors.modify fun s s' hs => { hs with frame := rfl }).bind fun _ => hlower.bind fun _ =>
    ?_
  cases (result.map origin).map c.typeOf with
  | none => exact .modify fun s s' hs => { hs with frame := rfl }
  | some ty =>
    exact (convertLast_mirrors h hbody ty).bind fun _ =>
      .modify fun s s' hs => { hs with frame := rfl }

/-! ### All shapes -/

/-- The rule of a node that has not been added does what that of the node does which it stands
for. -/
theorem rule_mirrors (hx : c'.Keeps origin x)
    (hlower : ∀ y ∈ c'.tree.preorder c'.root, y < x →
      Mirrored c c' origin (lower (origin y)) (lower' y)) :
    Mirrored c c' origin (rule c lower (origin x)) (rule c' lower' x) := by
  -- The rules lower the children, for which the two agree by assumption.
  have hmem : ∀ y ∈ (c'.tree.shape x).children, y ∈ c'.tree.preorder c'.root := fun y hy =>
    h.wellFormed'.child hx.1 hy
  have hchild : ∀ y ∈ (c'.tree.shape x).children,
      Mirrored c c' origin (lower (origin y)) (lower' y) := fun y hy =>
    hlower y (hmem y hy) (c'.tree.child_lt hy)
  have hfits := h.wellFormed'.fits x hx.1
  unfold rule
  rw [h.shape hx]
  cases hshape : c'.tree.shape x <;> rw [hshape] at hmem hchild
  case module items | block items =>
    refine (Mirrors.forM (g := origin) (f := fun item => discard (lower item)) fun y hy => ?_).bind
      fun _ => .pure _
    exact (hchild y hy).discard
  case constant name definition =>
    exact constantRule_mirrors h hx (hmem _ (.head _)) (hchild _ (.head _))
  case var name ty init =>
    refine varRule_mirrors h hx (fun y hy => hmem y ?_) fun y hy => hchild y ?_ <;>
      simp [Shape.children, hy]
  case procedure result body =>
    exact (procedureRule_mirrors h hx hshape (hchild body (by simp [Shape.children]))).bind
      fun _ => .pure _
  case exprStmt expr => exact (hchild expr (.head _)).bind fun _ => .pure _
  case assign target value =>
    exact (assignRule_mirrors h hx.1 (hmem target (by simp [Shape.children]))
      (hmem value (by simp [Shape.children])) (hchild value (by simp [Shape.children]))).bind
      fun _ => .pure _
  case parallel targets values =>
    exact (parallelRule_mirrors h (fun y hy => hmem y (List.mem_append_left _ hy))
      (fun y hy => hmem y (List.mem_append_right _ hy))
      fun y hy => hchild y (List.mem_append_right _ hy)).bind fun _ => .pure _
  case ret value =>
    refine (returnRule_mirrors h hx.1 (fun y hy => hmem y ?_) fun y hy => hchild y ?_).bind
      fun _ => .pure _ <;> simp [Shape.children, hy]
  case literal lit =>
    simp only [Shape.rename, h.span hx.1]
    exact literalRule_mirrors h hx.1 hshape _
  case ident name => exact identRule_mirrors h hx
  case binary left op right =>
    exact binaryRule_mirrors h hx.1 hshape fun y hy =>
      hchild y (by rwa [Tree.children, hshape] at hy)
  case signed op operand =>
    exact signedRule_mirrors h hx.1 hshape fun y hy =>
      hchild y (by rwa [Tree.children, hshape] at hy)
  case group expr => exact hchild expr (.head _)
  case call callee =>
    exact callRule_mirrors h hx.1 (hmem callee (.head _)) (hchild callee (.head _))
  case cast expr ty =>
    exact castRule_mirrors h hx.1 (hmem expr (.head _)) (hchild expr (.head _))
  case native source inputs output =>
    simp only [Tree.fits, hshape, Bool.and_eq_true, List.all_eq_true, Option.all_eq_true] at hfits
    have hinputs : ∀ y ∈ inputs, y ∈ c'.tree.preorder c'.root ∧ (c'.tree.shape y).isSlot = true :=
      fun y hy => ⟨hmem y (List.mem_append_left _ hy), hfits.1 y hy⟩
    refine nativeRule_mirrors h hx.1 hinputs (fun y hy => ?_) fun y hy target offset hslot => ?_
    · subst hy
      exact ⟨hmem y (by simp [Shape.children]), hfits.2 y rfl⟩
    · have htarget : target ∈ c'.tree.children y := by simp [Tree.children, hslot, Shape.children]
      have hbelow : y < x := c'.tree.child_lt (by
        rw [Tree.children, hshape]
        exact List.mem_append_left _ hy)
      exact hlower target (h.wellFormed'.child (hinputs y hy).1 htarget)
        (Nat.lt_trans (c'.tree.child_lt htarget) hbelow)
  case slot target offset => exact hchild target (.head _)
  all_goals exact .pure _

/-- **A node has the same code as the one that it stands for.** -/
theorem node_mirrors (hx : x ∈ c'.tree.preorder c'.root) :
    Mirrored c c' origin (node c (origin x)) (node c' x) := by
  induction x using Nat.strongRecOn with
  | ind x ih =>
    cases hadds : c'.tree.adds origin x with
    | true =>
      obtain ⟨e, hshape, he⟩ := Tree.adds_iff.1 hadds
      have hchild : e ∈ c'.tree.children x := by simp [Tree.children, hshape, Shape.children]
      rw [node_eq c' x, rule, hshape]
      simp only [if_pos (c'.tree.child_lt hchild), ← he]
      exact ih e (c'.tree.child_lt hchild) (h.wellFormed'.child hx hchild)
    | false =>
      rw [node_eq, node_eq c' x]
      refine rule_mirrors h ⟨hx, hadds⟩ fun y hy hlt => ?_
      rw [if_pos hlt]
      split
      · exact ih y hlt hy
      · exact .throw _

end Lower

end MiddleEnd
