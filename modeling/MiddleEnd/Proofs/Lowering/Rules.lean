import MiddleEnd.Proofs.Lowering.Steps

/-!
# Rules of lowering, taken apart

For each rule, what happened in a run that came to its end: the runs of the nodes below, the steps
between them, and the register that came out.  Everything else about lowering is derived from these
statements, so that a rule that changes is opened in one place.

## Main results

* `Lower.operand_ok`, `Lower.literalRule_ok`, `Lower.identRule_ok`, `Lower.binaryRule_ok`,
  `Lower.signedRule_ok`, `Lower.callRule_ok`, `Lower.castRule_ok` — expressions.
* `Lower.nativeRule_ok` — native code.
* `Lower.constantRule_ok`, `Lower.varRule_ok`, `Lower.assignRule_ok`, `Lower.parallelRule_ok`,
  `Lower.returnRule_ok` — declarations and statements.
* `Lower.procedureRule_ok` — procedures.
* `Lower.rule_ok` — all shapes.
* `Lower.node_induction` — what the rules pass on holds of every node.
-/

namespace MiddleEnd.Lower

open Runs

variable {c : LowerContext} {lower : NodeId → Lower (Option Register)} {s s' : Lowering}
  {v : Option Register}

/-! ### Expressions -/

theorem operand_ok {id : NodeId} {ty : Ty} (h : operand c lower id ty s = .ok (v, s')) :
    (lower id s = .ok (none, s') ∧ v = none)
      ∨ ∃ value s₁ r, lower id s = .ok (some value, s₁)
          ∧ convert c value (c.typeOf id) ty (c.span id) s₁ = .ok (r, s') ∧ v = some r := by
  obtain ⟨u, s₁, hlower, h⟩ := bind_ok.1 h
  cases u with
  | none =>
    obtain ⟨rfl, rfl⟩ := pure_ok.1 h
    exact .inl ⟨hlower, rfl⟩
  | some value =>
    obtain ⟨r, s₂, hconvert, h⟩ := bind_ok.1 h
    obtain ⟨rfl, rfl⟩ := pure_ok.1 h
    exact .inr ⟨value, s₁, r, hlower, hconvert, rfl⟩

/-- The value that the typing gives a node is loaded. -/
theorem loadValue_ok {id : NodeId} {span : Span}
    (h : (match c.typing.literal? id with
      | none => misuse (.noValue id)
      | some v => return some (← load c v.word (c.typeOf id) span) :
        Lower (Option Register)) s = .ok (v, s')) :
    ∃ value r, c.typing.literal? id = some value
      ∧ load c value.word (c.typeOf id) span s = .ok (r, s') ∧ v = some r := by
  cases hvalue : c.typing.literal? id with
  | none =>
    rw [hvalue] at h
    exact (misuse_ok.1 h).elim
  | some value =>
    rw [hvalue] at h
    obtain ⟨r, s₁, hload, h⟩ := bind_ok.1 h
    obtain ⟨rfl, rfl⟩ := pure_ok.1 h
    exact ⟨value, r, rfl, hload, rfl⟩

/-- A text is reported; any other literal is loaded. -/
theorem literalRule_ok {id : NodeId} {span : Span} {lit : Literal}
    (h : literalRule c id span lit s = .ok (v, s')) :
    ((∃ contents, lit = .text contents) ∧ v = none
        ∧ s' = s.withProblem (.unsupported .textValue span))
      ∨ ∃ value r, c.typing.literal? id = some value
          ∧ load c value.word (c.typeOf id) span s = .ok (r, s') ∧ v = some r := by
  cases lit with
  | text contents =>
    obtain ⟨_, _, hreport, h⟩ := bind_ok.1 h
    obtain rfl := report_ok.1 hreport
    obtain ⟨rfl, rfl⟩ := pure_ok.1 h
    exact .inl ⟨⟨contents, rfl⟩, rfl, rfl⟩
  | number spelling => exact .inr (loadValue_ok h)
  | char ch => exact .inr (loadValue_ok h)

theorem outerRule_ok {ident decl : NodeId} (h : outerRule c ident decl s = .ok (v, s')) :
    (∃ id lit, literalConstant? c.tree decl = some (id, lit)
        ∧ literalRule c id (c.span ident) lit s = .ok (v, s'))
      ∨ (literalConstant? c.tree decl = none ∧ v = none
        ∧ s' = s.withProblem (.capture ident decl)) := by
  unfold outerRule at h
  cases hlit : literalConstant? c.tree decl with
  | none =>
    rw [hlit] at h
    obtain ⟨_, _, hreport, h⟩ := bind_ok.1 h
    obtain rfl := report_ok.1 hreport
    obtain ⟨rfl, rfl⟩ := pure_ok.1 h
    exact .inr ⟨rfl, rfl, rfl⟩
  | some p =>
    rw [hlit] at h
    exact .inl ⟨p.1, p.2, rfl, h⟩

/-- What an identifier bound to `decl` is lowered to. -/
inductive IdentOutcome (c : LowerContext) (id decl : NodeId) (s : Lowering) :
    Option Register → Lowering → Prop
  /-- A structure or an enumeration has no lowering, which is reported. -/
  | shape (h : declaresShape c.tree decl = true) :
      IdentOutcome c id decl s none (s.withProblem (.unsupported .shapeValue (c.span id)))
  /-- A procedure has no register. -/
  | procedure (hshape : declaresShape c.tree decl = false) (h : c.typeOf decl = .procedure) :
      IdentOutcome c id decl s none s
  /-- A declaration whose value has no register has none either. -/
  | unowned (hshape : declaresShape c.tree decl = false) (hty : c.typeOf decl ≠ .procedure)
      (h : s.ownerOf[decl]? = none) : IdentOutcome c id decl s none s
  /-- A declaration of another procedure is loaded again or refused. -/
  | outer {owner : Nat} {v : Option Register} {s' : Lowering}
      (hshape : declaresShape c.tree decl = false) (hty : c.typeOf decl ≠ .procedure)
      (howner : s.ownerOf[decl]? = some owner) (hne : owner ≠ s.frame.index)
      (h : outerRule c id decl s = .ok (v, s')) : IdentOutcome c id decl s v s'
  /-- A declaration of the procedure is where its home is. -/
  | own {r : Register} (hshape : declaresShape c.tree decl = false)
      (hty : c.typeOf decl ≠ .procedure) (howner : s.ownerOf[decl]? = some s.frame.index)
      (h : s.current.registers[decl]? = some r) : IdentOutcome c id decl s (some r) s

theorem identRule_ok {id : NodeId} (h : identRule c id s = .ok (v, s')) :
    ∃ decl, c.resolution.declaration? id = some decl ∧ IdentOutcome c id decl s v s' := by
  unfold identRule at h
  cases hdecl : c.resolution.declaration? id with
  | none =>
    rw [hdecl] at h
    exact (misuse_ok.1 h).elim
  | some decl =>
    refine ⟨decl, rfl, ?_⟩
    simp only [hdecl] at h
    cases hshape : declaresShape c.tree decl with
    | true =>
      simp only [hshape, if_true] at h
      obtain ⟨_, _, hreport, h⟩ := bind_ok.1 h
      obtain rfl := report_ok.1 hreport
      obtain ⟨rfl, rfl⟩ := pure_ok.1 h
      exact .shape hshape
    | false =>
      simp only [hshape, Bool.false_eq_true, if_false] at h
      by_cases hty : c.typeOf decl = .procedure
      · simp only [if_pos hty] at h
        obtain ⟨rfl, rfl⟩ := pure_ok.1 h
        exact .procedure hshape hty
      · -- The name stands for a value, which can be reached where its declaration is owned.
        simp only [if_neg hty] at h
        obtain ⟨_, _, hget, h⟩ := bind_ok.1 h
        obtain ⟨rfl, rfl⟩ := get_ok.1 hget
        cases howner : s.ownerOf[decl]? with
        | none =>
          simp only [howner] at h
          obtain ⟨rfl, rfl⟩ := pure_ok.1 h
          exact .unowned hshape hty howner
        | some owner =>
          simp only [howner] at h
          -- The procedure that is being lowered owns it, or an enclosing one does.
          by_cases hne : owner = s.frame.index
          · simp only [hne, ne_eq, not_true_eq_false, if_false] at h
            cases hr : s.current.registers[decl]? with
            | none =>
              simp only [hr] at h
              exact (misuse_ok.1 h).elim
            | some r =>
              simp only [hr] at h
              obtain ⟨rfl, rfl⟩ := pure_ok.1 h
              exact .own hshape hty (hne ▸ howner) hr
          · simp only [ne_eq, hne, not_false_eq_true, if_true] at h
            exact .outer hshape hty howner hne h

/-- What an arithmetic expression of kind `kind` is lowered to. -/
inductive BinaryOutcome (c : LowerContext) (lower : NodeId → Lower (Option Register))
    (id left right : NodeId) (op : BinaryOp) (kind : Kind) (s : Lowering) :
    Option Register → Lowering → Prop
  /-- An operand has no register, so there is nothing to compute. -/
  | missing {a b : Option Register} {s₁ s₂ : Lowering}
      (hleft : operand c lower left (c.typeOf id) s = .ok (a, s₁))
      (hright : operand c lower right (c.typeOf id) s₁ = .ok (b, s₂))
      (h : a = none ∨ b = none) : BinaryOutcome c lower id left right op kind s none s₂
  /-- Both operands have registers, and the value is computed in a new one. -/
  | emitted {a b : Register} {s₁ s₂ : Lowering}
      (hleft : operand c lower left (c.typeOf id) s = .ok (some a, s₁))
      (hright : operand c lower right (c.typeOf id) s₁ = .ok (some b, s₂)) :
      BinaryOutcome c lower id left right op kind s (some s₂.current.nextRegister)
        (s₂.allocated.emitted
          ⟨.binary op kind, s₂.current.nextRegister, .register a, .register b⟩ (c.typeOf id)
          (c.span id))

theorem binaryRule_ok {id left op right : NodeId}
    (h : binaryRule c lower id left op right s = .ok (v, s')) :
    ∃ sym kind, c.tree.shape op = .binaryOp sym ∧ Kind.ofTy? (c.typeOf id) = some kind
      ∧ BinaryOutcome c lower id left right sym kind s v s' := by
  unfold binaryRule at h
  cases hop : c.tree.shape op
  case binaryOp sym =>
    simp only [hop] at h
    cases hkind : Kind.ofTy? (c.typeOf id) with
    | none =>
      simp only [hkind] at h
      exact (misuse_ok.1 h).elim
    | some kind =>
      refine ⟨sym, kind, rfl, rfl, ?_⟩
      simp only [hkind] at h
      obtain ⟨a, s₁, hleft, h⟩ := bind_ok.1 h
      obtain ⟨b, s₂, hright, h⟩ := bind_ok.1 h
      -- Without a register for either operand there is no instruction.
      cases a with
      | none =>
        obtain ⟨rfl, rfl⟩ := pure_ok.1 h
        exact .missing hleft hright (.inl rfl)
      | some a =>
        cases b with
        | none =>
          obtain ⟨rfl, rfl⟩ := pure_ok.1 h
          exact .missing hleft hright (.inr rfl)
        | some b =>
          simp only [bind_ok, fresh_ok, emit_ok, pure_ok] at h
          obtain ⟨_, _, ⟨-, rfl, rfl⟩, _, _, rfl, rfl, rfl⟩ := h
          exact .emitted hleft hright
  -- Any other node in the place of the operator is a misuse.
  all_goals
    simp only [hop] at h
    exact (misuse_ok.1 h).elim

/-- A negated literal is an integer whose negation its signed kind can hold. -/
theorem negatedLiteral_some {operand : NodeId} {ty : Ty} {w : Word}
    (h : negatedLiteral? c operand ty = some w) :
    ∃ k spelling n, Kind.ofTy? ty = some (.int k)
      ∧ c.tree.shape (c.tree.ungroup operand) = .literal (.number spelling)
      ∧ c.typing.literal? (c.tree.ungroup operand) = some (.integer n)
      ∧ k.isSigned = true ∧ k.lo ≤ -(n : Int) ∧ w = Word.ofInt (-(n : Int)) := by
  simp only [negatedLiteral?] at h
  split at h
  · next k spelling n hkind hshape hvalue =>
    split at h
    · next hcond => exact ⟨k, spelling, n, hkind, hshape, hvalue, hcond.1, hcond.2,
        (Option.some.inj h).symm⟩
    · cases h
  · cases h

/-- What a signed expression is lowered to. -/
inductive SignedOutcome (c : LowerContext) (lower : NodeId → Lower (Option Register))
    (id operandId : NodeId) (s : Lowering) : Sign → Option Register → Lowering → Prop
  /-- A plus leaves the operand as it is. -/
  | plus {v : Option Register} {s' : Lowering}
      (h : operand c lower operandId (c.typeOf id) s = .ok (v, s')) :
      SignedOutcome c lower id operandId s .plus v s'
  /-- A minus is taken into a literal, which is loaded. -/
  | folded {w : Word} {r : Register} {s' : Lowering}
      (hword : negatedLiteral? c operandId (c.typeOf id) = some w)
      (h : load c w (c.typeOf id) (c.span id) s = .ok (r, s')) :
      SignedOutcome c lower id operandId s .minus (some r) s'
  /-- The operand has no register, so there is nothing to negate. -/
  | missing {s' : Lowering} (hword : negatedLiteral? c operandId (c.typeOf id) = none)
      (h : operand c lower operandId (c.typeOf id) s = .ok (none, s')) :
      SignedOutcome c lower id operandId s .minus none s'
  /-- The operand has a register, and the value is computed in a new one. -/
  | emitted {a : Register} {kind : Kind} {s₁ : Lowering}
      (hword : negatedLiteral? c operandId (c.typeOf id) = none)
      (h : operand c lower operandId (c.typeOf id) s = .ok (some a, s₁))
      (hkind : Kind.ofTy? (c.typeOf id) = some kind) :
      SignedOutcome c lower id operandId s .minus (some s₁.current.nextRegister)
        (s₁.allocated.emitted ⟨.negate kind, s₁.current.nextRegister, .register a, .none⟩
          (c.typeOf id) (c.span id))

theorem signedRule_ok {id op operandId : NodeId}
    (h : signedRule c lower id op operandId s = .ok (v, s')) :
    ∃ sign, c.tree.shape op = .signOp sign ∧ SignedOutcome c lower id operandId s sign v s' := by
  unfold signedRule at h
  cases hop : c.tree.shape op
  case signOp sign =>
    refine ⟨sign, rfl, ?_⟩
    cases sign with
    | plus =>
      simp only [hop] at h
      exact .plus h
    -- A minus sign is folded into a literal where the result fits.
    | minus =>
      simp only [hop] at h
      cases hword : negatedLiteral? c operandId (c.typeOf id) with
      | some w =>
        simp only [hword] at h
        obtain ⟨r, s₁, hload, h⟩ := bind_ok.1 h
        obtain ⟨rfl, rfl⟩ := pure_ok.1 h
        exact .folded hword hload
      | none =>
        simp only [hword] at h
        obtain ⟨a, s₁, hoperand, h⟩ := bind_ok.1 h
        cases a with
        | none =>
          obtain ⟨rfl, rfl⟩ := pure_ok.1 h
          exact .missing hword hoperand
        | some a =>
          cases hkind : Kind.ofTy? (c.typeOf id) with
          | none =>
            simp only [hkind] at h
            exact (misuse_ok.1 h).elim
          | some kind =>
            simp only [hkind, bind_ok, fresh_ok, emit_ok, pure_ok] at h
            obtain ⟨_, _, ⟨-, rfl, rfl⟩, _, _, rfl, rfl, rfl⟩ := h
            exact .emitted hword hoperand hkind
  all_goals
    simp only [hop] at h
    exact (misuse_ok.1 h).elim

/-- What a call is lowered to, once the callee has been lowered. -/
inductive CallOutcome (c : LowerContext) (id callee : NodeId) (s : Lowering) :
    Option Register → Lowering → Prop
  /-- The procedure is not known, which is reported. -/
  | indirect (h : c.resolution.procedureTarget? c.tree callee = none) :
      CallOutcome c id callee s none (s.withProblem (.unsupported .indirectCall (c.span id)))
  /-- The procedure is called, and its value is in a new register. -/
  | direct {target index : NodeId}
      (htarget : c.resolution.procedureTarget? c.tree callee = some target)
      (h : s.procedureOf[target]? = some index) :
      CallOutcome c id callee s (some s.current.nextRegister)
        (s.allocated.emitted ⟨.call, s.current.nextRegister, .procedure index, .none⟩
          (c.typeOf id) (c.span id))

theorem callRule_ok {id callee : NodeId} (h : callRule c lower id callee s = .ok (v, s')) :
    ∃ u s₁, lower callee s = .ok (u, s₁) ∧ CallOutcome c id callee s₁ v s' := by
  obtain ⟨u, s₁, hcallee, h⟩ := bind_ok.1 h
  refine ⟨u, s₁, hcallee, ?_⟩
  cases htarget : c.resolution.procedureTarget? c.tree callee with
  | none =>
    -- Only a procedure that is known by name can be called.
    simp only [htarget] at h
    obtain ⟨_, _, hreport, h⟩ := bind_ok.1 h
    obtain rfl := report_ok.1 hreport
    obtain ⟨rfl, rfl⟩ := pure_ok.1 h
    exact .indirect htarget
  | some target =>
    simp only [htarget] at h
    obtain ⟨_, _, hget, h⟩ := bind_ok.1 h
    obtain ⟨rfl, rfl⟩ := get_ok.1 hget
    cases hindex : s₁.procedureOf[target]? with
    | none =>
      simp only [hindex] at h
      exact (misuse_ok.1 h).elim
    | some index =>
      simp only [hindex, bind_ok, fresh_ok, emit_ok, pure_ok] at h
      obtain ⟨_, _, ⟨-, rfl, rfl⟩, _, _, rfl, rfl, rfl⟩ := h
      exact .direct htarget hindex

theorem castRule_ok {id expr : NodeId} (h : castRule c lower id expr s = .ok (v, s')) :
    (lower expr s = .ok (none, s') ∧ v = none)
      ∨ ∃ value s₁ r, lower expr s = .ok (some value, s₁)
          ∧ convert c value (c.typeOf expr) (c.typeOf id) (c.span id) s₁ = .ok (r, s')
          ∧ v = some r := by
  obtain ⟨u, s₁, hlower, h⟩ := bind_ok.1 h
  cases u with
  | none =>
    obtain ⟨rfl, rfl⟩ := pure_ok.1 h
    exact .inl ⟨hlower, rfl⟩
  | some value =>
    obtain ⟨r, s₂, hconvert, h⟩ := bind_ok.1 h
    obtain ⟨rfl, rfl⟩ := pure_ok.1 h
    exact .inr ⟨value, s₁, r, hlower, hconvert, rfl⟩

/-! ### Native code -/

/-- Where a store to a declaration goes. -/
inductive PlaceOutcome (c : LowerContext) (ident decl : NodeId) (s : Lowering) :
    Option Register → Lowering → Prop
  /-- The declaration has no register, and nothing is stored. -/
  | unowned (h : s.ownerOf[decl]? = none) : PlaceOutcome c ident decl s none s
  /-- It belongs to another procedure, which is reported. -/
  | outer {owner : Nat} (howner : s.ownerOf[decl]? = some owner) (h : owner ≠ s.frame.index) :
      PlaceOutcome c ident decl s none (s.withProblem (.capture ident decl))
  /-- It belongs to the procedure, and its home is written. -/
  | own (h : s.ownerOf[decl]? = some s.frame.index) :
      PlaceOutcome c ident decl s s.current.registers[decl]? s

theorem place_ok {target : NodeId} (h : place c target s = .ok (v, s')) :
    ∃ decl, c.resolution.declaration? (c.tree.ungroup target) = some decl
      ∧ PlaceOutcome c (c.tree.ungroup target) decl s v s' := by
  unfold place at h
  cases hdecl : c.resolution.declaration? (c.tree.ungroup target) with
  | none =>
    simp only [hdecl] at h
    exact (misuse_ok.1 h).elim
  | some decl =>
    refine ⟨decl, rfl, ?_⟩
    simp only [hdecl] at h
    obtain ⟨_, _, hget, h⟩ := bind_ok.1 h
    obtain ⟨rfl, rfl⟩ := get_ok.1 hget
    cases howner : s.ownerOf[decl]? with
    | none =>
      simp only [howner] at h
      obtain ⟨rfl, rfl⟩ := pure_ok.1 h
      exact .unowned howner
    | some owner =>
      simp only [howner] at h
      -- A target in another procedure is reported and left out.
      by_cases hne : owner = s.frame.index
      · simp only [hne, ne_eq, not_true_eq_false, if_false] at h
        obtain ⟨rfl, rfl⟩ := pure_ok.1 h
        exact .own (hne ▸ howner)
      · simp only [ne_eq, hne, not_false_eq_true, if_true] at h
        obtain ⟨_, _, hreport, h⟩ := bind_ok.1 h
        obtain rfl := report_ok.1 hreport
        obtain ⟨rfl, rfl⟩ := pure_ok.1 h
        exact .outer howner hne

theorem slotParts_ok {id : NodeId} {parts : NodeId × Nat}
    (h : slotParts c id s = .ok (parts, s')) :
    c.tree.shape id = .slot parts.1 parts.2 ∧ s = s' := by
  unfold slotParts at h
  cases hslot : c.tree.shape id
  case slot target offset =>
    simp only [hslot] at h
    obtain ⟨rfl, rfl⟩ := pure_ok.1 h
    exact ⟨rfl, rfl⟩
  all_goals
    simp only [hslot] at h
    exact (misuse_ok.1 h).elim

/-- The inputs of native code are read one after the other, up to one without a register. -/
inductive InputsOutcome (c : LowerContext) (lower : NodeId → Lower (Option Register)) :
    List NodeId → Lowering → Option (List NativeSlot) → Lowering → Prop
  /-- There are no inputs. -/
  | nil {s : Lowering} : InputsOutcome c lower [] s (some []) s
  /-- The first input has no register. -/
  | missing {input target : NodeId} {offset : Nat} {rest : List NodeId} {s s' : Lowering}
      (hslot : c.tree.shape input = .slot target offset) (h : lower target s = .ok (none, s')) :
      InputsOutcome c lower (input :: rest) s none s'
  /-- The first input has one, and a later one has none. -/
  | cut {input target : NodeId} {offset : Nat} {rest : List NodeId} {s s₁ s' : Lowering}
      {r : Register} (hslot : c.tree.shape input = .slot target offset)
      (h : lower target s = .ok (some r, s₁)) (hrest : InputsOutcome c lower rest s₁ none s') :
      InputsOutcome c lower (input :: rest) s none s'
  /-- All inputs have registers. -/
  | cons {input target : NodeId} {offset : Nat} {rest : List NodeId} {s s₁ s' : Lowering}
      {r : Register} {slots : List NativeSlot}
      (hslot : c.tree.shape input = .slot target offset) (h : lower target s = .ok (some r, s₁))
      (hrest : InputsOutcome c lower rest s₁ (some slots) s') :
      InputsOutcome c lower (input :: rest) s (some (⟨slotName c target, offset, r⟩ :: slots)) s'

theorem nativeInputs_ok {inputs : List NodeId} {slots : Option (List NativeSlot)}
    (h : nativeInputs c lower inputs s = .ok (slots, s')) :
    InputsOutcome c lower inputs s slots s' := by
  induction inputs generalizing s slots s' with
  | nil =>
    obtain ⟨rfl, rfl⟩ := pure_ok.1 h
    exact .nil
  -- Each slot is lowered before the next, and the first that has no value ends the list.
  | cons input rest ih =>
    obtain ⟨parts, _, hparts, h⟩ := bind_ok.1 h
    obtain ⟨hslot, rfl⟩ := slotParts_ok hparts
    obtain ⟨u, s₁, hlower, h⟩ := bind_ok.1 h
    cases u with
    | none =>
      obtain ⟨rfl, rfl⟩ := pure_ok.1 h
      exact .missing hslot hlower
    | some r =>
      obtain ⟨u, s₂, hrest, h⟩ := bind_ok.1 h
      cases u with
      | none =>
        obtain ⟨rfl, rfl⟩ := pure_ok.1 h
        exact .cut hslot hlower (ih hrest)
      | some slots =>
        obtain ⟨rfl, rfl⟩ := pure_ok.1 h
        exact .cons hslot hlower (ih hrest)

theorem nativeOutput_ok {output : Option NodeId} {slot : Option (Option NativeSlot)}
    (h : nativeOutput c output s = .ok (slot, s')) :
    (output = none ∧ slot = some none ∧ s = s')
      ∨ ∃ id target offset v, output = some id ∧ c.tree.shape id = .slot target offset
          ∧ place c target s = .ok (v, s')
          ∧ slot = v.map fun r => some ⟨slotName c target, offset, r⟩ := by
  cases output with
  | none =>
    obtain ⟨rfl, rfl⟩ := pure_ok.1 h
    exact .inl ⟨rfl, rfl, rfl⟩
  | some id =>
    obtain ⟨parts, _, hparts, h⟩ := bind_ok.1 h
    obtain ⟨hslot, rfl⟩ := slotParts_ok hparts
    obtain ⟨u, s₁, hplace, h⟩ := bind_ok.1 h
    cases u with
    | none =>
      obtain ⟨rfl, rfl⟩ := pure_ok.1 h
      exact .inr ⟨id, parts.1, parts.2, none, rfl, hslot, hplace, rfl⟩
    | some r =>
      obtain ⟨rfl, rfl⟩ := pure_ok.1 h
      exact .inr ⟨id, parts.1, parts.2, some r, rfl, hslot, hplace, rfl⟩

/-- What native code is lowered to. -/
inductive NativeOutcome (c : LowerContext) (lower : NodeId → Lower (Option Register))
    (id : NodeId) (source : String) (inputs : List NodeId) (output : Option NodeId)
    (s : Lowering) : Option Register → Lowering → Prop
  /-- There are more inputs than a native function takes, which is reported. -/
  | tooMany (h : maxNativeInputs < inputs.length) :
      NativeOutcome c lower id source inputs output s none
        (s.withProblem (.nativeInputs id inputs.length))
  /-- An input has no register, and nothing is called. -/
  | noInput {s' : Lowering} (h : InputsOutcome c lower inputs s none s') :
      NativeOutcome c lower id source inputs output s none s'
  /-- The output cannot be written, and nothing is called. -/
  | noOutput {slots : List NativeSlot} {s₁ s' : Lowering}
      (hinputs : InputsOutcome c lower inputs s (some slots) s₁)
      (h : nativeOutput c output s₁ = .ok (none, s')) :
      NativeOutcome c lower id source inputs output s none s'
  /-- The code is entered in the table and called. -/
  | emitted {slots : List NativeSlot} {slot : Option NativeSlot} {s₁ s₂ : Lowering}
      {out : Register} (hcount : inputs.length ≤ maxNativeInputs)
      (hinputs : InputsOutcome c lower inputs s (some slots) s₁)
      (hout : out = (slot.map NativeSlot.register).getD .none)
      (h : nativeOutput c output s₁ = .ok (some slot, s₂)) :
      NativeOutcome c lower id source inputs output s
        (if out = .none then none else some out)
        ((s₂.withNative ⟨source, slots, slot⟩).emitted
          ⟨.callNative, out, .native s₂.program.natives.size, .none⟩
          ((output.map c.typeOf).getD .empty) (c.span id))

theorem nativeRule_ok {id : NodeId} {source : String} {inputs : List NodeId}
    {output : Option NodeId} (h : nativeRule c lower id source inputs output s = .ok (v, s')) :
    NativeOutcome c lower id source inputs output s v s' := by
  unfold nativeRule at h
  by_cases hcount : maxNativeInputs < inputs.length
  · simp only [if_pos hcount] at h
    obtain ⟨_, _, hreport, h⟩ := bind_ok.1 h
    obtain rfl := report_ok.1 hreport
    obtain ⟨rfl, rfl⟩ := pure_ok.1 h
    exact .tooMany hcount
  · -- Inputs first, then the output slot, and only then the instruction.
    simp only [if_neg hcount] at h
    obtain ⟨u, s₁, hinputs, h⟩ := bind_ok.1 h
    have hinputs := nativeInputs_ok hinputs
    cases u with
    | none =>
      obtain ⟨rfl, rfl⟩ := pure_ok.1 h
      exact .noInput hinputs
    | some slots =>
      obtain ⟨u, s₂, houtput, h⟩ := bind_ok.1 h
      cases u with
      | none =>
        obtain ⟨rfl, rfl⟩ := pure_ok.1 h
        exact .noOutput hinputs houtput
      | some slot =>
        obtain ⟨index, _, hnative, h⟩ := bind_ok.1 h
        obtain ⟨rfl, rfl⟩ := addNative_ok hnative
        obtain ⟨_, _, hemit, h⟩ := bind_ok.1 h
        obtain rfl := emit_ok.1 hemit
        obtain ⟨rfl, rfl⟩ := pure_ok.1 h
        exact .emitted (Nat.le_of_not_lt hcount) hinputs rfl houtput

/-! ### Declarations and statements -/

/-- What a declaration with an initial value of type `source` is lowered to. -/
inductive DeclareOutcome (c : LowerContext) (lower : NodeId → Lower (Option Register))
    (id init : NodeId) (s : Lowering) : Option Register → Lowering → Prop
  /-- The initial value has no register, and the declaration gets none. -/
  | missing {s' : Lowering} (h : lower init s = .ok (none, s')) :
      DeclareOutcome c lower id init s none s'
  /-- The value is converted and tied to the declaration. -/
  | tied {value converted r : Register} {s₁ s₂ s' : Lowering}
      (hinit : lower init s = .ok (some value, s₁))
      (hconvert : convert c value (c.typeOf init) (c.typeOf id) (c.span id) s₁
        = .ok (converted, s₂))
      (h : bind c id converted (c.span id) s₂ = .ok (r, s')) :
      DeclareOutcome c lower id init s (some r) s'

theorem constantRule_ok {id definition : NodeId}
    (h : constantRule c lower id definition s = .ok (v, s')) :
    DeclareOutcome c lower id definition s v s' := by
  obtain ⟨u, s₁, hlower, h⟩ := bind_ok.1 h
  cases u with
  | none =>
    obtain ⟨rfl, rfl⟩ := pure_ok.1 h
    exact .missing hlower
  | some value =>
    obtain ⟨converted, s₂, hconvert, h⟩ := bind_ok.1 h
    obtain ⟨r, s₃, hbind, h⟩ := bind_ok.1 h
    obtain ⟨rfl, rfl⟩ := pure_ok.1 h
    exact .tied hlower hconvert hbind

/-- A variable without an initial value gets a register of its own, unless it is a text. -/
theorem varRule_ok {id : NodeId} {init : Option NodeId}
    (h : varRule c lower id init s = .ok (v, s')) :
    (∃ i, init = some i ∧ DeclareOutcome c lower id i s v s')
      ∨ (init = none ∧ c.typeOf id = .text ∧ v = none
        ∧ s' = s.withProblem (.unsupported .textValue (c.span id)))
      ∨ ∃ r, init = none ∧ c.typeOf id ≠ .text ∧ v = some r
          ∧ bind c id s.current.nextRegister (c.span id) s.allocated = .ok (r, s') := by
  cases init with
  | some i => exact .inl ⟨i, rfl, constantRule_ok h⟩
  -- A text has no register to be kept in.
  | none =>
    by_cases hty : c.typeOf id = .text
    · simp only [varRule, if_pos hty] at h
      obtain ⟨_, _, hreport, h⟩ := bind_ok.1 h
      obtain rfl := report_ok.1 hreport
      obtain ⟨rfl, rfl⟩ := pure_ok.1 h
      exact .inr (.inl ⟨rfl, hty, rfl, rfl⟩)
    · simp only [varRule, if_neg hty] at h
      obtain ⟨_, _, hfresh, h⟩ := bind_ok.1 h
      obtain ⟨-, rfl, rfl⟩ := fresh_ok.1 hfresh
      obtain ⟨r, s₁, hbind, h⟩ := bind_ok.1 h
      obtain ⟨rfl, rfl⟩ := pure_ok.1 h
      exact .inr (.inr ⟨r, rfl, hty, rfl, hbind⟩)

theorem store_ok {target : NodeId} {value : Register} {span : Span} {u : Unit}
    (h : store c target value span s = .ok (u, s')) :
    place c target s = .ok (none, s')
      ∨ ∃ r s₁, place c target s = .ok (some r, s₁)
          ∧ s' = s₁.emitted ⟨.copy, r, .register value, .none⟩ (c.typeOf target) span := by
  obtain ⟨u, s₁, hplace, h⟩ := bind_ok.1 h
  cases u with
  | none =>
    obtain ⟨-, rfl⟩ := pure_ok.1 h
    exact .inl hplace
  | some r => exact .inr ⟨r, s₁, hplace, copy_ok.1 h⟩

/-- A value that has a register is converted to the type of the target and stored. -/
inductive AssignOutcome (c : LowerContext) (lower : NodeId → Lower (Option Register))
    (id target value : NodeId) (s : Lowering) : Lowering → Prop
  /-- The value has no register, and nothing is stored. -/
  | missing {s' : Lowering} (h : lower value s = .ok (none, s')) :
      AssignOutcome c lower id target value s s'
  /-- The value is converted and stored. -/
  | stored {r converted : Register} {s₁ s₂ s' : Lowering}
      (hvalue : lower value s = .ok (some r, s₁))
      (hconvert : convert c r (c.typeOf value) (c.typeOf target) (c.span value) s₁
        = .ok (converted, s₂))
      (h : store c target converted (c.span id) s₂ = .ok (⟨⟩, s')) :
      AssignOutcome c lower id target value s s'

theorem assignRule_ok {id target value : NodeId} {u : Unit}
    (h : assignRule c lower id target value s = .ok (u, s')) :
    AssignOutcome c lower id target value s s' := by
  obtain ⟨u, s₁, hlower, h⟩ := bind_ok.1 h
  cases u with
  | none =>
    obtain ⟨-, rfl⟩ := pure_ok.1 h
    exact .missing hlower
  | some r =>
    obtain ⟨converted, s₂, hconvert, h⟩ := bind_ok.1 h
    exact .stored hlower hconvert h

/-- A value is staged in a register that belongs to no declaration. -/
inductive StageOutcome (c : LowerContext) (lower : NodeId → Lower (Option Register))
    (value : NodeId) (s : Lowering) : Option Register → Lowering → Prop
  /-- The value has no register. -/
  | missing {s' : Lowering} (h : lower value s = .ok (none, s')) :
      StageOutcome c lower value s none s'
  /-- The value is in the home of a declaration, and is copied out of it. -/
  | copied {r : Register} {s₁ : Lowering} (hvalue : lower value s = .ok (some r, s₁))
      (h : s₁.frame.bound.contains r = true) :
      StageOutcome c lower value s (some s₁.current.nextRegister)
        (s₁.allocated.emitted ⟨.copy, s₁.current.nextRegister, .register r, .none⟩
          (c.typeOf value) (c.span value))
  /-- The value is in a register of its own, and stays there. -/
  | kept {r : Register} {s' : Lowering} (hvalue : lower value s = .ok (some r, s'))
      (h : s'.frame.bound.contains r = false) : StageOutcome c lower value s (some r) s'

theorem stage_ok {value : NodeId} (h : stage c lower value s = .ok (v, s')) :
    StageOutcome c lower value s v s' := by
  obtain ⟨u, s₁, hlower, h⟩ := bind_ok.1 h
  cases u with
  | none =>
    obtain ⟨rfl, rfl⟩ := pure_ok.1 h
    exact .missing hlower
  | some r =>
    obtain ⟨b, _, hbound, h⟩ := bind_ok.1 h
    obtain ⟨rfl, rfl⟩ := isBound_ok.1 hbound
    cases hbound : s₁.frame.bound.contains r with
    | true =>
      simp only [hbound, if_true, bind_ok, fresh_ok, copy_ok, pure_ok] at h
      obtain ⟨_, _, ⟨-, rfl, rfl⟩, _, _, rfl, rfl, rfl⟩ := h
      exact .copied hlower hbound
    | false =>
      simp only [hbound, Bool.false_eq_true, if_false] at h
      obtain ⟨rfl, rfl⟩ := pure_ok.1 h
      exact .kept hlower hbound

/-- The values of a parallel assignment are staged in order. -/
inductive StagesOutcome (c : LowerContext) (lower : NodeId → Lower (Option Register)) :
    List NodeId → Lowering → List (Option Register) → Lowering → Prop
  /-- There are no values. -/
  | nil {s : Lowering} : StagesOutcome c lower [] s [] s
  /-- The first value is staged, then the others. -/
  | cons {value : NodeId} {values : List NodeId} {s s₁ s' : Lowering} {v : Option Register}
      {vs : List (Option Register)} (h : StageOutcome c lower value s v s₁)
      (hrest : StagesOutcome c lower values s₁ vs s') :
      StagesOutcome c lower (value :: values) s (v :: vs) s'

/-- What has been staged is converted and stored in order. -/
inductive StoresOutcome (c : LowerContext) :
    List (NodeId × NodeId × Option Register) → Lowering → Lowering → Prop
  /-- Nothing has been staged. -/
  | nil {s : Lowering} : StoresOutcome c [] s s
  /-- The first value has no register, and its target is left alone. -/
  | missing {target value : NodeId} {rest : List (NodeId × NodeId × Option Register)}
      {s s' : Lowering} (h : StoresOutcome c rest s s') :
      StoresOutcome c ((target, value, none) :: rest) s s'
  /-- The first value is converted and stored, then the others. -/
  | stored {target value : NodeId} {rest : List (NodeId × NodeId × Option Register)}
      {r converted : Register} {s s₁ s₂ s' : Lowering}
      (hconvert : convert c r (c.typeOf value) (c.typeOf target) (c.span target) s
        = .ok (converted, s₁))
      (hstore : store c target converted (c.span target) s₁ = .ok (⟨⟩, s₂))
      (h : StoresOutcome c rest s₂ s') :
      StoresOutcome c ((target, value, some r) :: rest) s s'

theorem mapM_stage_ok {values : List NodeId} {staged : List (Option Register)}
    (h : values.mapM (stage c lower) s = .ok (staged, s')) :
    StagesOutcome c lower values s staged s' := by
  induction values generalizing s staged with
  | nil =>
    obtain ⟨rfl, rfl⟩ := mapM_nil_ok.1 h
    exact .nil
  | cons value values ih =>
    obtain ⟨v, s₁, vs, hstage, hrest, rfl⟩ := mapM_cons_ok.1 h
    exact .cons (stage_ok hstage) (ih hrest)

theorem parallelRule_ok {targets values : List NodeId} {u : Unit}
    (h : parallelRule c lower targets values s = .ok (u, s')) :
    ∃ staged s₁, StagesOutcome c lower values s staged s₁
      ∧ StoresOutcome c (targets.zip (values.zip staged)) s₁ s' := by
  obtain ⟨staged, s₁, hstages, h⟩ := bind_ok.1 h
  refine ⟨staged, s₁, mapM_stage_ok hstages, ?_⟩
  clear hstages
  generalize targets.zip (values.zip staged) = triples at h
  induction triples generalizing s₁ with
  | nil =>
    obtain rfl := forM_nil_ok.1 h
    exact .nil
  -- A value without a register is skipped, and the others are stored all the same.
  | cons triple rest ih =>
    obtain ⟨target, value, r⟩ := triple
    obtain ⟨s₂, hone, hrest⟩ := forM_cons_ok.1 h
    cases r with
    | none =>
      obtain ⟨-, rfl⟩ := pure_ok.1 hone
      exact .missing (ih _ hrest)
    | some r =>
      obtain ⟨converted, s₃, hconvert, hstore⟩ := bind_ok.1 hone
      exact .stored hconvert hstore (ih _ hrest)

/-- A value is returned if it has a register, converted to the declared result type. -/
inductive ReturnOutcome (c : LowerContext) (lower : NodeId → Lower (Option Register))
    (id : NodeId) (s : Lowering) : Option NodeId → Lowering → Prop
  /-- Nothing is returned. -/
  | bare : ReturnOutcome c lower id s none
      (s.emitted ⟨.ret, .none, .none, .none⟩ .empty (c.span id))
  /-- The value has no register, and the procedure is not left. -/
  | missing {value : NodeId} {s' : Lowering} (h : lower value s = .ok (none, s')) :
      ReturnOutcome c lower id s (some value) s'
  /-- The value is returned as it is, since no result type is declared. -/
  | raw {value : NodeId} {r : Register} {s₁ : Lowering}
      (hvalue : lower value s = .ok (some r, s₁)) (h : s₁.frame.result = none) :
      ReturnOutcome c lower id s (some value)
        (s₁.emitted ⟨.ret, .none, .register r, .none⟩ .empty (c.span id))
  /-- The value is converted to the declared result type and returned. -/
  | converted {value : NodeId} {r r' : Register} {result : Ty} {s₁ s₂ : Lowering}
      (hvalue : lower value s = .ok (some r, s₁)) (hresult : s₁.frame.result = some result)
      (h : convert c r (c.typeOf value) result (c.span id) s₁ = .ok (r', s₂)) :
      ReturnOutcome c lower id s (some value)
        (s₂.emitted ⟨.ret, .none, .register r', .none⟩ .empty (c.span id))

theorem returnRule_ok {id : NodeId} {value : Option NodeId} {u : Unit}
    (h : returnRule c lower id value s = .ok (u, s')) :
    ReturnOutcome c lower id s value s' := by
  cases value with
  | none =>
    obtain rfl := emit_ok.1 h
    exact .bare
  -- A value without a register leaves no return behind.
  | some value =>
    obtain ⟨u, s₁, hlower, h⟩ := bind_ok.1 h
    cases u with
    | none =>
      obtain ⟨-, rfl⟩ := pure_ok.1 h
      exact .missing hlower
    | some r =>
      obtain ⟨_, _, hget, h⟩ := bind_ok.1 h
      obtain ⟨rfl, rfl⟩ := get_ok.1 hget
      cases hresult : s₁.frame.result with
      | none =>
        simp only [hresult] at h
        obtain ⟨_, _, hpure, h⟩ := bind_ok.1 h
        obtain ⟨rfl, rfl⟩ := pure_ok.1 hpure
        obtain rfl := emit_ok.1 h
        exact .raw hlower hresult
      | some result =>
        simp only [hresult] at h
        obtain ⟨r', s₂, hconvert, h⟩ := bind_ok.1 h
        obtain rfl := emit_ok.1 h
        exact .converted hlower hresult hconvert

/-! ### Procedures -/

theorem openProcedure_ok {id : NodeId} {index : Nat}
    (h : openProcedure c id s = .ok (index, s')) :
    index = s.program.procedures.size
      ∧ s' = s.opened id (procedureName c id).1 (procedureName c id).2 := by
  obtain ⟨_, _, hget, h⟩ := bind_ok.1 h
  obtain ⟨rfl, rfl⟩ := get_ok.1 hget
  by_cases hlimit : Limit.maxProcedures < s.program.procedures.size
  · simp only [if_pos hlimit] at h
    obtain ⟨_, _, hstop, -⟩ := bind_ok.1 h
    exact (exhausted_ok.1 hstop).elim
  · simp only [if_neg hlimit, bind_ok, modifyProgram, modify_ok, pure_ok] at h
    obtain ⟨_, _, rfl, _, _, rfl, rfl, rfl⟩ := h
    exact ⟨rfl, rfl⟩

/-- The value written last is converted, if there is one. -/
theorem convertLast_ok {body : NodeId} {result : Ty} {u : Unit}
    (h : convertLast c body result s = .ok (u, s')) :
    (s.current.lastRegister = .none ∧ s = s')
      ∨ ∃ r, s.current.lastRegister ≠ .none
          ∧ convert c s.current.lastRegister s.current.lastTy result (c.span body) s
            = .ok (r, s') := by
  obtain ⟨_, _, hget, h⟩ := bind_ok.1 h
  obtain ⟨rfl, rfl⟩ := get_ok.1 hget
  by_cases hlast : s.current.lastRegister = .none
  · simp only [hlast, ne_eq, not_true_eq_false, if_false] at h
    obtain ⟨-, rfl⟩ := pure_ok.1 h
    exact .inl ⟨hlast, rfl⟩
  · simp only [ne_eq, hlast, not_false_eq_true, if_true, discard_ok] at h
    obtain ⟨r, h⟩ := h
    exact .inr ⟨r, hlast, h⟩

/-- The body of a procedure is lowered in a frame of its own. -/
inductive ProcedureOutcome (c : LowerContext) (lower : NodeId → Lower (Option Register))
    (id body : NodeId) (s : Lowering) : Option NodeId → Lowering → Prop
  /-- Without a declared result type, the code is that of the body. -/
  | untyped {v : Option Register} {s₁ : Lowering}
      (hbody : lower body
          ((s.opened id (procedureName c id).1 (procedureName c id).2).inFrame
            ⟨s.program.procedures.size, none, ∅⟩) = .ok (v, s₁)) :
      ProcedureOutcome c lower id body s none (s₁.inFrame s.frame)
  /-- With one, the value written last is converted to it after the body. -/
  | typed {result : NodeId} {v : Option Register} {s₁ s₂ : Lowering}
      (hbody : lower body
          ((s.opened id (procedureName c id).1 (procedureName c id).2).inFrame
            ⟨s.program.procedures.size, some (c.typeOf result), ∅⟩) = .ok (v, s₁))
      (h : convertLast c body (c.typeOf result) s₁ = .ok (⟨⟩, s₂)) :
      ProcedureOutcome c lower id body s (some result) (s₂.inFrame s.frame)

theorem procedureRule_ok {id body : NodeId} {result : Option NodeId} {u : Unit}
    (h : procedureRule c lower id result body s = .ok (u, s')) :
    ProcedureOutcome c lower id body s result s' := by
  obtain ⟨index, _, hopen, h⟩ := bind_ok.1 h
  obtain ⟨rfl, rfl⟩ := openProcedure_ok hopen
  obtain ⟨_, _, hget, h⟩ := bind_ok.1 h
  obtain ⟨rfl, rfl⟩ := get_ok.1 hget
  obtain ⟨_, _, hframe, h⟩ := bind_ok.1 h
  obtain rfl := modify_ok.1 hframe
  obtain ⟨v, s₁, hbody, h⟩ := bind_ok.1 h
  cases result with
  | none =>
    obtain rfl := modify_ok.1 h
    exact .untyped hbody
  | some result =>
    obtain ⟨_, s₂, hlast, h⟩ := bind_ok.1 h
    obtain rfl := modify_ok.1 h
    exact .typed hbody hlast

/-! ### All shapes -/

/-- The nodes of a list are lowered one after the other. -/
inductive ItemsOutcome (lower : NodeId → Lower (Option Register)) :
    List NodeId → Lowering → Lowering → Prop
  /-- There are no nodes. -/
  | nil {s : Lowering} : ItemsOutcome lower [] s s
  /-- The first node is lowered, then the others. -/
  | cons {item : NodeId} {items : List NodeId} {s s₁ s' : Lowering} {v : Option Register}
      (h : lower item s = .ok (v, s₁)) (hrest : ItemsOutcome lower items s₁ s') :
      ItemsOutcome lower (item :: items) s s'

theorem items_ok {items : List NodeId} {u : Unit}
    (h : (items.forM fun item => discard (lower item)) s = .ok (u, s')) :
    ItemsOutcome lower items s s' := by
  induction items generalizing s with
  | nil =>
    obtain rfl := forM_nil_ok.1 h
    exact .nil
  | cons item items ih =>
    obtain ⟨s₁, hone, hrest⟩ := forM_cons_ok.1 h
    obtain ⟨v, hitem⟩ := discard_ok.1 hone
    exact .cons hitem (ih hrest)

/-- The run of the rule for the shape of a node, one case per shape. -/
inductive RuleOutcome (c : LowerContext) (lower : NodeId → Lower (Option Register))
    (id : NodeId) (s : Lowering) : Shape → Option Register → Lowering → Prop
  /-- The items are lowered in order. -/
  | module {items : List NodeId} {s' : Lowering} (h : ItemsOutcome lower items s s') :
      RuleOutcome c lower id s (.module items) none s'
  /-- The statements are lowered in order. -/
  | block {items : List NodeId} {s' : Lowering} (h : ItemsOutcome lower items s s') :
      RuleOutcome c lower id s (.block items) none s'
  /-- The definition is lowered and its value tied to the constant. -/
  | constant {name : String} {definition : NodeId} {v : Option Register} {s' : Lowering}
      (h : DeclareOutcome c lower id definition s v s') :
      RuleOutcome c lower id s (.constant name definition) v s'
  /-- The initial value is lowered and tied to the variable, or a register is given out for it. -/
  | var {name : String} {ty init : Option NodeId} {v : Option Register} {s' : Lowering}
      (h : varRule c lower id init s = .ok (v, s')) :
      RuleOutcome c lower id s (.var name ty init) v s'
  /-- The body is lowered to code of its own. -/
  | procedure {result : Option NodeId} {body : NodeId} {s' : Lowering}
      (h : ProcedureOutcome c lower id body s result s') :
      RuleOutcome c lower id s (.procedure result body) none s'
  /-- A structure stands for no code. -/
  | struct {fields : List NodeId} : RuleOutcome c lower id s (.struct fields) none s
  /-- Neither does a field. -/
  | field {name : String} {ty : NodeId} : RuleOutcome c lower id s (.field name ty) none s
  /-- An enumeration stands for no code. -/
  | enum {variants : List NodeId} : RuleOutcome c lower id s (.enum variants) none s
  /-- Neither does a variant. -/
  | variant {name : String} : RuleOutcome c lower id s (.variant name) none s
  /-- An operator is read by the expression it belongs to. -/
  | binaryOp {op : BinaryOp} : RuleOutcome c lower id s (.binaryOp op) none s
  /-- So is a sign. -/
  | signOp {op : Sign} : RuleOutcome c lower id s (.signOp op) none s
  /-- A type stands for no code. -/
  | typeName {name : String} : RuleOutcome c lower id s (.typeName name) none s
  /-- Neither does an array type. -/
  | array {elem len : NodeId} : RuleOutcome c lower id s (.array elem len) none s
  /-- The expression is lowered, and its value is dropped. -/
  | exprStmt {expr : NodeId} {v : Option Register} {s' : Lowering}
      (h : lower expr s = .ok (v, s')) : RuleOutcome c lower id s (.exprStmt expr) none s'
  /-- The value is lowered and stored. -/
  | assign {target value : NodeId} {s' : Lowering}
      (h : AssignOutcome c lower id target value s s') :
      RuleOutcome c lower id s (.assign target value) none s'
  /-- All values are staged, and then they are stored in order. -/
  | parallel {targets values : List NodeId} {staged : List (Option Register)}
      {s₁ s' : Lowering} (hstages : StagesOutcome c lower values s staged s₁)
      (hstores : StoresOutcome c (targets.zip (values.zip staged)) s₁ s') :
      RuleOutcome c lower id s (.parallel targets values) none s'
  /-- The value is lowered and returned. -/
  | ret {value : Option NodeId} {s' : Lowering} (h : ReturnOutcome c lower id s value s') :
      RuleOutcome c lower id s (.ret value) none s'
  /-- The value is loaded. -/
  | literal {lit : Literal} {v : Option Register} {s' : Lowering}
      (h : literalRule c id (c.span id) lit s = .ok (v, s')) :
      RuleOutcome c lower id s (.literal lit) v s'
  /-- The declaration is found and read. -/
  | ident {name : String} {decl : NodeId} {v : Option Register} {s' : Lowering}
      (hdecl : c.resolution.declaration? id = some decl) (h : IdentOutcome c id decl s v s') :
      RuleOutcome c lower id s (.ident name) v s'
  /-- The operands are lowered and the operation carried out in the kind of the expression. -/
  | binary {left op right : NodeId} {sym : BinaryOp} {kind : Kind} {v : Option Register}
      {s' : Lowering} (hop : c.tree.shape op = .binaryOp sym)
      (hkind : Kind.ofTy? (c.typeOf id) = some kind)
      (h : BinaryOutcome c lower id left right sym kind s v s') :
      RuleOutcome c lower id s (.binary left op right) v s'
  /-- The operand is lowered and the sign applied. -/
  | signed {op operand : NodeId} {sign : Sign} {v : Option Register} {s' : Lowering}
      (hop : c.tree.shape op = .signOp sign) (h : SignedOutcome c lower id operand s sign v s') :
      RuleOutcome c lower id s (.signed op operand) v s'
  /-- What is in parentheses is lowered. -/
  | group {expr : NodeId} {v : Option Register} {s' : Lowering}
      (h : lower expr s = .ok (v, s')) : RuleOutcome c lower id s (.group expr) v s'
  /-- The callee is lowered, in case it is written in place, and then called. -/
  | call {callee : NodeId} {u v : Option Register} {s₁ s' : Lowering}
      (hcallee : lower callee s = .ok (u, s₁)) (h : CallOutcome c id callee s₁ v s') :
      RuleOutcome c lower id s (.call callee) v s'
  /-- The operand is lowered and converted. -/
  | cast {expr ty : NodeId} {v : Option Register} {s' : Lowering}
      (h : castRule c lower id expr s = .ok (v, s')) :
      RuleOutcome c lower id s (.cast expr ty) v s'
  /-- The inputs are lowered and the code called. -/
  | native {source : String} {inputs : List NodeId} {output : Option NodeId}
      {v : Option Register} {s' : Lowering}
      (h : NativeOutcome c lower id source inputs output s v s') :
      RuleOutcome c lower id s (.native source inputs output) v s'
  /-- What the slot is tied to is lowered. -/
  | slot {target : NodeId} {offset : Nat} {v : Option Register} {s' : Lowering}
      (h : lower target s = .ok (v, s')) : RuleOutcome c lower id s (.slot target offset) v s'

/-- The result of a rule that is followed by giving up its value. -/
theorem andNone_ok {α : Type} {x : Lower α}
    (h : (do let _ ← x; return none : Lower (Option Register)) s = .ok (v, s')) :
    v = none ∧ ∃ a, x s = .ok (a, s') := by
  obtain ⟨a, s₁, hx, h⟩ := bind_ok.1 h
  obtain ⟨rfl, rfl⟩ := pure_ok.1 h
  exact ⟨rfl, a, hx⟩

theorem rule_ok {id : NodeId} (h : rule c lower id s = .ok (v, s')) :
    RuleOutcome c lower id s (c.tree.shape id) v s' := by
  unfold rule at h
  cases hshape : c.tree.shape id <;> simp only [hshape] at h
  case module items =>
    obtain ⟨rfl, _, h⟩ := andNone_ok h
    exact .module (items_ok h)
  case block items =>
    obtain ⟨rfl, _, h⟩ := andNone_ok h
    exact .block (items_ok h)
  case constant name definition => exact .constant (constantRule_ok h)
  case var name ty init => exact .var h
  case procedure result body =>
    obtain ⟨rfl, _, h⟩ := andNone_ok h
    exact .procedure (procedureRule_ok h)
  case exprStmt expr =>
    obtain ⟨rfl, _, h⟩ := andNone_ok h
    exact .exprStmt h
  case assign target value =>
    obtain ⟨rfl, _, h⟩ := andNone_ok h
    exact .assign (assignRule_ok h)
  case parallel targets values =>
    obtain ⟨rfl, _, h⟩ := andNone_ok h
    obtain ⟨staged, s₁, hstages, hstores⟩ := parallelRule_ok h
    exact .parallel hstages hstores
  case ret value =>
    obtain ⟨rfl, _, h⟩ := andNone_ok h
    exact .ret (returnRule_ok h)
  case literal lit => exact .literal h
  case ident name =>
    obtain ⟨decl, hdecl, h⟩ := identRule_ok h
    exact .ident hdecl h
  case binary left op right =>
    obtain ⟨sym, kind, hop, hkind, h⟩ := binaryRule_ok h
    exact .binary hop hkind h
  case signed op operand =>
    obtain ⟨sign, hop, h⟩ := signedRule_ok h
    exact .signed hop h
  case group expr => exact .group h
  case call callee =>
    obtain ⟨u, s₁, hcallee, h⟩ := callRule_ok h
    exact .call hcallee h
  case cast expr ty => exact .cast h
  case native source inputs output => exact .native (nativeRule_ok h)
  case slot target offset => exact .slot h
  -- What is left declares nothing and has no value.
  all_goals
    obtain ⟨rfl, rfl⟩ := pure_ok.1 h
    constructor

/-- Induction along lowering: what every rule passes on from the nodes it mentions, which come
before the node, holds of every node. -/
theorem node_induction {motive : NodeId → Lowering → Option Register → Lowering → Prop}
    (step : ∀ (lower : NodeId → Lower (Option Register)) (id : NodeId),
      (∀ (x : NodeId) (s s' : Lowering) (v : Option Register), lower x s = .ok (v, s') →
        x < id ∧ node c x s = .ok (v, s') ∧ motive x s v s') →
      ∀ (s s' : Lowering) (v : Option Register),
        RuleOutcome c lower id s (c.tree.shape id) v s' → motive id s v s')
    {id : NodeId} (h : node c id s = .ok (v, s')) : motive id s v s' := by
  induction id using Nat.strongRecOn generalizing s s' v with
  | ind id ih =>
    rw [node_eq] at h
    refine step _ id ?_ s s' v (rule_ok h)
    intro x s s' v hx
    by_cases hlt : x < id
    · rw [if_pos hlt] at hx
      exact ⟨hlt, hx, ih x hlt hx⟩
    · rw [if_neg hlt] at hx
      exact (misuse_ok.1 hx).elim

end MiddleEnd.Lower
