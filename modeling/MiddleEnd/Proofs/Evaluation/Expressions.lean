import MiddleEnd.Proofs.Evaluation.Simulates

/-!
# Expressions

The code of an expression simulates its evaluation.  It leaves every register alone that has been
given out before, so that the words of operands are still there when they are used.

## Main definitions

* `RegisterFile.AgreeBelow` — two frames with the same words in the registers given out so far.
* `Machine.CallAgrees`, `Machine.CallsAgree` — calls of the machine that agree with those of an
  evaluation.
* `Machine.SimulatesNode` — code of an expression that simulates it.

## Main results

* `Emits.simulates` — the code of every expression simulates it.
-/

namespace MiddleEnd

/-- The frames have the same words in the registers below `n`. -/
def RegisterFile.AgreeBelow (n : Register) (fr fr' : RegisterFile) : Prop :=
  ∀ r < n, fr'.word r = fr.word r

namespace RegisterFile.AgreeBelow

variable {n n' : Register} {fr fr₁ fr' : RegisterFile}

theorem refl : AgreeBelow n fr fr := fun _ _ => rfl

theorem trans (h : AgreeBelow n fr fr₁) (hn : n ≤ n') (h' : AgreeBelow n' fr₁ fr') :
    AgreeBelow n fr fr' :=
  fun r hr => (h' r (Nat.lt_of_lt_of_le hr hn)).trans (h r hr)

end RegisterFile.AgreeBelow

open RegisterFile Layout

namespace Machine

variable {σ : Type} (m : Machine σ) (c : LowerContext) (ℓ : Linkage)
  (call : Option (Procedure → Run σ Word)) (evalCall : NodeId → Span → Except Breakdown Word)
  (p : Procedure)

/-- A call of `q` at `span` that ends as an evaluation does. -/
def CallAgrees (q : Procedure) (span : Span) : Except Breakdown Word → Prop
  | .ok w => ∃ f, call = some f ∧ ∀ s, (f q).run s = (.ok w, s)
  | .error b => (call = none ∧ b = ⟨.callDepth m.maxCallDepth, span⟩)
      ∨ ∃ f, call = some f ∧ ∀ s, ∃ failure, (f q).run s = (.error (.failure failure), s)
        ∧ failure.fault = b.fault ∧ failure.span = b.span

/-- All calls of procedures of the tree end as their evaluations do. -/
def CallsAgree : Prop :=
  ∀ (target : NodeId) (index : Nat) (q : Procedure), ℓ.targets[target]? = some index →
    (c.tree.shape target).isProcedure = true → m.program.procedures[index]? = some q →
    ∀ span, m.CallAgrees call q span (evalCall target span)

/-- Expressions are never left. -/
def NoExit : Word → Activation → RegisterFile → Prop := fun _ _ _ => False

/-- The code of an expression simulates it: its value is in the register of the code. -/
def SimulatesNode : Emission := fun id l code v l' =>
  l.Ordered → ∀ a fr, m.Simulates call p a fr (Eval.node c evalCall id) l code l'
    (fun w fr' => w = v.map fr'.word ∧ AgreeBelow l.next fr fr') NoExit

variable {m c ℓ call evalCall p} {a : Activation} {fr : RegisterFile} {l l₁ l' : Layout}
  {code : List CodeLine} {exit : Word → Activation → RegisterFile → Prop} {w : Word} {r : Register}

/-! ### Pieces -/

section Pieces

variable (hp : p.WellFormed m.program) (hl : l.Ordered)

include hp hl

/-- An instruction that computes a value into the next register. -/
theorem Simulates.computed (ty : Ty) (span : Span) {i : Instruction} (hout : i.out = l.next)
    (hperforms : i.Fits m.program fr.size → ∀ site s, m.Performs call site fr s i (.write w) s) :
    m.Simulates call p a fr (Eval.remember w (Kind.ofTy? ty)) l [(i, span)] (l.computed ty)
      (fun v fr' => v = w ∧ fr'.word l.next = w ∧ AgreeBelow l.next fr fr') exit := by
  refine of_fits hp fun hfits => ?_
  have hne : i.out ≠ .none := hout ▸ Nat.ne_of_gt hl.pos
  have hrun : (Eval.remember w (Kind.ofTy? ty)).run a
      = (.ok w, { a with last := w, lastKind := Kind.ofTy? ty }) := rfl
  refine (write hrun (show _ = w from rfl) (hfits.out_inFrame hne) (hperforms hfits)
    fun fr' hfr' hrep => ?_).mono (fun v fr' ⟨hv, hfr'⟩ => ?_) fun _ _ _ h => h
  · exact hrep.computed hl ty (hout ▸ hfr')
  · rw [hout] at hfr'
    refine ⟨hv, by rw [hfr', if_pos rfl], fun r hr => ?_⟩
    rw [hfr', if_neg (Nat.ne_of_lt hr)]

/-- Loading the word of a literal. -/
theorem Simulates.load {index : Nat} (hindex : m.program.constants[index]? = some w) (ty : Ty)
    (span : Span) :
    m.Simulates call p a fr (some <$> Eval.remember w (Kind.ofTy? ty)) l (l.load index ty span).code
      (l.load index ty span).layout
      (fun v fr' => v = some (fr'.word (l.load index ty span).value) ∧ AgreeBelow l.next fr fr')
      exit := by
  refine .map ((Simulates.computed hp hl ty span rfl fun _ site s => .loadConstant hindex).mono
    (fun v fr' ⟨hv, hw, hagree⟩ => ⟨?_, hagree⟩) fun _ _ _ h => h)
  rw [hv, ← hw]
  rfl

/-- A conversion, with an instruction or without. -/
theorem Simulates.convert (r : Register) (source dest : Ty) (span : Span) :
    m.Simulates call p a fr (Eval.convert (fr.word r) (Kind.ofTy? source) (Kind.ofTy? dest)) l
      (l.convert r source dest span).code (l.convert r source dest span).layout
      (fun v fr' => v = fr'.word (l.convert r source dest span).value ∧ AgreeBelow l.next fr fr')
      exit := by
  unfold Eval.convert Layout.convert
  cases hsource : Kind.ofTy? source with
  | none => exact .pure ⟨rfl, .refl⟩
  | some k =>
    cases hdest : Kind.ofTy? dest with
    | none => exact .pure ⟨rfl, .refl⟩
    | some k' =>
      by_cases hk : k = k'
      · simp only [if_pos hk]
        exact .pure ⟨rfl, .refl⟩
      · simp only [if_neg hk]
        rw [← hdest]
        refine (Simulates.computed hp hl dest span rfl fun hfits site s => ?_).mono
          (fun v fr' ⟨hv, hw, hagree⟩ => ⟨hv.trans hw.symm, hagree⟩) fun _ _ _ h => h
        cases hfits with
        | convert _ hr => exact .convert (read_word hr)

end Pieces

/-! ### Calls -/

/-- A call writes what its callee hands back, or fails as it does. -/
theorem Simulates.callResult (hp : p.WellFormed m.program) (hl : l.Ordered)
    {outcome : Except Breakdown Word} {index : Nat} (ty : Ty) (span : Span)
    (hcall : ∀ q, m.program.procedures[index]? = some q → m.CallAgrees call q span outcome) :
    m.Simulates call p a fr
      (match outcome with
        | .ok w => some <$> Eval.remember w (Kind.ofTy? ty)
        | .error b => throw (.breakdown b))
      l [(⟨.call, l.next, .procedure index, .none⟩, span)] (l.computed ty)
      (fun v fr' => v = some (fr'.word l.next) ∧ AgreeBelow l.next fr fr') exit := by
  refine of_fits hp fun hfits => ?_
  cases hfits with
  | call _ hindex =>
    have hq := Array.getElem?_eq_getElem hindex
    have hagrees := hcall _ hq
    -- What a call does is what its callee does, if that can be entered.
    cases outcome with
    | ok w =>
      obtain ⟨f, hf, hrun⟩ := hagrees
      refine .map ((Simulates.computed hp hl ty span rfl fun _ site s =>
        .call hq hf (hrun s)).mono (fun v fr' ⟨hv, hw, hagree⟩ => ⟨?_, hagree⟩) fun _ _ _ h => h)
      rw [hv, hw]
    -- The callee fails, or the call itself is too deep.
    | error b =>
      refine .breakdown rfl fun pc s hspan => ?_
      rcases hagrees with ⟨rfl, rfl⟩ | ⟨f, rfl, hrun⟩
      · refine ⟨_, effect_call_none hq, rfl, ?_⟩
        simp only [Site.failure, hspan, Option.getD_some]
      · obtain ⟨failure, hfailure, hsame⟩ := hrun s
        exact ⟨failure, effect_call_error hq hfailure, hsame⟩

/-! ### Operations -/

/-- The result of an operation is remembered, or the operation fails. -/
theorem Simulates.arith (hp : p.WellFormed m.program) (hl : l.Ordered) {ty : Ty} {kind : Kind}
    (hkind : Kind.ofTy? ty = some kind) (span : Span) {i : Instruction} (hout : i.out = l.next)
    {result : Except ArithError Word}
    (hok : i.Fits m.program fr.size → ∀ w, result = .ok w → ∀ site s,
      m.Performs call site fr s i (.write w) s)
    (herror : i.Fits m.program fr.size → ∀ e, result = .error e → ∀ (site : Site) s,
      (m.effect call site fr i).run s = (.error (.failure (site.failure (.arith e))), s)) :
    m.Simulates call p a fr (some <$> Eval.arith result kind span) l [(i, span)] (l.computed ty)
      (fun v fr' => v = some (fr'.word l.next) ∧ AgreeBelow l.next fr fr') exit := by
  refine .map (of_fits hp fun hfits => ?_)
  cases result with
  | ok w =>
    unfold Eval.arith
    rw [← hkind]
    refine (Simulates.computed hp hl ty span hout fun _ => hok hfits w rfl).mono
      (fun v fr' ⟨hv, hw, hagree⟩ => ⟨?_, hagree⟩) fun _ _ _ h => h
    rw [hv, hw]
  | error e =>
    refine .breakdown rfl fun pc s hspan => ⟨_, herror hfits e rfl _ s, rfl, ?_⟩
    simp only [Site.failure, hspan, Option.getD_some]

end Machine

/-! ### Rules -/

section Rules

open Machine

variable {σ : Type} {m : Machine σ} {c : LowerContext} {ℓ : Linkage}
  {call : Option (Procedure → Run σ Word)} {evalCall : NodeId → Span → Except Breakdown Word}
  {p : Procedure} {id x : NodeId} {l l' : Layout} {code : List CodeLine} {r : Register}
  {v : Option Register}

/-- The code of `x` leaves alone what has been given out before it, and simulates `x`. -/
def Machine.Follows (m : Machine σ) (c : LowerContext) (call : Option (Procedure → Run σ Word))
    (evalCall : NodeId → Span → Except Breakdown Word) (p : Procedure) (emits : Emission)
    (x : NodeId) : Prop :=
  ∀ l code v l', emits x l code v l' →
    ComputesNode x l code v l' ∧ m.SimulatesNode c call evalCall p x l code v l'

variable {emits : Emission}

/-- A value that is converted. -/
theorem EmitsAs.simulates {dest : Ty} {span : Span} (hp : p.WellFormed m.program)
    (hbelow : m.Follows c call evalCall p emits x) (h : EmitsAs c emits x dest span l code r l')
    (hl : l.Ordered) (a : Activation) (fr : RegisterFile) :
    m.Simulates call p a fr (Eval.operand c (Eval.node c evalCall) x (Kind.ofTy? dest)) l code l'
      (fun w fr' => w = some (fr'.word r) ∧ AgreeBelow l.next fr fr') NoExit := by
  cases h with
  | @converted code r l₁ q h hq =>
    subst hq
    obtain ⟨hcode, hsimulates⟩ := hbelow _ _ _ _ h
    obtain ⟨hcomputes, -⟩ := hcode hl
    refine .bind (hsimulates hl a fr) fun w a₁ fr₁ ⟨hw, hagree⟩ => ?_
    subst hw
    exact .map ((Simulates.convert hp hcomputes.ordered r (c.typeOf x) dest span).mono
      (fun v fr' ⟨hv, hagree'⟩ => ⟨congrArg some hv, hagree.trans hcomputes.next_le hagree'⟩)
      fun _ _ _ h => h)

/-- The registers that a converted value leaves alone. -/
theorem EmitsAs.computesOf {dest : Ty} {span : Span} (hbelow : m.Follows c call evalCall p emits x)
    (h : EmitsAs c emits x dest span l code r l') (hl : l.Ordered) :
    Computes l l' ∧ Gives l l' r :=
  h.computes (fun l code v l' h => (hbelow l code v l' h).1) hl

namespace Machine.SimulatesNode

/-! #### Names and literals -/

section Leaves

variable (hp : p.WellFormed m.program) (hconstants : ℓ.constants = m.program.constants)

include hp hconstants

theorem literal {lit : Literal} {value : LiteralValue} {index : Nat}
    (hshape : c.tree.shape id = .literal lit) (hvalue : c.typing.literal? id = some value)
    (hindex : ℓ.constants[index]? = some value.word) {q : Piece}
    (hq : q = l.load index (c.typeOf id) (c.span id)) :
    m.SimulatesNode c call evalCall p id l q.code (some q.value) q.layout := by
  intro hl a fr
  subst hq
  rw [Eval.node_eq]
  simp only [Eval.rule, hshape, Eval.literalRule, hvalue]
  exact Simulates.load hp hl (hconstants ▸ hindex) (c.typeOf id) (c.span id)

/-- A constant without a register of its own is loaded wherever it is named. -/
theorem identLiteral {name : String} {decl y : NodeId} {lit : Literal} {value : LiteralValue}
    {index : Nat} (hshape : c.tree.shape id = .ident name)
    (hdecl : c.resolution.declaration? id = some decl) (hty : c.typeOf decl ≠ .procedure)
    (hr : l.registers[decl]? = none) (hlit : Lower.literalConstant? c.tree decl = some (y, lit))
    (hvalue : c.typing.literal? y = some value) (hindex : ℓ.constants[index]? = some value.word)
    {q : Piece} (hq : q = l.load index (c.typeOf y) (c.span id)) :
    m.SimulatesNode c call evalCall p id l q.code (some q.value) q.layout := by
  intro hl a fr
  subst hq
  rw [Eval.node_eq]
  simp only [Eval.rule, hshape, Eval.identRule, hdecl, if_neg hty]
  refine .get (.intro fun _ hrep => ?_)
  simp only [hrep.word_absent hr, hlit, Eval.literalRule, hvalue]
  exact Simulates.load hp hl (hconstants ▸ hindex) _ (c.span id)

/-- A negated literal whose negation is loaded as a whole. -/
theorem folded {op : NodeId} {w : Word} {index : Nat} (hshape : c.tree.shape id = .signed op x)
    (hop : c.tree.shape op = .signOp .minus)
    (hword : Lower.negatedLiteral? c x (c.typeOf id) = some w)
    (hindex : ℓ.constants[index]? = some w) {q : Piece}
    (hq : q = l.load index (c.typeOf id) (c.span id)) :
    m.SimulatesNode c call evalCall p id l q.code (some q.value) q.layout := by
  intro hl a fr
  subst hq
  obtain ⟨k, _, _, hk, -⟩ := Lower.negatedLiteral_some hword
  rw [Eval.node_eq]
  simp only [Eval.rule, hshape, Eval.signedRule, hop, show c.kindOf id = _ from hk,
    hword]
  rw [← hk]
  exact Simulates.load hp hl (hconstants ▸ hindex) (c.typeOf id) (c.span id)

omit hp hconstants

/-- A declaration with a register is read from it. -/
theorem identOwn {name : String} {decl : NodeId} (hshape : c.tree.shape id = .ident name)
    (hdecl : c.resolution.declaration? id = some decl) (hty : c.typeOf decl ≠ .procedure)
    (hr : l.registers[decl]? = some r) :
    m.SimulatesNode c call evalCall p id l [] (some r) l := by
  intro hl a fr
  rw [Eval.node_eq]
  simp only [Eval.rule, hshape, Eval.identRule, hdecl, if_neg hty]
  refine .get (.intro fun _ hrep => ?_)
  simp only [hrep.word_home hr]
  exact .pure ⟨rfl, .refl⟩

theorem identProcedure {name : String} {decl : NodeId} (hshape : c.tree.shape id = .ident name)
    (hdecl : c.resolution.declaration? id = some decl) (hty : c.typeOf decl = .procedure) :
    m.SimulatesNode c call evalCall p id l [] none l := by
  intro hl a fr
  rw [Eval.node_eq]
  simp only [Eval.rule, hshape, Eval.identRule, hdecl, if_pos hty]
  exact .pure ⟨rfl, .refl⟩

/-- A declaration without a value has no word either. -/
theorem identAbsent {name : String} {decl : NodeId} (hshape : c.tree.shape id = .ident name)
    (hdecl : c.resolution.declaration? id = some decl) (hty : c.typeOf decl ≠ .procedure)
    (hr : l.registers[decl]? = none) (hvalued : ¬c.Valued decl) :
    m.SimulatesNode c call evalCall p id l [] none l := by
  intro hl a fr
  rw [Eval.node_eq]
  simp only [Eval.rule, hshape, Eval.identRule, hdecl, if_neg hty]
  refine .get (.intro fun _ hrep => ?_)
  cases hlit : Lower.literalConstant? c.tree decl with
  | none =>
    simp only [hrep.word_absent hr]
    exact .pure ⟨rfl, .refl⟩
  | some pair => exact (hvalued (LowerContext.valued_of_literalConstant hlit)).elim

end Leaves

/-! #### Operators -/

/-- The operands are evaluated one after the other; the first keeps its register meanwhile. -/
theorem binary {left op right : NodeId} {sym : BinaryOp} {kind : Kind} {l₁ l₂ : Layout}
    {code₁ code₂ : List CodeLine} {x y : Register} (hp : p.WellFormed m.program)
    (hshape : c.tree.shape id = .binary left op right) (hop : c.tree.shape op = .binaryOp sym)
    (hkind : c.kindOf id = some kind) (hleft' : m.Follows c call evalCall p emits left)
    (hright' : m.Follows c call evalCall p emits right)
    (hleft : EmitsAs c emits left (c.typeOf id) (c.span left) l code₁ x l₁)
    (hright : EmitsAs c emits right (c.typeOf id) (c.span right) l₁ code₂ y l₂) :
    m.SimulatesNode c call evalCall p id l
      (code₁ ++ code₂ ++ [(⟨.binary sym kind, l₂.next, .register x, .register y⟩, c.span id)])
      (some l₂.next) (l₂.computed (c.typeOf id)) := by
  intro hl a fr
  obtain ⟨hcode₁, hx⟩ := hleft.computesOf hleft' hl
  obtain ⟨hcode₂, -⟩ := hright.computesOf hright' hcode₁.ordered
  rw [Eval.node_eq]
  simp only [Eval.rule, hshape, Eval.binaryRule, hop, hkind]
  rw [← hkind, List.append_assoc]
  refine .bind (hleft.simulates hp hleft' hl a fr) fun v a₁ fr₁ h => ?_
  obtain ⟨rfl, hagree₁⟩ := h
  refine .bind (hright.simulates hp hright' hcode₁.ordered a₁ fr₁) fun w a₂ fr₂ h => ?_
  obtain ⟨rfl, hagree₂⟩ := h
  -- The left value is still in its register when the right one has been evaluated.
  rw [← hagree₂ x hx.lt]
  refine (Simulates.arith hp hcode₂.ordered hkind (c.span id) rfl (fun hfits w hw site s => ?_)
    fun hfits e he site s => ?_).mono (fun v fr' h => ⟨h.1, ?_⟩) fun _ _ _ h => h
  · -- The operation yields a word.
    cases hfits with
    | binary _ ha hb => exact .binary (read_word ha) (read_word hb) hw
  · -- It fails, at the place of the whole expression.
    cases hfits with
    | binary _ ha hb => exact effect_binary_error (read_word ha) (read_word hb) he
  · exact (hagree₁.trans hcode₁.next_le hagree₂).trans
      (Nat.le_trans hcode₁.next_le hcode₂.next_le) h.2

theorem minus {op : NodeId} {kind : Kind} {l₁ : Layout} (hp : p.WellFormed m.program)
    (hshape : c.tree.shape id = .signed op x) (hop : c.tree.shape op = .signOp .minus)
    (hword : Lower.negatedLiteral? c x (c.typeOf id) = none) (hkind : c.kindOf id = some kind)
    (hx : m.Follows c call evalCall p emits x)
    (h : EmitsAs c emits x (c.typeOf id) (c.span x) l code r l₁) :
    m.SimulatesNode c call evalCall p id l
      (code ++ [(⟨.negate kind, l₁.next, .register r, .none⟩, c.span id)]) (some l₁.next)
      (l₁.computed (c.typeOf id)) := by
  intro hl a fr
  obtain ⟨hcode, -⟩ := h.computesOf hx hl
  rw [Eval.node_eq]
  simp only [Eval.rule, hshape, Eval.signedRule, hop, hkind, hword]
  rw [← hkind]
  refine .bind (h.simulates hp hx hl a fr) fun v a₁ fr₁ h => ?_
  obtain ⟨rfl, hagree₁⟩ := h
  refine (Simulates.arith hp hcode.ordered hkind (c.span id) rfl (fun hfits w hw site s => ?_)
    fun hfits e he site s => ?_).mono
      (fun v fr' h => ⟨h.1, hagree₁.trans hcode.next_le h.2⟩) fun _ _ _ h => h
  · cases hfits with
    | negate _ hr => exact .negate (read_word hr) hw
  · cases hfits with
    | negate _ hr => exact effect_negate_error (read_word hr) he

/-! #### Calls -/

/-- The callee is evaluated for its effects, and the procedure that it denotes is called. -/
theorem callee {callee target index : NodeId} {l₁ : Layout} {u : Option Register}
    (hp : p.WellFormed m.program) (hcalls : m.CallsAgree c ℓ call evalCall)
    (hshape : c.tree.shape id = .call callee) (hx : m.Follows c call evalCall p emits callee)
    (h : emits callee l code u l₁)
    (htarget : c.resolution.procedureTarget? c.tree callee = some target)
    (hindex : ℓ.targets[target]? = some index) :
    m.SimulatesNode c call evalCall p id l
      (code ++ [(⟨.call, l₁.next, .procedure index, .none⟩, c.span id)]) (some l₁.next)
      (l₁.computed (c.typeOf id)) := by
  intro hl a fr
  obtain ⟨hcode, hsimulates⟩ := hx _ _ _ _ h
  obtain ⟨hcomputes, -⟩ := hcode hl
  rw [Eval.node_eq]
  simp only [Eval.rule, hshape]
  refine .bind (hsimulates hl a fr) fun _ a₁ fr₁ h => ?_
  obtain ⟨-, hagree₁⟩ := h
  simp only [htarget]
  refine (Simulates.callResult hp hcomputes.ordered (c.typeOf id) (c.span id) fun q hq =>
    hcalls target index q hindex (Resolution.isProcedure_of_target htarget) hq (c.span id)).mono
      (fun v fr' h => ⟨h.1, hagree₁.trans hcomputes.next_le h.2⟩) fun _ _ _ h => h

end Machine.SimulatesNode

/-! #### All expressions -/

variable (ht : c.tree.WellFormed c.root) (hfree : c.tree.NativeFree c.root)
  (hp : p.WellFormed m.program) (hconstants : ℓ.constants = m.program.constants)
  (hcalls : m.CallsAgree c ℓ call evalCall)

include ht hfree hp hconstants hcalls

/-- **The code of every expression simulates it.** -/
theorem Emits.simulates (hid : id ∈ c.tree.preorder c.root)
    (hexpr : (c.tree.shape id).isExpr = true) (h : Emits c ℓ id l code v l') :
    m.SimulatesNode c call evalCall p id l code v l' := by
  refine Emits.expr_induction ht hid (motive := m.SimulatesNode c call evalCall p)
    (fun emits id hid hexpr ih l code v l' hrule => ?_) hexpr h
  have hnative := hfree id hid
  have below (x) : m.Follows c call evalCall p emits x := fun l code v l' h =>
    have ⟨hmem, hexpr, hemits, hsimulates⟩ := ih x l code v l' h
    ⟨hemits.computes ht hmem hexpr, hsimulates⟩
  clear ih
  generalize hshape : c.tree.shape id = shape at hrule hexpr hnative
  cases hrule with
  -- Statements and declarations are no expressions, and there is no native code.
  | module | block | constant | var | varFresh | exprStmt | assignMissing | assign | parallel
  | retBare | retMissing | ret | slot => cases hexpr
  | nativeSilent | native => cases hnative
  | inert h =>
    intro hl a fr
    rw [Eval.node_eq]
    simp only [Eval.rule, hshape]
    cases shape with
    | struct | enum => exact .pure ⟨rfl, .refl⟩
    | _ => first | (cases h; done) | cases hexpr
  | procedure =>
    intro hl a fr
    rw [Eval.node_eq]
    simp only [Eval.rule, hshape]
    exact .pure ⟨rfl, .refl⟩
  | literal hvalue hindex hq => exact .literal hp hconstants hshape hvalue hindex hq
  | identOwn hdecl hty hr => exact .identOwn hshape hdecl hty hr
  | identProcedure hdecl hty => exact .identProcedure hshape hdecl hty
  | identLiteral hdecl hty hr hlit hvalue hindex hq =>
    exact .identLiteral hp hconstants hshape hdecl hty hr hlit hvalue hindex hq
  | identAbsent hdecl hty hr hvalued => exact .identAbsent hshape hdecl hty hr hvalued
  | binary hop hkind hleft hright =>
    exact .binary hp hshape hop hkind (below _) (below _) hleft hright
  | plus hop h =>
    intro hl a fr
    rw [Eval.node_eq]
    simp only [Eval.rule, hshape, Eval.signedRule, hop]
    exact h.simulates hp (below _) hl a fr
  | folded hop hword hindex hq => exact .folded hp hconstants hshape hop hword hindex hq
  | minus hop hword hkind h => exact .minus hp hshape hop hword hkind (below _) h
  | group h =>
    intro hl a fr
    rw [Eval.node_eq]
    simp only [Eval.rule, hshape]
    exact (below _ _ _ _ _ h).2 hl a fr
  | call h htarget hindex => exact .callee hp hcalls hshape (below _) h htarget hindex
  -- Nothing is converted, so the operand gives the value as it is.
  | castMissing h =>
    obtain ⟨-, hsimulates⟩ := below _ _ _ _ _ h
    intro hl a fr
    rw [Eval.node_eq]
    simp only [Eval.rule, hshape]
    rw [← List.append_nil code]
    refine .bind (hsimulates hl a fr) fun v a₁ fr₁ h => ?_
    obtain ⟨rfl, hagree₁⟩ := h
    exact .pure ⟨rfl, hagree₁⟩
  | cast h =>
    intro hl a fr
    rw [Eval.node_eq]
    simp only [Eval.rule, hshape]
    exact h.simulates hp (below _) hl a fr

end Rules

end MiddleEnd
