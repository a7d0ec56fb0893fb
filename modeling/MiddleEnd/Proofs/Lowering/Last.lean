import MiddleEnd.Proofs.Code.Values
import MiddleEnd.Proofs.Lowering.Implements
import MiddleEnd.Proofs.Lowering.Kinds
import MiddleEnd.Proofs.Lowering.Valued

/-!
# The value written last

An expression ends with the instruction that writes its value, with one exception: a variable is
read where it is, and nothing is written.  So the value written last is that of an expression
statement only if the expression is no bare name, or if the name was written last anyway.

## Main definitions

* `LowerContext.IsBare` — the expressions that may have no code at all.
* `EndsWith` — where the value of the last statement is in a procedure.

## Main results

* `Emits.writesLast` — the code of an expression writes its value last, or there is none.
* `Compiles.endsWith` — the code of a body whose last statement is an expression.
-/

namespace MiddleEnd

/-- A name, perhaps in parentheses, behind plus signs, or cast to a type of the same kind. -/
inductive LowerContext.IsBare (c : LowerContext) : NodeId → Prop
  /-- A name. -/
  | ident {id : NodeId} {name : String} (hshape : c.tree.shape id = .ident name) : IsBare c id
  /-- Parentheses around a bare name. -/
  | group {id x : NodeId} (hshape : c.tree.shape id = .group x) (h : IsBare c x) : IsBare c id
  /-- A plus in front of a bare name, which keeps its kind. -/
  | plus {id op x : NodeId} (hshape : c.tree.shape id = .signed op x)
      (hop : c.tree.shape op = .signOp .plus) (hkind : c.kindOf x = c.kindOf id) (h : IsBare c x) :
      IsBare c id
  /-- A cast of a bare name, which keeps its kind. -/
  | cast {id x y : NodeId} (hshape : c.tree.shape id = .cast x y)
      (hkind : c.kindOf x = c.kindOf id) (h : IsBare c x) : IsBare c id

variable {c : LowerContext} {ℓ : Linkage} {id x : NodeId} {l l' : Layout} {code : List CodeLine}
  {v : Option Register} {r : Register}

/-! ### Expressions -/

/-- The value of a node is written last, or the node is a bare name without code. -/
def WritesLast (c : LowerContext) : Emission := fun id l code v l' =>
  ∀ r, v = some r → code = [] ∧ l' = l ∧ c.IsBare id ∨ l'.lastRegister = r

/-- A conversion is one instruction, if there is something to convert. -/
theorem Layout.converted_cases (l : Layout) (r : Register) (source dest : Ty) (span : Span) :
    (l.convert r source dest span = ⟨[], r, l⟩
        ∧ ∀ w, Kind.converted (Kind.ofTy? source) (Kind.ofTy? dest) w = w)
      ∨ ∃ a b,
        l.convert r source dest span
            = ⟨[(⟨.convert a b, l.next, .register r, .none⟩, span)], l.next, l.computed dest⟩
          ∧ ∀ w, Kind.converted (Kind.ofTy? source) (Kind.ofTy? dest) w = a.convert b w := by
  unfold Kind.converted
  rcases l.convert_cases r source dest span with ⟨hnone, hsame⟩ | ⟨a, b, ha, hb, hab, hone⟩
  · refine .inl ⟨hnone, fun w => ?_⟩
    split
    · next a b ha hb => exact if_pos (hsame a b ha hb)
    · rfl
  · refine .inr ⟨a, b, hone, fun w => ?_⟩
    rw [ha, hb]
    exact if_neg hab

/-- A conversion writes the next register. -/
theorem Layout.out_of_convert {q : Piece} {source dest : Ty} {span : Span}
    (hq : q = l.convert r source dest span) {line : CodeLine} (hline : line ∈ q.code) :
    line.1.out = l.next ∧ l.next < q.layout.next := by
  subst hq
  rcases l.convert_cases r source dest span with ⟨hnone, -⟩ | ⟨a, b, -, -, -, hone⟩
  · rw [hnone] at hline
    cases hline
  · rw [hone] at hline ⊢
    obtain rfl := List.mem_singleton.1 hline
    exact ⟨rfl, Nat.lt_succ_self _⟩

/-- A conversion writes its value last, unless there is nothing to convert. -/
theorem Layout.convert_last (l : Layout) (r : Register) {source dest : Ty} (span : Span)
    (hsource : source.hasKind = true) (hdest : dest.hasKind = true) :
    Kind.ofTy? source = Kind.ofTy? dest ∧ l.convert r source dest span = ⟨[], r, l⟩
      ∨ (l.convert r source dest span).layout.lastRegister
          = (l.convert r source dest span).value := by
  obtain ⟨a, ha⟩ := Option.isSome_iff_exists.1 hsource
  obtain ⟨b, hb⟩ := Option.isSome_iff_exists.1 hdest
  rcases l.convert_cases r source dest span with ⟨hnone, hsame⟩ | ⟨_, _, -, -, -, hone⟩
  · exact .inl ⟨by rw [ha, hb, hsame a b ha hb], hnone⟩
  · rw [hone]
    exact .inr rfl

theorem EmitsAs.writesLast {emits : Emission} {dest : Ty} {span : Span}
    (hbelow : ∀ l code v l', emits x l code v l' → WritesLast c x l code v l')
    (hsource : (c.typeOf x).hasKind = true) (hdest : dest.hasKind = true)
    (h : EmitsAs c emits x dest span l code r l') :
    (code = [] ∧ l' = l ∧ c.IsBare x ∧ c.kindOf x = Kind.ofTy? dest) ∨ l'.lastRegister = r := by
  cases h with
  | @converted code r l₁ p h hp =>
    subst hp
    -- Without a conversion it is the operand that has been written last.
    rcases l₁.convert_last r span hsource hdest with ⟨hkind, hsame⟩ | hlast
    · rw [hsame, List.append_nil]
      refine (hbelow _ _ _ _ h r rfl).imp_left ?_
      rintro ⟨rfl, rfl, hbare⟩
      exact ⟨rfl, rfl, hbare, hkind⟩
    · exact .inr hlast

/-- **The code of an expression writes its value last, or there is none**: then the expression is a
bare name. -/
theorem Emits.writesLast (hc : c.Sound) (hid : id ∈ c.tree.preorder c.root)
    (hshape : (c.tree.shape id).isExpr = true) (hkind : (c.typeOf id).hasKind = true)
    (h : Emits c ℓ id l code v l') : WritesLast c id l code v l' := by
  refine Emits.expr_induction hc.tree hid
    (motive := fun id l code v l' => (c.typeOf id).hasKind = true → WritesLast c id l code v l')
    (fun emits id hid hexpr ih l code v l' hrule hkind => ?_) hshape h hkind
  have below (x) (hkind : (c.typeOf x).hasKind = true) (l code v l') (h : emits x l code v l') :
      WritesLast c x l code v l' := (ih x l code v l' h).2.2.2 hkind
  clear ih
  intro r hr
  generalize hs : c.tree.shape id = shape at hrule hexpr
  cases hrule with
  | module | block | constant | var | varFresh | exprStmt | assignMissing | assign | parallel
  | retBare
  | retMissing | ret | slot => cases hexpr
  | inert | procedure | identProcedure | identAbsent | castMissing | nativeSilent => cases hr
  | identOwn =>
    -- A variable of the procedure is read where it is.
    obtain rfl := Option.some.inj hr
    exact .inl ⟨rfl, rfl, .ident hs⟩
  | literal _ _ hp | identLiteral _ _ _ _ _ _ hp | folded _ _ _ hp =>
    subst hp
    exact .inr (Option.some.inj hr)
  | binary | minus | call | native => exact .inr (Option.some.inj hr)
  | plus hop h =>
    obtain rfl := Option.some.inj hr
    have hkx := (hc.hasKind_signed hid hs).1
    refine (h.writesLast (below _ hkx) hkx hkind).imp_left ?_
    rintro ⟨rfl, rfl, hbare, hsame⟩
    exact ⟨rfl, rfl, .plus hs hop hsame hbare⟩
  | group h =>
    rw [hc.typeOf_group hid hs] at hkind
    refine (below _ hkind _ _ _ _ h r hr).imp_left ?_
    rintro ⟨rfl, rfl, hbare⟩
    exact ⟨rfl, rfl, .group hs hbare⟩
  | cast h =>
    obtain rfl := Option.some.inj hr
    have hkx := (hc.hasKind_cast hid hs).trans hkind
    refine (h.writesLast (below _ hkx) hkx hkind).imp_left ?_
    rintro ⟨rfl, rfl, hbare, hsame⟩
    exact ⟨rfl, rfl, .cast hs hsame hbare⟩

/-! ### Bodies -/

/-- An expression statement has the code of its expression. -/
theorem Emits.exprStmt {stmt : NodeId} (hshape : c.tree.shape stmt = .exprStmt x)
    (h : Emits c ℓ x l code v l') : Emits c ℓ stmt l code none l' := by
  have hx : x ∈ c.tree.children stmt := by simp [Tree.children_of_shape hshape, Shape.children]
  have hnot : ¬c.Valued stmt := c.not_valued (by rw [hshape]; rfl)
  have hbelow : EmitsBelow c ℓ stmt x l code v l' := ⟨c.tree.child_lt hx, h⟩
  refine Emits.rule_iff.2 ⟨by simp [hnot], ?_⟩
  rw [hshape]
  exact .exprStmt hbelow

/-- The closing conversion gives no register to a declaration. -/
theorem Layout.registers_convertLast (l : Layout) (result : Option Ty) (span : Span) :
    (l.convertLast result span).layout.registers = l.registers := by
  unfold Layout.convertLast
  split
  · rfl
  · rcases l.convertResult_cases l.lastRegister l.lastTy result span with hnone | ⟨_, dest, hone⟩
    · rw [hnone]
    · rw [hone]
      rfl

/-- The code of `p` is that of `body`, with a result of type `τ`.  Its last statement is the
expression `x`, whose value is in `r` where the code of the statement ends, at `stop`; the layout
there is `l`. -/
inductive EndsWith (c : LowerContext) (ℓ : Linkage) (body : NodeId) (τ : Ty) (x : NodeId)
    (p : Procedure) : Nat → Register → Layout → Prop
  /-- The code of the statements before the last one, that of the expression, and the conversion of
  the value. -/
  | value {before : List NodeId} {stmt : NodeId} {first : List (List CodeLine)}
      {code : List CodeLine} {r : Register} {l₁ l : Layout}
      (hstatements : c.tree.statements body = before ++ [stmt])
      (hshape : c.tree.shape stmt = .exprStmt x)
      (hbefore : EmitsItems (Emits c ℓ) before .initial first l₁)
      (h : Emits c ℓ x l₁ code (some r) l)
      (hcode : p.code.toList
        = (first.flatten ++ code ++ (l.convertLast (some τ) (c.span body)).code).map Prod.fst)
      (hregisters : p.registers = (l.convertLast (some τ) (c.span body)).layout.registers)
      (hnext : p.nextRegister = (l.convertLast (some τ) (c.span body)).layout.next) :
      EndsWith c ℓ body τ x p (first.flatten.length + code.length) r l

variable {body stmt : NodeId} {before : List NodeId} {τ : Ty} {p : Procedure} {stop : Nat}

/-- The last statement of a body has a value if it is an expression whose type has a kind. -/
theorem Compiles.endsWith (hc : c.Sound) (hbody : body ∈ c.tree.preorder c.root)
    (h : Compiles c ℓ body (some τ) p) (hstatements : c.tree.statements body = before ++ [stmt])
    (hshape : c.tree.shape stmt = .exprStmt x) (hkind : (c.typeOf x).hasKind = true) :
    ∃ stop r l, EndsWith c ℓ body τ x p stop r l := by
  obtain ⟨hemits, rfl, hcode, -, hregisters, hnext, -, -⟩ := h
  -- The code of the body is that of its statements.
  obtain ⟨pieces, hitems, rfl⟩ := hemits.statements
  rw [hstatements] at hitems
  obtain ⟨first, l₁, rest, hbefore, hrest, rfl⟩ := hitems.split
  have hstmt : stmt ∈ c.tree.preorder c.root := by
    refine c.tree.mem_preorder_trans hbody (Tree.of_mem_statements ?_).1
    rw [hstatements]
    exact List.mem_append_right _ (.head _)
  have hx : x ∈ c.tree.children stmt := by simp [Tree.children_of_shape hshape, Shape.children]
  have hfits := hc.tree.fits stmt hstmt
  simp only [Tree.fits, hshape] at hfits
  -- The expression has a type with a kind, and so a register.
  have hvalued := hc.valued_of_hasKind (hc.tree.child hstmt hx) hfits hkind
  cases hrest with
  | cons hlast hnil =>
    cases hnil
    have hrule := (Emits.rule_iff.1 hlast).2
    rw [hshape] at hrule
    cases hrule with
    | inert hinert => cases hinert
    | exprStmt h =>
      obtain ⟨r, rfl⟩ := Option.isSome_iff_exists.1 ((Emits.rule_iff.1 h.2).1.2 hvalued)
      refine ⟨_, r, _, .value hstatements hshape hbefore h.2 ?_ hregisters hnext⟩
      simpa using hcode

/-- The statements of a body belong to the same procedure. -/
theorem LowerContext.Within.statement (hc : c.Sound) {ρ : Option Kind} (hbody : c.Within ρ body)
    (hx : x ∈ c.tree.statements body) : c.Within ρ x := by
  induction body using Nat.strongRecOn with
  | ind body ih =>
    cases hscope : c.tree.isScope body with
    | false =>
      rw [Tree.statements_of_not_scope hscope, List.mem_singleton] at hx
      exact hx ▸ hbody
    | true =>
      have hprocedure : (c.tree.shape body).isProcedure = false := by
        unfold Tree.isScope at hscope
        cases hshape : c.tree.shape body <;> rw [hshape] at hscope <;> first | rfl | cases hscope
      rw [Tree.statements_of_scope hscope] at hx
      obtain ⟨y, hy, hx⟩ := List.mem_flatMap.1 hx
      exact ih y (c.tree.child_lt hy) (hbody.child hc hprocedure hy) hx

namespace EndsWith

/-- What follows the last statement is the conversion of the value written last. -/
theorem drop_eq (h : EndsWith c ℓ body τ x p stop r l) :
    p.code.toList.drop stop
      = (l.convertLast (some τ) (c.span body)).code.map Prod.fst := by
  cases h with
  | value _ _ _ _ hcode =>
    rw [hcode, List.map_append, ← List.length_append, ← List.length_map Prod.fst, List.drop_left]

theorem le_size (h : EndsWith c ℓ body τ x p stop r l) : stop ≤ p.code.size := by
  cases h with
  | value _ _ _ _ hcode =>
    have hsize := congrArg List.length hcode
    simp only [Array.length_toList, List.length_map, List.length_append] at hsize
    omega

theorem isExpr (hc : c.Sound) (hbody : body ∈ c.tree.preorder c.root)
    (h : EndsWith c ℓ body τ x p stop r l) :
    x ∈ c.tree.preorder c.root ∧ (c.tree.shape x).isExpr = true := by
  cases h with
  | @value before stmt _ _ _ _ _ hstatements hshape =>
    have hmem : stmt ∈ c.tree.statements body := by
      rw [hstatements]
      exact List.mem_append_right _ (.head _)
    have hstmt := c.tree.mem_preorder_trans hbody (Tree.of_mem_statements hmem).1
    have hfits := hc.tree.fits stmt hstmt
    simp only [Tree.fits, hshape] at hfits
    exact ⟨hc.tree.child hstmt (by simp [Tree.children_of_shape hshape, Shape.children]), hfits⟩

/-- The value of the last expression is written last, or the expression is a bare name. -/
theorem isBare_or_last (hc : c.Sound) (hbody : body ∈ c.tree.preorder c.root)
    (h : EndsWith c ℓ body τ x p stop r l) (hkind : (c.typeOf x).hasKind = true) :
    c.IsBare x ∨ l.lastRegister = r := by
  obtain ⟨hx, hexpr⟩ := h.isExpr hc hbody
  cases h with
  | value _ _ _ h =>
    exact (h.writesLast hc hx hexpr hkind r rfl).imp_left fun h => h.2.2

/-- The register of a variable of the procedure that is named last. -/
theorem register_of_ident (h : EndsWith c ℓ body τ x p stop r l) {name : String} {decl : NodeId}
    (hshape : c.tree.shape x = .ident name) (hdecl : c.resolution.declaration? x = some decl)
    (hlit : Lower.literalConstant? c.tree decl = none) : p.registers[decl]? = some r := by
  cases h with
  | value _ _ _ h _ hregisters =>
    have hrule := (Emits.rule_iff.1 h).2
    rw [hshape] at hrule
    rw [hregisters, Layout.registers_convertLast]
    cases hrule with
    | identOwn hdecl' _ hr =>
      obtain rfl := Option.some.inj (hdecl.symm.trans hdecl')
      exact hr
    | identLiteral hdecl' _ _ hlit' =>
      obtain rfl := Option.some.inj (hdecl.symm.trans hdecl')
      rw [hlit] at hlit'
      cases hlit'

/-- A body without a return statement is executed up to its end. -/
theorem straight (hc : c.Sound) (hbody : body ∈ c.tree.preorder c.root)
    (h : EndsWith c ℓ body τ x p stop r l)
    (hret : ∀ y ∈ c.tree.statements body, (c.tree.shape y).isRet = false) {pc : Nat}
    (hpc : pc < stop) {i : Instruction} (hi : p.code[pc]? = some i) : i.op ≠ .ret := by
  cases h with
  | @value before stmt first code _ l₁ _ hstatements hshape hbefore h hcode _ _ =>
    have hitem (y : NodeId) (hy : y ∈ c.tree.statements body) :=
      Tree.of_mem_statements hy
    have hxs : ∀ y ∈ before ++ [stmt], y ∈ c.tree.preorder c.root ∧ c.tree.isScope y = false
        ∧ (c.tree.shape y).isRet = false := by
      intro y hy
      rw [← hstatements] at hy
      exact ⟨c.tree.mem_preorder_trans hbody (hitem y hy).1, (hitem y hy).2, hret y hy⟩
    have hcodes := (hbefore.append (.cons (h.exprStmt hshape) .nil)).straight hc hxs
    rw [List.flatten_append, List.flatten_cons, List.flatten_nil, List.append_nil] at hcodes
    rw [← List.length_append] at hpc
    rw [← Array.getElem?_toList, hcode, List.getElem?_map, List.getElem?_append_left hpc] at hi
    obtain ⟨line, hline, rfl⟩ := Option.map_eq_some_iff.1 hi
    exact hcodes line (List.mem_of_getElem? hline)

/-- Where the last statement ends, the register that the code has written last is known, and the
registers have kinds. -/
theorem kinded (hc : c.Sound) {ρ : Option Kind} (hbody : c.Within ρ body)
    (h : EndsWith c ℓ body τ x p stop r l) :
    ∃ K, l.Kinded c K ∧ KeptAs K r (c.kindOf x) ∧ r < p.nextRegister
      ∧ lastOut .none (p.code.toList.take stop) = l.lastRegister := by
  cases h with
  | @value before stmt first code _ l₁ _ hstatements hshape hbefore h hcode _ hnext =>
    have hwithin (y : NodeId) (hy : y ∈ before ++ [stmt]) : c.Within ρ y :=
      hbody.statement hc (hstatements ▸ hy)
    have hstmt := hwithin stmt (List.mem_append_right _ (.head _))
    have hx : c.Within ρ x :=
      hstmt.child hc (by rw [hshape]; rfl) (by rw [hshape]; exact List.mem_singleton_self x)
    obtain ⟨K₁, hfirst⟩ := hbefore.typed (fun x l code v l' hx h => Emits.typed hc hx h)
      (fun y hy => hwithin y (List.mem_append_left _ hy)) .initial
    obtain ⟨K, hcodes, hkept⟩ := Emits.typed hc hx h K₁ hfirst.layout
    obtain ⟨K', hconvert⟩ := hcodes.layout.convertLast (ℓ := ℓ) (ρ := ρ) (some τ) (c.span body)
    refine ⟨K, hcodes.layout, hkept r rfl, ?_, ?_⟩
    · rw [hnext, ← hconvert.layout.size]
      have hlt := (List.getElem?_eq_some_iff.1 (hkept r rfl).2).1
      exact Nat.lt_of_lt_of_le hlt hconvert.kinds.length_le
    · rw [hcode, List.map_append, ← List.length_append, ← List.length_map Prod.fst, List.take_left]
      exact (hfirst.trans hcodes).last.symm

end EndsWith

end MiddleEnd
