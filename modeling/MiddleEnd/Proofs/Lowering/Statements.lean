import MiddleEnd.Proofs.Lowering.Progress

/-!
# The code of statements

The code of a scope is that of its statements, one after the other, and every statement of a
well-formed tree belongs to the start or to one procedure.  Between the statements there is nothing:
the code of an expression has no return in it, so that only return statements leave.

## Main definitions

* `Straight` — code without returns.
* `LowerContext.IsPart` — the expressions and declarations of the tree.

## Main results

* `Emits.statements` — the code of a scope, cut at its statements.
* `Emits.straight` — the code of an expression has no return in it.
* `Emits.straight_of_not_ret` — only return statements leave.
* `Tree.WellFormed.mem_statements` — every statement belongs to the root or to a procedure.
-/

namespace MiddleEnd

/-! ### Statements in trees -/

namespace Shape

/-- Whether the node is a return. -/
def isRet : Shape → Bool
  | ret _ => true
  | _ => false

/-- Shapes that only stand in scopes or as the body of a procedure. -/
def standsAlone (s : Shape) : Bool := s.isStmt || s.isScope

variable {s : Shape}

/-- Expressions, types, operators, slots and the parts of definitions only stand in others. -/
theorem standsAlone_of_part (h : s.isExpr || s.isType || s.isField || s.isVariant || s.isBinaryOp
    || s.isSignOp || s.isSlot || s.isIdent) : s.standsAlone = false := by
  cases s <;> first | rfl | cases h

end Shape

namespace Tree

variable {t : Tree} {id x y : NodeId}

/-- What stands alone is an item of a scope or the body of a procedure. -/
theorem standsAlone_child (hfits : t.fits id = true) (hid : t.isScope id = false)
    (hy : y ∈ t.children id) :
    (t.shape y).standsAlone = false ∨ ∃ result, t.shape id = .procedure result y := by
  unfold isScope at hid
  unfold fits at hfits
  unfold children at hy
  cases hshape : t.shape id <;> simp only [hshape] at hfits hid hy
  case module | block => cases hid
  case variant | literal | ident | binaryOp | signOp | typeName => cases hy
  -- A procedure is the one shape whose child stands alone, namely its body.
  case procedure result body =>
    simp only [Bool.and_eq_true, Option.all_eq_true] at hfits
    rcases List.mem_append.1 hy with hy | hy
    · exact .inl (Shape.standsAlone_of_part (by simp [hfits.1 y (Option.mem_toList.1 hy)]))
    · obtain rfl := List.mem_singleton.1 hy
      exact .inr ⟨result, rfl⟩
  -- All other shapes have children that stand in no scope.
  all_goals
    refine .inl ?_
    simp only [Shape.children, Bool.and_eq_true, List.all_eq_true, Option.all_eq_true,
      List.mem_append, List.mem_cons, List.not_mem_nil, or_false, Option.mem_toList] at hfits hy
  case constant | exprStmt | group | call | field | slot =>
    obtain rfl := hy
    exact Shape.standsAlone_of_part (by simp [hfits])
  case struct | enum | ret => exact Shape.standsAlone_of_part (by simp [hfits y hy])
  case var | native | parallel =>
    rcases hy with hy | hy
    · exact Shape.standsAlone_of_part (by simp [hfits.1 y hy])
    · exact Shape.standsAlone_of_part (by simp [hfits.2 y hy])
  case assign | signed | cast | array =>
    rcases hy with rfl | rfl
    · exact Shape.standsAlone_of_part (by simp [hfits.1])
    · exact Shape.standsAlone_of_part (by simp [hfits.2])
  case binary =>
    rcases hy with rfl | rfl | rfl
    · exact Shape.standsAlone_of_part (by simp [hfits.1.1])
    · exact Shape.standsAlone_of_part (by simp [hfits.1.2])
    · exact Shape.standsAlone_of_part (by simp [hfits.2])

/-- Statements are no scopes, and they are below the node that they belong to. -/
theorem of_mem_statements (hx : x ∈ t.statements id) :
    x ∈ t.preorder id ∧ t.isScope x = false := by
  induction id using Nat.strongRecOn with
  | ind id ih =>
    cases hscope : t.isScope id with
    | false =>
      rw [statements_of_not_scope hscope, List.mem_singleton] at hx
      exact ⟨hx ▸ t.self_mem_preorder id, hx ▸ hscope⟩
    | true =>
      rw [statements_of_scope hscope] at hx
      obtain ⟨y, hy, hx⟩ := List.mem_flatMap.1 hx
      obtain ⟨hmem, hnot⟩ := ih y (t.child_lt hy) hx
      exact ⟨t.mem_preorder_of_child hy hmem, hnot⟩

/-- What only stands in scopes is an item of the node that it is below, or of a procedure in
between. -/
theorem WellFormed.mem_statements_of_below {root : NodeId} (ht : t.WellFormed root)
    (hid : id ∈ t.preorder root) (hx : x ∈ t.preorder id) (hscope : t.isScope x = false)
    (hitem : ∀ y ∈ t.preorder root, x ∈ t.children y → t.isScope y = true) :
    x ∈ t.statements id
      ∨ ∃ q ∈ t.preorder id, ∃ result body, t.shape q = .procedure result body
        ∧ x ∈ t.statements body := by
  induction id using Nat.strongRecOn with
  | ind id ih =>
    rcases t.mem_preorder.1 hx with rfl | ⟨y, hy, hxy⟩
    · left
      rw [statements_of_not_scope hscope]
      exact .head _
    · rcases ih y (t.child_lt hy) (ht.child hid hy) hxy with hmem | ⟨q, hq, hproc⟩
      · cases hidscope : t.isScope id with
        | true =>
          left
          rw [statements_of_scope hidscope]
          exact List.mem_flatMap.2 ⟨y, hy, hmem⟩
        | false =>
          rcases standsAlone_child (ht.fits id hid) hidscope hy with halone | ⟨result, hshape⟩
          · -- A part of an expression is the only item of itself, and it stands in no scope.
            simp only [Shape.standsAlone, Bool.or_eq_false_iff] at halone
            rw [statements_of_not_scope halone.2] at hmem
            obtain rfl := List.mem_singleton.1 hmem
            rw [hitem id hid hy] at hidscope
            cases hidscope
          · exact .inr ⟨id, t.self_mem_preorder id, result, y, hshape, hmem⟩
      · exact .inr ⟨q, t.mem_preorder_of_child hy hq, hproc⟩

/-- Statements stand in scopes. -/
theorem WellFormed.isScope_of_isStmt {root : NodeId} (ht : t.WellFormed root)
    (hid : id ∈ t.preorder root) (hx : x ∈ t.children id) (hstmt : (t.shape x).isStmt = true) :
    t.isScope id = true := by
  cases hscope : t.isScope id with
  | true => rfl
  | false =>
    rcases standsAlone_child (ht.fits id hid) hscope hx with halone | ⟨result, hshape⟩
    · simp [Shape.standsAlone, hstmt] at halone
    · have hfits := ht.fits id hid
      simp only [Tree.fits, hshape, Bool.and_eq_true] at hfits
      cases hbody : t.shape x <;> rw [hbody] at hstmt hfits <;>
        first | (cases hstmt; done) | cases hfits.2

/-- **Every statement belongs to the root or to a procedure.** -/
theorem WellFormed.mem_statements {root : NodeId} (ht : t.WellFormed root)
    (hx : x ∈ t.preorder root) (hstmt : (t.shape x).isStmt = true) :
    x ∈ t.statements root
      ∨ ∃ q ∈ t.preorder root, ∃ result body, t.shape q = .procedure result body
        ∧ x ∈ t.statements body := by
  have hscope : t.isScope x = false := by
    unfold isScope
    cases hshape : t.shape x <;> rw [hshape] at hstmt <;> first | rfl | cases hstmt
  exact ht.mem_statements_of_below (t.self_mem_preorder root) hx hscope
    fun y hy hxy => ht.isScope_of_isStmt hy hxy hstmt

end Tree

/-! ### Pieces -/

namespace EmitsItems

variable {emits emits' : Emission} {xs ys : List NodeId} {l l₁ l' : Layout}
  {pieces pieces' : List (List CodeLine)}

theorem append (h : EmitsItems emits xs l pieces l₁) (h' : EmitsItems emits ys l₁ pieces' l') :
    EmitsItems emits (xs ++ ys) l (pieces ++ pieces') l' := by
  induction h with
  | nil => exact h'
  | cons hx _ ih => exact .cons hx (ih h')

/-- The code of two lists in a row comes apart between them. -/
theorem split (h : EmitsItems emits (xs ++ ys) l pieces l') :
    ∃ first l₁ second, EmitsItems emits xs l first l₁ ∧ EmitsItems emits ys l₁ second l'
      ∧ pieces = first ++ second := by
  induction xs generalizing l pieces with
  | nil => exact ⟨[], l, pieces, .nil, h, rfl⟩
  | cons x xs ih =>
    cases h with
    | cons hx hrest =>
      obtain ⟨first, l₁, second, hfirst, hsecond, rfl⟩ := ih hrest
      exact ⟨_, l₁, second, .cons hx hfirst, hsecond, rfl⟩

end EmitsItems

variable {c : LowerContext} {ℓ : Linkage} {id : NodeId} {l l' : Layout} {code : List CodeLine}
  {v : Option Register}

/-- **The code of a scope is that of its statements**, one after the other. -/
theorem Emits.statements (h : Emits c ℓ id l code v l') :
    ∃ pieces, EmitsItems (Emits c ℓ) (c.tree.statements id) l pieces l'
      ∧ code = pieces.flatten := by
  induction id using Nat.strongRecOn generalizing l code v l' with
  | ind id ih =>
    -- The items of a scope may be scopes themselves, whose code falls apart first.
    have items {xs : List NodeId} {l l' : Layout} {pieces : List (List CodeLine)}
        (hitems : EmitsItems (EmitsBelow c ℓ id) xs l pieces l') :
        ∃ pieces', EmitsItems (Emits c ℓ) (xs.flatMap c.tree.statements) l pieces' l'
          ∧ pieces.flatten = pieces'.flatten := by
      induction hitems with
      | nil => exact ⟨[], .nil, rfl⟩
      | cons hx _ ihrest =>
        obtain ⟨first, hfirst, rfl⟩ := ih _ hx.1 hx.2
        obtain ⟨rest, hrest, heq⟩ := ihrest
        refine ⟨first ++ rest, hfirst.append hrest, ?_⟩
        rw [List.flatten_cons, List.flatten_append, heq]
    cases hscope : c.tree.isScope id with
    | false =>
      rw [Tree.statements_of_not_scope hscope]
      exact ⟨[code], .cons h .nil, by simp⟩
    | true =>
      rw [Tree.statements_of_scope hscope]
      have hrule := (rule_iff.1 h).2
      unfold Tree.isScope at hscope
      unfold Tree.children
      generalize c.tree.shape id = shape at hrule hscope
      cases hrule <;> first | (cases hscope; done) | skip
      · next hitems => exact items hitems
      · next hitems => exact items hitems
      · next hinert => cases shape <;> first | (cases hscope; done) | cases hinert

/-! ### Code without returns -/

/-- Code without returns. -/
def Straight (code : List CodeLine) : Prop := ∀ line ∈ code, line.1.op ≠ .ret

namespace Straight

theorem nil : Straight [] := fun _ h => (by cases h)

theorem single {i : Instruction} {span : Span} (h : i.op ≠ .ret) : Straight [(i, span)] := by
  intro line hline
  obtain rfl := List.mem_singleton.1 hline
  exact h

theorem append {code code' : List CodeLine} (h : Straight code) (h' : Straight code') :
    Straight (code ++ code') :=
  fun line hline => (List.mem_append.1 hline).elim (h line) (h' line)

theorem load (l : Layout) (index : Nat) (ty : Ty) (span : Span) :
    Straight (l.load index ty span).code :=
  single (by simp)

theorem convert (l : Layout) (r : Register) (source dest : Ty) (span : Span) :
    Straight (l.convert r source dest span).code := by
  rcases l.convert_cases r source dest span with ⟨hnone, -⟩ | ⟨a, b, -, -, -, hone⟩
  · rw [hnone]
    exact nil
  · rw [hone]
    exact single (by simp)

theorem stage (l : Layout) (r : Register) (ty : Ty) (span : Span) :
    Straight (l.stage r ty span).code := by
  unfold Layout.stage
  split
  · exact single (by simp)
  · exact nil

theorem tie (l : Layout) (decl : NodeId) (ty : Ty) (r : Register) (span : Span) :
    Straight (l.tie decl ty r span).code :=
  stage l r ty span

theorem store (l : Layout) (home : Option Register) (r : Register) (ty : Ty) (span : Span) :
    Straight (l.store home r ty span).code := by
  unfold Layout.store
  split
  · exact single (by simp)
  · exact nil

theorem storeAll (c : LowerContext) (l : Layout)
    (staged : List (NodeId × NodeId × Option Register)) : Straight (l.storeAll c staged).1 := by
  induction staged generalizing l with
  | nil => exact nil
  | cons e rest ih =>
    obtain ⟨target, value, v⟩ := e
    cases v with
    | none => exact ih l
    | some r =>
      unfold Layout.storeAll
      exact ((convert _ _ _ _ _).append (store _ _ _ _ _)).append (ih _)

end Straight

/-- An expression of the tree, or a part of one. -/
def LowerContext.IsPart (c : LowerContext) (x : NodeId) : Prop :=
  x ∈ c.tree.preorder c.root ∧ (c.tree.shape x).standsAlone = false

section Rules

variable {emits : Emission}
  (hbelow : ∀ x l code v l', c.IsPart x → emits x l code v l' → Straight code)

include hbelow

theorem EmitsAs.straight {x : NodeId} {dest : Ty} {span : Span} {r : Register} (hx : c.IsPart x)
    (h : EmitsAs c emits x dest span l code r l') : Straight code := by
  cases h with
  | converted h hp =>
    subst hp
    exact (hbelow _ _ _ _ _ hx h).append (.convert _ _ _ _ _)

theorem EmitsDeclare.straight {x : NodeId} (hx : c.IsPart x)
    (h : EmitsDeclare c emits id x l code v l') : Straight code := by
  cases h with
  | missing h => exact hbelow _ _ _ _ _ hx h
  | tied h _ hp =>
    subst hp
    exact (h.straight hbelow hx).append (.tie _ _ _ _ _)

theorem EmitsInputs.straight {inputs : List NodeId} {slots : List NativeSlot}
    (hinputs : ∀ input ∈ inputs, ∀ target offset, c.tree.shape input = .slot target offset →
      c.IsPart target) (h : EmitsInputs c emits inputs l code slots l') : Straight code := by
  induction h with
  | nil => exact .nil
  | cons hslot hx _ ih =>
    have hcode := hbelow _ _ _ _ _ (hinputs _ (.head _) _ _ hslot) hx
    exact hcode.append (ih fun input hinput => hinputs input (.tail _ hinput))

theorem EmitsStages.straight {values : List NodeId} {vs : List (Option Register)}
    (hvalues : ∀ x ∈ values, c.IsPart x) (h : EmitsStages c emits values l code vs l') :
    Straight code := by
  induction h with
  | nil => exact .nil
  | missing hx _ ih =>
    have hcode := hbelow _ _ _ _ _ (hvalues _ (.head _)) hx
    exact hcode.append (ih fun x hx => hvalues x (.tail _ hx))
  | staged hx hp _ ih =>
    subst hp
    have hcode := hbelow _ _ _ _ _ (hvalues _ (.head _)) hx
    exact (hcode.append (.stage _ _ _ _)).append (ih fun x hx => hvalues x (.tail _ hx))

end Rules

/-- The children of what is neither a scope nor a procedure are parts of it. -/
theorem LowerContext.isPart_child (hc : c.Sound) {x : NodeId} (hid : id ∈ c.tree.preorder c.root)
    (hscope : c.tree.isScope id = false) (hproc : (c.tree.shape id).isProcedure = false)
    (hx : x ∈ (c.tree.shape id).children) : c.IsPart x := by
  refine ⟨hc.tree.child hid hx, ?_⟩
  rcases Tree.standsAlone_child (hc.tree.fits id hid) hscope hx with halone | ⟨result, hshape⟩
  · exact halone
  · rw [hshape] at hproc
    cases hproc

theorem LowerContext.IsPart.child (hc : c.Sound) {x : NodeId} (hid : c.IsPart id)
    (hproc : (c.tree.shape id).isProcedure = false) (hx : x ∈ (c.tree.shape id).children) :
    c.IsPart x := by
  have halone := hid.2
  simp only [Shape.standsAlone, Bool.or_eq_false_iff] at halone
  exact c.isPart_child hc hid.1 halone.2 hproc hx

/-- **The code of an expression or a declaration has no return in it.** -/
theorem Emits.straight (hc : c.Sound) (hid : c.IsPart id) (h : Emits c ℓ id l code v l') :
    Straight code := by
  refine Emits.induction (motive := fun x _ code _ _ => c.IsPart x → Straight code)
    (fun emits id ih l code v l' _ hrule hid => ?_) h hid
  -- The claim for what the node is made of.
  have hbelow : ∀ x l code v l', c.IsPart x → emits x l code v l' → Straight code :=
    fun x l code v l' hx h => (ih x l code v l' h).2 hx
  have child {x : NodeId} := hid.child hc (x := x)
  have halone := hid.2
  generalize hshape : c.tree.shape id = shape at hrule child halone
  cases hrule with
  -- A scope or a statement would stand alone, so the node is neither.
  | module | block | exprStmt | assignMissing | assign | parallel | retBare | retMissing | ret =>
    cases halone
  | inert | procedure | identOwn | identProcedure | identAbsent => exact .nil
  | constant h => exact h.straight hbelow (child rfl (by simp [Shape.children]))
  | var h => exact h.straight hbelow (child rfl (by simp [Shape.children]))
  | varFresh _ hp =>
    subst hp
    exact .tie _ _ _ _ _
  | literal _ _ hp =>
    subst hp
    exact .load _ _ _ _
  | identLiteral _ _ _ _ _ _ hp =>
    subst hp
    exact .load _ _ _ _
  | folded _ _ _ hp =>
    subst hp
    exact .load _ _ _ _
  -- The code of the operands, and then one instruction that computes.
  | binary _ _ hleft hright =>
    have hcode := hleft.straight hbelow (child rfl (by simp [Shape.children]))
    have hcode' := hright.straight hbelow (child rfl (by simp [Shape.children]))
    exact (hcode.append hcode').append (.single (by simp))
  | plus _ h => exact h.straight hbelow (child rfl (by simp [Shape.children]))
  | minus _ _ _ h =>
    exact (h.straight hbelow (child rfl (by simp [Shape.children]))).append (.single (by simp))
  | group h | castMissing h | slot h =>
    exact hbelow _ _ _ _ _ (child rfl (by simp [Shape.children])) h
  | call h _ _ =>
    exact (hbelow _ _ _ _ _ (child rfl (by simp [Shape.children])) h).append (.single (by simp))
  | cast h => exact h.straight hbelow (child rfl (by simp [Shape.children]))
  | nativeSilent h _ | native h _ _ _ =>
    refine (h.straight hbelow fun input hinput target offset hslot => ?_).append
      (.single (by simp))
    have hpart := child rfl (x := input) (by simp [Shape.children, hinput])
    exact hpart.child hc (by rw [hslot]; rfl) (by simp [hslot, Shape.children])

/-- **Only return statements leave**: the code of any other statement has no return in it. -/
theorem Emits.straight_of_not_ret (hc : c.Sound) (hid : id ∈ c.tree.preorder c.root)
    (hscope : c.tree.isScope id = false) (hret : (c.tree.shape id).isRet = false)
    (hemits : Emits c ℓ id l code v l') : Straight code := by
  -- A declaration or an expression has no return, since it does not stand alone.
  cases hstmt : (c.tree.shape id).isStmt with
  | false =>
    refine hemits.straight hc ⟨hid, ?_⟩
    simp only [Shape.standsAlone, hstmt, Bool.false_or]
    exact hscope
  -- A statement has parts that do not stand alone, and adds stores of its own.
  | true =>
    have hbelow : ∀ x l code v l', c.IsPart x → EmitsBelow c ℓ id x l code v l' → Straight code :=
      fun x l code v l' hx h => h.2.straight hc hx
    have hrule := (rule_iff.1 hemits).2
    have child {x : NodeId} := c.isPart_child (x := x) hc hid hscope
    generalize hshape : c.tree.shape id = shape at hrule child hstmt hret
    cases hrule with
    | exprStmt h | assignMissing h =>
      exact hbelow _ _ _ _ _ (child rfl (by simp [Shape.children])) h
    | assign h hp =>
      subst hp
      exact (h.straight hbelow (child rfl (by simp [Shape.children]))).append (.store _ _ _ _ _)
    | @parallel targets values _ l₁ _ vs _ _ h hp =>
      have hcode := h.straight hbelow fun x hx => child rfl (by simp [Shape.children, hx])
      have hstores := Straight.storeAll c l₁ (targets.zip (values.zip vs))
      rw [hp] at hstores
      exact hcode.append hstores
    | retBare | retMissing | ret => cases hret
    | inert hinert => cases shape <;> first | (cases hstmt; done) | cases hinert
    | module | block | procedure | constant | var | varFresh | literal | identOwn | identLiteral
    | identProcedure | identAbsent | binary | plus | folded | minus | group | call | castMissing
    | cast
    | nativeSilent | native | slot => cases hstmt

/-- Statements without a return among them have straight code. -/
theorem EmitsItems.straight (hc : c.Sound) {xs : List NodeId} {pieces : List (List CodeLine)}
    (hxs : ∀ x ∈ xs, x ∈ c.tree.preorder c.root ∧ c.tree.isScope x = false
      ∧ (c.tree.shape x).isRet = false)
    (h : EmitsItems (Emits c ℓ) xs l pieces l') : Straight pieces.flatten := by
  induction h with
  | nil => exact .nil
  | cons hx _ ih =>
    obtain ⟨hmem, hscope, hret⟩ := hxs _ (.head _)
    rw [List.flatten_cons]
    exact (hx.straight_of_not_ret hc hmem hscope hret).append
      (ih fun x hx => hxs x (.tail _ hx))

end MiddleEnd
