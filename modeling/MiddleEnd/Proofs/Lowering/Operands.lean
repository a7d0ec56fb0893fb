import MiddleEnd.Proofs.Lowering.Kinds
import MiddleEnd.Proofs.Lowering.Last
import MiddleEnd.Proofs.Lowering.Places

/-!
# Registers of operands

An operator reads the register in which its left operand has left its value.  A name leaves its
value where its declaration has it, and native code is an expression that writes the register of a
variable.  Between the two operands nothing is copied, so native code in the right one can write the
register that holds the value of the left one.

## Main definitions

* `LowerContext.ReadsHome` — the expressions whose value is in the register of a declaration.
* `LowerContext.WritesHome` — native code that writes the register of a declaration.
* `LowerContext.Overwrites` — native code in the right operand writes where the left one has its
  value.
* `LowerContext.MayWrite` — the registers that the code of an expression may write.

## Main results

* `Emits.writes` — expressions write new registers, and the homes of what their native code writes.
* `Emits.readsHome`, `LowerContext.ReadsHome.value` — whose value is in the register of a
  declaration.
* `Emits.overwrites_iff` — **the right operand writes the register of the left one exactly if native
  code in it overwrites its value**.
-/

namespace MiddleEnd

namespace LowerContext

variable (c : LowerContext)

/-- Native code whose output is the variable that `d` declares. -/
def WritesHome (y d : NodeId) : Prop :=
  ∃ source inputs output target offset, c.tree.shape y = .native source inputs (some output)
    ∧ c.tree.shape output = .slot target offset
    ∧ c.resolution.declaration? (c.tree.ungroup target) = some d

/-- The value of an expression is where the declaration `d` has its own: names and native code leave
it there, and nothing around them changes its kind. -/
inductive ReadsHome : NodeId → NodeId → Prop
  /-- A name of the declaration. -/
  | ident {x d : NodeId} {name : String} (hshape : c.tree.shape x = .ident name)
      (hdecl : c.resolution.declaration? x = some d) : ReadsHome x d
  /-- Native code that writes it. -/
  | native {x d : NodeId} (h : c.WritesHome x d) : ReadsHome x d
  /-- Parentheses. -/
  | group {x y d : NodeId} (hshape : c.tree.shape x = .group y) (h : ReadsHome y d) : ReadsHome x d
  /-- A plus that keeps the kind. -/
  | plus {x y op d : NodeId} (hshape : c.tree.shape x = .signed op y)
      (hop : c.tree.shape op = .signOp .plus) (hkind : c.kindOf y = c.kindOf x)
      (h : ReadsHome y d) : ReadsHome x d
  /-- A cast that keeps the kind. -/
  | cast {x y ty d : NodeId} (hshape : c.tree.shape x = .cast y ty)
      (hkind : c.kindOf y = c.kindOf x) (h : ReadsHome y d) : ReadsHome x d

/-- The value of `left` is in the register of a variable, and native code in `right` writes it; the
kind of `left` is that of the whole, so that no conversion takes the value elsewhere. -/
def Overwrites (id left right : NodeId) : Prop :=
  ∃ d, c.ReadsHome left d ∧ c.kindOf left = c.kindOf id ∧ ∃ y, c.Uses right y ∧ c.WritesHome y d

/-- What the code of `x` may write if it begins at the layout `l`: no register, a new one, or the
home of a variable that native code in `x` writes. -/
def MayWrite (x : NodeId) (l : Layout) (out : Register) : Prop :=
  out = .none ∨ l.next ≤ out
    ∨ ∃ y d, c.Uses x y ∧ c.WritesHome y d ∧ l.registers[d]? = some out

end LowerContext

open Layout

variable {c : LowerContext} {ℓ : Linkage} {id x y d : NodeId} {l l₁ l' : Layout}
  {code : List CodeLine} {v : Option Register} {r out : Register}

/-! ### What is written -/

namespace LowerContext.MayWrite

theorem fresh (h : l.next ≤ out) : c.MayWrite x l out := .inr (.inl h)

/-- What may be written later may be written. -/
theorem mono (h : c.MayWrite x l₁ out) (hl : Computes l l₁) : c.MayWrite x l out := by
  rcases h with hnone | hfresh | ⟨y, d, huses, hwrites, hr⟩
  · exact .inl hnone
  · exact .fresh (Nat.le_trans hl.next_le hfresh)
  · exact .inr (.inr ⟨y, d, huses, hwrites, hl.registers ▸ hr⟩)

/-- What an operand writes is written by the whole, also after other operands. -/
theorem of_operand (h : c.MayWrite x l₁ out) (hx : c.IsOperand id x) (hl : Computes l l₁) :
    c.MayWrite id l out := by
  rcases h.mono hl with hnone | hfresh | ⟨y, d, huses, hwrites, hr⟩
  · exact .inl hnone
  · exact .fresh hfresh
  · exact .inr (.inr ⟨y, d, .head hx huses, hwrites, hr⟩)

/-- Registers that have been given out to no declaration are left alone. -/
theorem ne_of_free (h : c.MayWrite x l out) (hl : l.Ordered) (hr : l.Given r)
    (hfree : l.bound.contains r = false) : out ≠ r := by
  rcases h with hnone | hfresh | ⟨y, d, -, -, hd⟩
  · exact fun heq => Nat.ne_of_gt hr.1 (heq.symm.trans hnone)
  · exact fun heq => Nat.not_lt.2 (heq ▸ hfresh) hr.2
  · intro heq
    rw [← heq, hl.bound d out hd] at hfree
    cases hfree

end LowerContext.MayWrite

/-- What the code of an expression writes. -/
def WritesNode (c : LowerContext) : Emission := fun x l code _ _ =>
  l.Ordered → ∀ line ∈ code, c.MayWrite x l line.1.out

section

variable {emits : Emission}

/-- The code of an operand and the conversion after it. -/
theorem EmitsAs.writes {dest : Ty} {span : Span}
    (hx : ∀ l code v l', emits x l code v l' → WritesNode c x l code v l'
      ∧ ComputesNode x l code v l')
    (h : EmitsAs c emits x dest span l code r l') (hl : l.Ordered) :
    ∀ line ∈ code, c.MayWrite x l line.1.out := by
  cases h with
  | @converted code r l₁ _ h hp =>
    subst hp
    obtain ⟨hwrites, hcomputes⟩ := hx _ _ _ _ h
    intro line hline
    rcases List.mem_append.1 hline with hline | hline
    · exact hwrites hl line hline
    · exact .fresh ((out_of_convert rfl hline).1 ▸ (hcomputes hl).1.next_le)

/-- The code of the values of a parallel assignment writes what that of one of them may write. -/
theorem EmitsStages.writes {values : List NodeId} {vs : List (Option Register)}
    (hxs : ∀ x ∈ values, ∀ l code v l', emits x l code v l' →
      WritesNode c x l code v l' ∧ ComputesNode x l code v l')
    (h : EmitsStages c emits values l code vs l') (hl : l.Ordered) :
    ∀ line ∈ code, ∃ x ∈ values, c.MayWrite x l line.1.out := by
  -- Homes stay as they are while the values are computed, so later code may write no others.
  induction h with
  | nil => exact fun line hline => by cases hline
  | @missing x xs l l₁ _ _ rest _ hx _ ih =>
    obtain ⟨hwrites, hcomputes⟩ := hxs _ (.head _) _ _ _ _ hx
    obtain ⟨hcode, -⟩ := hcomputes hl
    have hrest := ih (fun x hx => hxs x (.tail _ hx)) hcode.ordered
    refine List.forall_mem_append.2 ⟨fun line hline => ⟨x, .head _, hwrites hl line hline⟩,
      fun line hline => ?_⟩
    obtain ⟨y, hy, hrest⟩ := hrest line hline
    exact ⟨y, .tail _ hy, hrest.mono hcode⟩
  | @staged x xs l l₁ _ _ rest r _ _ hx hp _ ih =>
    subst hp
    obtain ⟨hwrites, hcomputes⟩ := hxs _ (.head _) _ _ _ _ hx
    obtain ⟨hcode, hvalue⟩ := hcomputes hl
    obtain ⟨hstage, -⟩ := hcode.stage (hvalue r rfl) (c.typeOf x) (c.span x)
    have hrest := ih (fun x hx => hxs x (.tail _ hx)) hstage.ordered
    refine List.forall_mem_append.2 ⟨List.forall_mem_append.2
      ⟨fun line hline => ⟨x, .head _, hwrites hl line hline⟩, fun line hline => ⟨x, .head _, ?_⟩⟩,
      fun line hline => ?_⟩
    · -- The copy of a value that is a home is in a new register.
      unfold stage at hline
      split at hline
      · obtain rfl := List.mem_singleton.1 hline
        exact .fresh hcode.next_le
      · cases hline
    · obtain ⟨y, hy, hrest⟩ := hrest line hline
      exact ⟨y, .tail _ hy, hrest.mono hstage⟩

/-- A name writes no register, or a new one if it stands for a literal. -/
theorem Emits.writes_ident {name : String} (hshape : c.tree.shape x = .ident name)
    (h : Emits c ℓ x l code v l') : ∀ line ∈ code, line.1.out = l.next := by
  have hrule := (rule_iff.1 h).2
  rw [hshape] at hrule
  cases hrule with
  | inert hinert => cases hinert
  | identOwn | identProcedure | identAbsent => exact fun line hline => (by cases hline)
  | identLiteral _ _ _ _ _ _ hp =>
    subst hp
    intro line hline
    obtain rfl := List.mem_singleton.1 hline
    rfl

/-- The inputs of native code are names, which write new registers only. -/
theorem EmitsInputs.writes {inputs : List NodeId} {slots : List NativeSlot}
    (hinputs : ∀ input ∈ inputs, ∀ target offset, c.tree.shape input = .slot target offset →
      ∀ l code v l', emits target l code v l' →
        (∀ line ∈ code, line.1.out = l.next) ∧ ComputesNode target l code v l')
    (h : EmitsInputs c emits inputs l code slots l') (hl : l.Ordered) :
    ∀ line ∈ code, l.next ≤ line.1.out := by
  induction h with
  | nil => exact fun line hline => (by cases hline)
  | cons hslot hx _ ih =>
    obtain ⟨hfresh, hcomputes⟩ := hinputs _ (.head _) _ _ hslot _ _ _ _ hx
    obtain ⟨hcode, -⟩ := hcomputes hl
    have hrest := ih (fun input hinput => hinputs input (.tail _ hinput)) hcode.ordered
    intro line hline
    rcases List.mem_append.1 hline with hline | hline
    · exact Nat.le_of_eq (hfresh line hline).symm
    · exact Nat.le_trans hcode.next_le (hrest line hline)

end

/-- **Expressions write new registers**, and the homes of the variables that their native code
writes. -/
theorem Emits.writes (hc : c.Sound) (hid : id ∈ c.tree.preorder c.root)
    (hexpr : (c.tree.shape id).isExpr = true) (h : Emits c ℓ id l code v l') :
    WritesNode c id l code v l' := by
  have ht := hc.tree
  refine Emits.expr_induction ht hid (motive := WritesNode c)
    (fun emits id hid hexpr ih l code v l' hrule => ?_) hexpr h
  -- The nodes below are expressions or names.
  have below (x l code v l') (h : emits x l code v l') :
      WritesNode c x l code v l' ∧ ComputesNode x l code v l' :=
    have ⟨hmem, hexpr, hemits, hwrites⟩ := ih x l code v l' h
    ⟨hwrites, hemits.computes ht hmem hexpr⟩
  have computes (x l code v l') (h : emits x l code v l') := (below x l code v l' h).2
  have slot {x : NodeId} (hchild : x ∈ (c.tree.shape id).children) (target : NodeId) (offset : Nat)
      (hslot : c.tree.shape x = .slot target offset) (l code v l') (h : emits target l code v l') :
      (∀ line ∈ code, line.1.out = l.next) ∧ ComputesNode target l code v l' := by
    obtain ⟨-, name, hname⟩ := ht.slot_ident (ht.child hid hchild) hslot
    obtain ⟨-, -, hemits, -⟩ := ih target l code v l' h
    exact ⟨hemits.writes_ident hname, computes target l code v l' h⟩
  clear ih
  generalize hshape : c.tree.shape id = shape at hrule hexpr slot
  intro hl
  -- What the code of an operand may write, that of the whole may write as well.
  have operand {x : NodeId} {code : List CodeLine} (hx : c.IsOperand id x)
      (h : ∀ line ∈ code, c.MayWrite x l line.1.out) : ∀ line ∈ code, c.MayWrite id l line.1.out :=
    fun line hline => (h line hline).of_operand hx (.refl hl)
  have fresh {l₁ : Layout} {i : Instruction} {span : Span} (hle : l.next ≤ l₁.next)
      (hout : i.out = l₁.next) : ∀ line ∈ [(i, span)], c.MayWrite id l line.1.out := by
    intro line hline
    obtain rfl := List.mem_singleton.1 hline
    exact .fresh (hout ▸ hle)
  cases hrule with
  | module | block | constant | var | varFresh | exprStmt | assignMissing | assign | parallel
  | retBare | retMissing | ret | slot => cases hexpr
  | inert | procedure | identProcedure | identAbsent | identOwn =>
    exact fun line hline => (by cases hline)
  | literal _ _ hp | identLiteral _ _ _ _ _ _ hp | folded _ _ _ hp =>
    subst hp
    exact fresh (Nat.le_refl _) rfl
  -- The left operand gives no homes, so the right one finds those from before.
  | binary _ _ hleft hright =>
    obtain ⟨hcode₁, -⟩ := hleft.computes (computes _) hl
    obtain ⟨hcode₂, -⟩ := hright.computes (computes _) hcode₁.ordered
    have hright := hright.writes (below _) hcode₁.ordered
    refine List.forall_mem_append.2 ⟨List.forall_mem_append.2 ⟨?_, fun line hline => ?_⟩, ?_⟩
    · exact operand (by simp [LowerContext.IsOperand, hshape]) (hleft.writes (below _) hl)
    · exact (hright line hline).of_operand (by simp [LowerContext.IsOperand, hshape]) hcode₁
    · exact fresh (hcode₁.trans hcode₂).next_le rfl
  | plus hop h =>
    refine operand ?_ (h.writes (below _) hl)
    simp [LowerContext.IsOperand, hshape, LowerContext.Folds, hop]
  | minus _ hword _ h =>
    obtain ⟨hcode, -⟩ := h.computes (computes _) hl
    refine List.forall_mem_append.2 ⟨operand ?_ (h.writes (below _) hl), fresh hcode.next_le rfl⟩
    simp [LowerContext.IsOperand, hshape, LowerContext.Folds, hword]
  | group h | castMissing h =>
    exact operand (by simp [LowerContext.IsOperand, hshape]) ((below _ _ _ _ _ h).1 hl)
  | call h =>
    obtain ⟨hwrites, hcomputes⟩ := below _ _ _ _ _ h
    refine List.forall_mem_append.2 ⟨?_, fresh (hcomputes hl).1.next_le rfl⟩
    exact operand (by simp [LowerContext.IsOperand, hshape]) (hwrites hl)
  | cast h => exact operand (by simp [LowerContext.IsOperand, hshape]) (h.writes (below _) hl)
  | nativeSilent h =>
    have hinputs := h.writes (fun x hx => slot (by simp [Shape.children, hx])) hl
    refine List.forall_mem_append.2 ⟨fun line hline => .fresh (hinputs line hline), ?_⟩
    intro line hline
    obtain rfl := List.mem_singleton.1 hline
    exact .inl rfl
  | native h hslot hhome =>
    have hinputs := h.writes (fun x hx => slot (by simp [Shape.children, hx])) hl
    have hcode := h.computes (fun _ _ target _ _ => computes target) hl
    refine List.forall_mem_append.2 ⟨fun line hline => .fresh (hinputs line hline), ?_⟩
    intro line hline
    obtain rfl := List.mem_singleton.1 hline
    -- The home of the output is the same as before the inputs.
    obtain ⟨d, hdecl, hr⟩ := Option.bind_eq_some_iff.1 hhome
    refine .inr (.inr ⟨id, d, .refl, ⟨_, _, _, _, _, hshape, hslot, hdecl⟩, ?_⟩)
    rw [← hcode.registers]
    exact hr

/-! ### Where values are -/

/-- A value is converted to a new register, or it stays where it is. -/
theorem Layout.convert_value (l : Layout) (r : Register) (source dest : Ty) (span : Span) :
    (l.convert r source dest span).value = l.next
      ∨ (l.convert r source dest span).value = r
        ∧ (source.hasKind = dest.hasKind → Kind.ofTy? source = Kind.ofTy? dest) := by
  rcases l.convert_cases r source dest span with ⟨hnone, hsame⟩ | ⟨a, b, -, -, -, hone⟩
  · exact .inr ⟨by rw [hnone], fun hkind => Ty.kind_eq_of_hasKind hkind hsame⟩
  · exact .inl (by rw [hone])

theorem Layout.convert_same (l : Layout) (r : Register) {source dest : Ty} (span : Span)
    (h : Kind.ofTy? source = Kind.ofTy? dest) : l.convert r source dest span = ⟨[], r, l⟩ := by
  rcases l.convert_cases r source dest span with ⟨hnone, -⟩ | ⟨a, b, ha, hb, hab, -⟩
  · exact hnone
  · rw [h, hb] at ha
    exact (hab (Option.some.inj ha).symm).elim

/-- The next register belongs to no declaration. -/
theorem Layout.Ordered.next_ne_home (hl : l.Ordered) (hr : l.registers[d]? = some r) : l.next ≠ r :=
  Nat.ne_of_gt (hl.given_home hr).2

section

variable {emits : Emission}

/-- A value of the right kind already is not converted: the code is that of the operand. -/
theorem EmitsAs.of_same {dest : Ty} {span : Span} (hsame : c.kindOf x = Kind.ofTy? dest)
    (h : EmitsAs c emits x dest span l code r l') : emits x l code (some r) l' := by
  cases h with
  | converted h hp =>
    subst hp
    rw [Layout.convert_same _ _ _ hsame, List.append_nil]
    exact h

/-- An operand is in the register of a declaration only if it is one whose value stays there. -/
theorem EmitsAs.readsHome {dest : Ty} {span : Span}
    (hx : ∀ l code v l', emits x l code v l' → ComputesNode x l code v l'
      ∧ (l.Ordered → ∀ r, v = some r → l.registers[d]? = some r → c.ReadsHome x d))
    (hkind : (c.typeOf x).hasKind = dest.hasKind) (h : EmitsAs c emits x dest span l code r l')
    (hl : l.Ordered) (hr : l.registers[d]? = some r) :
    c.ReadsHome x d ∧ c.kindOf x = Kind.ofTy? dest := by
  cases h with
  | @converted code r l₁ _ h hp =>
    subst hp
    obtain ⟨hcomputes, hhome⟩ := hx _ _ _ _ h
    obtain ⟨hcode, -⟩ := hcomputes hl
    rcases l₁.convert_value r (c.typeOf x) dest span with hnew | ⟨hsame, hkinds⟩
    · exact (hcode.ordered.next_ne_home (hcode.registers ▸ hr) hnew.symm).elim
    · exact ⟨hhome hl r rfl (hsame ▸ hr), hkinds hkind⟩

end

/-- Only what leaves its value there has it in the register of a declaration. -/
theorem Emits.readsHome (hc : c.Sound) (hid : id ∈ c.tree.preorder c.root)
    (hexpr : (c.tree.shape id).isExpr = true) (h : Emits c ℓ id l code v l') (hl : l.Ordered)
    (hv : v = some r) (hr : l.registers[d]? = some r) : c.ReadsHome id d := by
  refine Emits.expr_induction hc.tree hid
    (motive := fun id l _ v _ => l.Ordered → ∀ r, v = some r → l.registers[d]? = some r →
    c.ReadsHome id d) (fun emits id hid hexpr ih l code v l' hrule => ?_) hexpr h hl r hv hr
  have below (x l code v l') (h : emits x l code v l') :
      ComputesNode x l code v l'
        ∧ (l.Ordered → ∀ r, v = some r → l.registers[d]? = some r → c.ReadsHome x d) :=
    have ⟨hmem, hexpr, hemits, hreads⟩ := ih x l code v l' h
    ⟨hemits.computes hc.tree hmem hexpr, hreads⟩
  have computes (x l code v l') (h : emits x l code v l') := (below x l code v l' h).1
  clear ih
  generalize hshape : c.tree.shape id = shape at hrule hexpr
  intro hl r hv hr
  -- What has been computed is in a new register.
  have computed {l₁ : Layout} (hcode : Computes l l₁) (hv : some l₁.next = some r) :
      c.ReadsHome id d := by
    obtain rfl := Option.some.inj hv
    exact (hcode.ordered.next_ne_home (hcode.registers ▸ hr) rfl).elim
  cases hrule with
  -- A statement is not an expression.
  | module | block | constant | var | varFresh | exprStmt | assignMissing | assign | parallel
  | retBare | retMissing | ret | slot => cases hexpr
  -- What has no code leaves no value.
  | inert | procedure | identProcedure | identAbsent | castMissing | nativeSilent => cases hv
  | literal _ _ hp | identLiteral _ _ _ _ _ _ hp | folded _ _ _ hp =>
    subst hp
    exact computed (.refl hl) hv
  -- Two declarations never share a register, so it is the one that the name stands for.
  | identOwn hdecl _ hown =>
    obtain rfl := Option.some.inj hv
    obtain rfl := hl.injective _ _ _ hown hr
    exact .ident hshape hdecl
  | binary _ _ hleft hright =>
    obtain ⟨hcode₁, -⟩ := hleft.computes (computes _) hl
    obtain ⟨hcode₂, -⟩ := hright.computes (computes _) hcode₁.ordered
    exact computed (hcode₁.trans hcode₂) hv
  -- A plus sign leaves the value of its operand as it is.
  | plus hop h =>
    obtain rfl := Option.some.inj hv
    obtain ⟨hkx, hkid⟩ := hc.hasKind_signed hid hshape
    obtain ⟨hhome, hkind⟩ := h.readsHome (below _) (hkx.trans hkid.symm) hl hr
    exact .plus hshape hop hkind hhome
  | minus _ _ _ h =>
    obtain ⟨hcode, -⟩ := h.computes (computes _) hl
    exact computed hcode hv
  | group h => exact .group hshape ((below _ _ _ _ _ h).2 hl r hv hr)
  | call h =>
    obtain ⟨hcode, -⟩ := computes _ _ _ _ _ h hl
    exact computed hcode hv
  | cast h =>
    obtain rfl := Option.some.inj hv
    obtain ⟨hhome, hkind⟩ := h.readsHome (below _) (hc.hasKind_cast hid hshape) hl hr
    exact .cast hshape hkind hhome
  | native h hslot hhome =>
    obtain rfl := Option.some.inj hv
    have hcode := h.computes (fun _ _ target _ _ => computes target) hl
    -- The output is the register of its target.
    obtain ⟨d', hdecl, hown⟩ := Option.bind_eq_some_iff.1 hhome
    obtain rfl := hcode.ordered.injective _ _ _ hown (hcode.registers ▸ hr)
    exact .native ⟨_, _, _, _, _, hshape, hslot, hdecl⟩

/-- What leaves its value in the register of a declaration is lowered to that register. -/
theorem LowerContext.ReadsHome.value (h : c.ReadsHome id d) (hc : c.Sound)
    (hid : id ∈ c.tree.preorder c.root) (hexpr : (c.tree.shape id).isExpr = true)
    (hkind : (c.kindOf id).isSome = true) (hemits : Emits c ℓ id l code v l') (hl : l.Ordered)
    (hr : l.registers[d]? = some r) : v = some r := by
  induction h generalizing l code v l' with
  | @ident x d name hshape hdecl =>
    have hrule := (Emits.rule_iff.1 hemits).2
    rw [hshape] at hrule
    cases hrule with
    | inert hinert => cases hinert
    | identOwn hdecl' _ hown =>
      obtain rfl := Option.some.inj (hdecl.symm.trans hdecl')
      exact hown.symm.trans hr
    | identLiteral hdecl' _ hnone | identAbsent hdecl' _ hnone =>
      obtain rfl := Option.some.inj (hdecl.symm.trans hdecl')
      rw [hr] at hnone
      cases hnone
    | identProcedure hdecl' hty =>
      -- A procedure has no kind.
      rw [LowerContext.kindOf, hc.typeOf_ident hid hshape hdecl', hty] at hkind
      cases hkind
  | @native x d h =>
    obtain ⟨source, inputs, output, target, offset, hshape, hslot, hdecl⟩ := h
    have hrule := hemits.expr_rule hc.tree hid hexpr
    rw [hshape] at hrule
    cases hrule with
    | inert hinert => cases hinert
    -- The same target has the same register after the inputs.
    | native h hslot' hhome =>
      rw [hslot] at hslot'
      cases hslot'
      have hcode := h.computes
        (fun _ _ _ _ _ _ _ _ _ hx => hx.2.2.computes hc.tree hx.1 hx.2.1) hl
      rw [Layout.home, hdecl, Option.bind_some, hcode.registers, hr] at hhome
      exact hhome.symm
  | group hshape _ ih =>
    rw [LowerContext.kindOf, hc.typeOf_group hid hshape] at hkind
    have hrule := hemits.expr_rule hc.tree hid hexpr
    rw [hshape] at hrule
    cases hrule with
    | inert hinert => cases hinert
    | group h =>
      obtain ⟨hmem, hexpr, h⟩ := h
      exact ih hmem hexpr hkind h hl hr
  -- Neither a plus sign nor a cast between types of one kind converts anything.
  | plus hshape hop hsame _ ih =>
    have hrule := hemits.expr_rule hc.tree hid hexpr
    rw [hshape] at hrule
    cases hrule with
    | inert hinert => cases hinert
    | folded hop' | minus hop' =>
      rw [hop] at hop'
      cases hop'
    | plus _ h =>
      obtain ⟨hmem, hexpr, h⟩ := h.of_same hsame
      exact ih hmem hexpr (hsame ▸ hkind) h hl hr
  | cast hshape hsame _ ih =>
    have hrule := hemits.expr_rule hc.tree hid hexpr
    rw [hshape] at hrule
    cases hrule with
    | inert hinert => cases hinert
    | castMissing h =>
      obtain ⟨hmem, hexpr, h⟩ := h
      exact ih hmem hexpr (hsame ▸ hkind) h hl hr
    | cast h =>
      obtain ⟨hmem, hexpr, h⟩ := h.of_same hsame
      exact ih hmem hexpr (hsame ▸ hkind) h hl hr

/-! ### Operands of an operator -/

/-- Native code that is part of an expression writes the home of its output there. -/
theorem Emits.writes_home (hc : c.Sound) (hid : id ∈ c.tree.preorder c.root)
    (hexpr : (c.tree.shape id).isExpr = true) (h : Emits c ℓ id l code v l') (hl : l.Ordered)
    (huses : c.Uses id y) (hwrites : c.WritesHome y d) :
    ∃ r, l.registers[d]? = some r ∧ ∃ line ∈ code, line.1.out = r := by
  obtain ⟨source, inputs, output, target, offset, hshape, hslot, hdecl⟩ := hwrites
  obtain ⟨l₁, part, u, l₂, hy, hpart, -, hkeeps⟩ := h.uses huses
  have hrule := (rule_iff.1 hy).2
  rw [hshape] at hrule
  cases hrule with
  | inert hinert => cases hinert
  | @native _ _ _ _ _ _ _ r _ l₃ _ hinputs hslot' hhome =>
    rw [hslot] at hslot'
    cases hslot'
    rw [Layout.home, hdecl, Option.bind_some] at hhome
    -- The expression gives no homes, so the one that is written was there before it.
    obtain ⟨hcode, -⟩ := h.computes hc.tree hid hexpr hl
    exact ⟨r, hcode.registers ▸ hkeeps d r hhome, _,
      hpart.subset (List.mem_append_right _ (List.mem_singleton_self _)), rfl⟩

section

variable {left op right : NodeId} {span span' : Span} {code₁ code₂ : List CodeLine}
  {a b : Register} {l₂ : Layout}

/-- **The right operand writes the register of the left one exactly if native code in it overwrites
the value there.** -/
theorem Emits.overwrites_iff (hc : c.Sound) (hid : id ∈ c.tree.preorder c.root)
    (hshape : c.tree.shape id = .binary left op right)
    (hleft : EmitsAs c (Emits c ℓ) left (c.typeOf id) span l code₁ a l₁)
    (hright : EmitsAs c (Emits c ℓ) right (c.typeOf id) span' l₁ code₂ b l₂) (hl : l.Ordered) :
    (∃ line ∈ code₂, line.1.out = a) ↔ c.Overwrites id left right := by
  have hfits := hc.tree.fits id hid
  simp only [Tree.fits, hshape, Bool.and_eq_true] at hfits
  obtain ⟨⟨hexpr, -⟩, hexpr'⟩ := hfits
  have hmem :=
    hc.tree.child hid (x := left) (by simp [Tree.children_of_shape hshape, Shape.children])
  have hmem' :=
    hc.tree.child hid (x := right) (by simp [Tree.children_of_shape hshape, Shape.children])
  obtain ⟨hcode, -⟩ := hleft.computes (fun _ _ _ _ h => h.computes hc.tree hmem hexpr) hl
  constructor
  · rintro ⟨line, hline, rfl⟩
    obtain ⟨hpos, hlt⟩ := (hleft.ordered (fun _ _ _ _ _ h => h.ordered) hl).2
    have hwrites := hright.writes (fun _ _ _ _ h =>
      ⟨h.writes hc hmem' hexpr', h.computes hc.tree hmem' hexpr'⟩) hcode.ordered line hline
    rcases hwrites with hnone | hfresh | ⟨y, d, huses, hwrites, hr⟩
    · exact (Nat.ne_of_gt hpos hnone).elim
    · exact (Nat.not_lt.2 hfresh hlt).elim
    · have hkind := (hc.hasKind_binary hid hshape).1.trans (hc.hasKind_operator hid hshape).symm
      obtain ⟨hreads, hsame⟩ := hleft.readsHome (fun _ _ _ _ h => ⟨h.computes hc.tree hmem hexpr,
        fun hl r hv hr => h.readsHome hc hmem hexpr hl hv hr⟩) hkind hl (hcode.registers ▸ hr)
      exact ⟨d, hreads, hsame, y, huses, hwrites⟩
  · rintro ⟨d, hreads, hsame, y, huses, hwrites⟩
    cases hright with
    | converted hright hp =>
      subst hp
      obtain ⟨r, hr, line, hline, hout⟩ :=
        hright.writes_home hc hmem' hexpr' hcode.ordered huses hwrites
      refine ⟨line, List.mem_append_left _ hline, hout.trans ?_⟩
      -- Neither is the value converted, nor does it leave the home that is written.
      have hkind : (c.kindOf left).isSome = true := (hc.hasKind_binary hid hshape).1
      have hvalue :=
        hreads.value hc hmem hexpr hkind (hleft.of_same hsame) hl (hcode.registers ▸ hr)
      exact (Option.some.inj hvalue).symm

end

end MiddleEnd
