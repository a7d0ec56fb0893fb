import MiddleEnd.Proofs.Evaluation.Programs
import MiddleEnd.Proofs.Lowering.Operands
import MiddleEnd.Proofs.Typing.Families

/-!
# What lines of code are for

Every line of a procedure was emitted for one node of the tree, and the rule that emitted it is
known: a conversion coerces one value to one type, a copy to the register of a variable is a store
to it.  What holds of all lines is read off from the cases here, and no proof of it goes through the
rules again.

## Main definitions

* `LowerContext.Coerces` — where the value of a node is converted to a type.
* `EvaluatedAt` — the code of a node ends at a position, with its value in a register.
* `DeclaresAt`, `StoresAt`, `NativeAt` — the code of a declaration, of a store, and of native code
  with an output.
* `Origin` — what a line is for, one case per kind of instruction.
* `Traced` — code in which every line has its origin.

## Main results

* `Traced.trans`, `Traced.tie` — pieces of code that are put together, and declarations.
* `Emits.traced` — **every line of the code of a node has its origin**.
* `LowerContext.Coerces.admits` — what typing allows of what is coerced.
-/

namespace MiddleEnd

/-- Whether the node is a cast. -/
def Shape.isCast : Shape → Bool
  | .cast _ _ => true
  | _ => false

/-- A tree without casts. -/
def Tree.CastFree (t : Tree) (root : NodeId) : Prop :=
  ∀ x ∈ t.preorder root, (t.shape x).isCast = false

instance (t : Tree) (root : NodeId) : Decidable (t.CastFree root) :=
  inferInstanceAs (Decidable (∀ x ∈ t.preorder root, (t.shape x).isCast = false))

/-- The value of `x` is converted to the type `τ`: it is an operand of `id`, the initial value that
`id` declares, stored by it, or returned. -/
inductive LowerContext.Coerces (c : LowerContext) (id : NodeId) : NodeId → Ty → Prop
  /-- The left operand of an arithmetic expression. -/
  | left {left op right : NodeId} (hshape : c.tree.shape id = .binary left op right) :
      Coerces c id left (c.typeOf id)
  /-- The right operand of an arithmetic expression. -/
  | right {left op right : NodeId} (hshape : c.tree.shape id = .binary left op right) :
      Coerces c id right (c.typeOf id)
  /-- The operand of a signed expression. -/
  | sign {op x : NodeId} (hshape : c.tree.shape id = .signed op x) : Coerces c id x (c.typeOf id)
  /-- The operand of a cast. -/
  | cast {x y : NodeId} (hshape : c.tree.shape id = .cast x y) : Coerces c id x (c.typeOf id)
  /-- The definition of a constant. -/
  | constant {name : String} {x : NodeId} (hshape : c.tree.shape id = .constant name x) :
      Coerces c id x (c.typeOf id)
  /-- The initial value of a variable. -/
  | var {name : String} {ty : Option NodeId} {x : NodeId}
      (hshape : c.tree.shape id = .var name ty (some x)) : Coerces c id x (c.typeOf id)
  /-- The value that is stored. -/
  | assign {target value : NodeId} (hshape : c.tree.shape id = .assign target value) :
      Coerces c id value (c.typeOf target)
  /-- The value that is stored in the target at the same place. -/
  | parallel {targets values : List NodeId} {target value : NodeId}
      (hshape : c.tree.shape id = .parallel targets values)
      (hpair : (target, value) ∈ targets.zip values) : Coerces c id value (c.typeOf target)
  /-- The value that is returned from a procedure with a declared result. -/
  | ret {x : NodeId} {τ : Ty} (hshape : c.tree.shape id = .ret (some x))
      (hresult : c.resultTy? id = some τ) : Coerces c id x τ

section

variable (c : LowerContext) (ℓ : Linkage) (p : Procedure)

/-- The code of `x` ends at a position of `p`, with its value in a register; the layout there is
`l`. -/
inductive EvaluatedAt (x : NodeId) : Nat → Register → Layout → Prop
  /-- The code of the node is that of the procedure up to the position. -/
  | code {start : Nat} {l₀ l : Layout} {code : List CodeLine} {r : Register} (hl : l₀.Ordered)
      (h : Emits c ℓ x l₀ code (some r) l) (hcode : p.Has start code) :
      EvaluatedAt x (start + code.length) r l

/-- The position `n` is in the code of the declaration `d`, which ends with its value in `r`. -/
inductive DeclaresAt (d : NodeId) (r : Register) (n : Nat) : Prop
  /-- The code of the declaration begins at or before the position and ends after it. -/
  | code {start : Nat} {l₀ l : Layout} {code : List CodeLine} (h : Emits c ℓ d l₀ code (some r) l)
      (hcode : p.Has start code) (hle : start ≤ n) (hlt : n < start + code.length) :
      DeclaresAt d r n

/-- The position `n` is in the code with which the statement `id` stores the value of `value` in the
variable `target`: the conversion, if there is one, and the copy.  It comes after the evaluation of
the value, and in a parallel assignment after that of all values and after the stores before it. -/
inductive StoresAt (id target value : NodeId) (n : Nat) : Prop
  /-- The store of a plain assignment. -/
  | assign {start : Nat} {l₀ l : Layout} {code : List CodeLine} {r : Register} {q s : Piece}
      (hshape : c.tree.shape id = .assign target value) (h : Emits c ℓ value l₀ code (some r) l)
      (hq : q = l.convert r (c.typeOf value) (c.typeOf target) (c.span value))
      (hs : s = q.layout.store (q.layout.home c target) q.value (c.typeOf target) (c.span id))
      (hcode : p.Has start (code ++ (q.code ++ s.code))) (hle : start + code.length ≤ n)
      (hlt : n < start + (code ++ (q.code ++ s.code)).length) : StoresAt id target value n
  /-- A store of a parallel assignment, after those to the targets before it. -/
  | parallel {start : Nat} {l₀ l : Layout} {code : List CodeLine} {vs : List (Option Register)}
      {targets values : List NodeId} {first rest : List (NodeId × NodeId × Option Register)}
      {r : Register} {q s : Piece} (hshape : c.tree.shape id = .parallel targets values)
      (h : EmitsStages c (Emits c ℓ) values l₀ code vs l)
      (hstaged : targets.zip (values.zip vs) = first ++ (target, value, some r) :: rest)
      (hq : q = (l.storeAll c first).2.convert r (c.typeOf value) (c.typeOf target) (c.span target))
      (hs : s = q.layout.store (q.layout.home c target) q.value (c.typeOf target) (c.span target))
      (hcode : p.Has start (code ++ (l.storeAll c first).1 ++ (q.code ++ s.code)))
      (hle : start + (code ++ (l.storeAll c first).1).length ≤ n)
      (hlt : n < start + (code ++ (l.storeAll c first).1 ++ (q.code ++ s.code)).length) :
      StoresAt id target value n

/-- The call of the native code `id`, whose output is the variable that `d` declares. -/
inductive NativeAt (id d : NodeId) : Nat → Prop
  /-- The call follows the code of the inputs. -/
  | code {start : Nat} {l₀ l : Layout} {code : List CodeLine} {source : String}
      {inputs : List NodeId} {output target : NodeId} {offset index : Nat} {slots : List NativeSlot}
      {r : Register} (hshape : c.tree.shape id = .native source inputs (some output))
      (hslot : c.tree.shape output = .slot target offset)
      (hdecl : c.resolution.declaration? (c.tree.ungroup target) = some d)
      (h : EmitsInputs c (Emits c ℓ) inputs l₀ code slots l)
      (hcode : p.Has start (code ++ [(⟨.callNative, r, .native index, .none⟩, c.span id)])) :
      NativeAt id d (start + code.length)

/-- What the line at position `n` of `p` is for, where the layout is `l`. -/
inductive Origin (n : Nat) (l : Layout) : Instruction → Prop
  /-- A value that has just been computed is converted to what it is used as. -/
  | convert {id x : NodeId} {τ : Ty} {a b : Kind} {r : Register}
      (hid : id ∈ c.tree.preorder c.root) (h : c.Coerces id x τ) (hx : EvaluatedAt c ℓ p x n r l)
      (ha : c.kindOf x = some a) (hb : Kind.ofTy? τ = some b) :
      Origin n l ⟨.convert a b, l.next, .register r, .none⟩
  /-- A staged value is converted, after others have been stored. -/
  | convertStaged {id target value : NodeId} {targets values : List NodeId} {a b : Kind}
      {r : Register} (hid : id ∈ c.tree.preorder c.root)
      (hshape : c.tree.shape id = .parallel targets values)
      (hpair : (target, value) ∈ targets.zip values) (ha : c.kindOf value = some a)
      (hb : c.kindOf target = some b) : Origin n l ⟨.convert a b, l.next, .register r, .none⟩
  /-- Something else is computed, in a register that has just been given out. -/
  | compute {i : Instruction} (hout : i.out = l.next) (hop : ∀ a b, i.op ≠ .convert a b) :
      Origin n l i
  /-- A value is copied to the home of what is assigned. -/
  | store {id target value d : NodeId} {r home : Register} (hid : id ∈ c.tree.preorder c.root)
      (h : StoresAt c ℓ p id target value n)
      (hdecl : c.resolution.declaration? (c.tree.ungroup target) = some d)
      (hhome : l.registers[d]? = some home) : Origin n l ⟨.copy, home, .register r, .none⟩
  /-- Native code writes the home of its output. -/
  | native {id d : NodeId} {home : Register} {index : Nat} (hid : id ∈ c.tree.preorder c.root)
      (h : NativeAt c ℓ p id d n) (hhome : l.registers[d]? = some home) :
      Origin n l ⟨.callNative, home, .native index, .none⟩
  /-- Nothing is written. -/
  | silent {i : Instruction} (hout : i.out = .none) (hop : ∀ a b, i.op ≠ .convert a b) :
      Origin n l i

/-- The line `k` of some code, which begins at position `n` of `p` and leads from `l` to `l'`, is
emitted at the layout `l₁`.  What it computes for the first time belongs to no declaration but the
one whose code it is in. -/
structure Laid (n : Nat) (l : Layout) (code : List CodeLine) (l' : Layout) (k : Nat)
    (i : Instruction) (l₁ : Layout) : Prop where
  /-- The homes are as they should be where the line is. -/
  ordered : l₁.Ordered
  /-- The registers given out before the code are given out there. -/
  next_le : l.next ≤ l₁.next
  /-- Homes that a declaration has there it has at the end. -/
  keeps : l₁.Keeps l'
  /-- What the lines before it have written has been given out there. -/
  before : ∀ line ∈ code.take k, line.1.out < l₁.next
  /-- The line is there for one of the known reasons. -/
  origin : Origin c ℓ p (n + k) l₁ i
  /-- If it writes a new register, only the declaration whose code it is in may get that register as
  its home. -/
  fresh : i.out = l₁.next →
    i.out < l'.next ∧ ∀ d, l'.registers[d]? = some i.out → DeclaresAt c ℓ p d i.out (n + k)

/-- Code at position `n` of `p` in which every line has its origin.  A register that is given out by
it is written, or kept for a variable without an initial value. -/
structure Traced (n : Nat) (l : Layout) (code : List CodeLine) (l' : Layout) : Prop where
  /-- The homes are as they should be afterwards. -/
  ordered : l'.Ordered
  /-- Declarations have kept their homes, and new ones are new registers. -/
  homes : l.Extends l'
  /-- A register that has been given out is written by one of the lines, or is the home of a
  variable without an initial value. -/
  given : ∀ r, l.next ≤ r → r < l'.next → (∃ line ∈ code, line.1.out = r)
    ∨ ∃ d name ty, c.tree.shape d = .var name ty none ∧ l'.registers[d]? = some r
  /-- Every line is emitted at a layout of its own. -/
  lines : ∀ (k : Nat) (line : CodeLine), code[k]? = some line →
    ∃ l₁, Laid c ℓ p n l code l' k line.1 l₁

/-- The code of `body` ends at a position where the value written last, which is of type `σ`, is
converted to the declared result `τ`. -/
inductive ClosesAt (body : NodeId) (result : Option Ty) (σ τ : Ty) : Nat → Prop
  /-- The code of the body ends there, and something has been written in it. -/
  | code {code : List CodeLine} {v : Option Register} {l : Layout} (hresult : result = some τ)
      (h : Emits c ℓ body .initial code v l)
      (hcode : p.code.toList = (code ++ (l.convertLast result (c.span body)).code).map Prod.fst)
      (hlast : l.lastRegister ≠ .none) (hty : l.lastTy = σ) : ClosesAt body result σ τ code.length

end

open Layout

variable {c : LowerContext} {ℓ : Linkage} {p : Procedure} {id x : NodeId} {n : Nat}
  {l l₁ l' : Layout} {code code' : List CodeLine} {v : Option Register} {r : Register}

/-! ### Pieces -/

namespace Traced

/-- What has been written is below the next register. -/
theorem out_lt (h : Traced c ℓ p n l code l') {line : CodeLine} (hline : line ∈ code) :
    line.1.out < l'.next := by
  obtain ⟨k, hk, rfl⟩ := List.getElem_of_mem hline
  obtain ⟨l₁, hlaid⟩ := h.lines k _ (List.getElem?_eq_getElem hk)
  have home {d : NodeId} {r : Register} (hr : l₁.registers[d]? = some r) : r < l'.next :=
    (h.ordered.given_home (hlaid.keeps d r hr)).2
  have horigin := hlaid.origin
  have hfresh := hlaid.fresh
  generalize code[k].1 = i at horigin hfresh ⊢
  cases horigin with
  | convert | convertStaged => exact (hfresh rfl).1
  | compute hout => exact (hfresh hout).1
  | store _ _ _ hhome => exact home hhome
  | native _ _ hhome => exact home hhome
  | silent hout =>
    rw [hout]
    exact h.ordered.pos

theorem refl (h : l.Ordered) : Traced c ℓ p n l [] l :=
  ⟨h, .refl l, fun _ hle hlt => (Nat.not_le.2 hlt hle).elim, fun _ _ hline => (by simp at hline)⟩

theorem trans (h : Traced c ℓ p n l code l₁) (h' : Traced c ℓ p (n + code.length) l₁ code' l') :
    Traced c ℓ p n l (code ++ code') l' where
  ordered := h'.ordered
  homes := h.homes.trans h'.homes
  given r hle hlt := by
    rcases Nat.lt_or_ge r l₁.next with hlt₁ | hge
    · rcases h.given r hle hlt₁ with ⟨line, hline, hout⟩ | ⟨d, name, ty, hshape, hr⟩
      · exact .inl ⟨line, List.mem_append_left _ hline, hout⟩
      · exact .inr ⟨d, name, ty, hshape, h'.homes.homes d r hr⟩
    · rcases h'.given r hge hlt with ⟨line, hline, hout⟩ | hkept
      · exact .inl ⟨line, List.mem_append_right _ hline, hout⟩
      · exact .inr hkept
  lines k line hline := by
    rcases Nat.lt_or_ge k code.length with hlt | hge
    · rw [List.getElem?_append_left hlt] at hline
      obtain ⟨l₂, hlaid⟩ := h.lines k line hline
      refine ⟨l₂, hlaid.ordered, hlaid.next_le, hlaid.keeps.trans h'.homes.homes, ?_, hlaid.origin,
        fun hout => ?_⟩
      · rw [List.take_append_of_le_length (Nat.le_of_lt hlt)]
        exact hlaid.before
      · obtain ⟨hlt₁, howner⟩ := hlaid.fresh hout
        refine ⟨Nat.lt_of_lt_of_le hlt₁ h'.homes.next_le, fun d hd => howner d ?_⟩
        -- Declarations behind the line get registers that are given out behind it.
        cases hd₁ : l₁.registers[d]? with
        | none => exact (Nat.not_le.2 hlt₁ (h'.homes.fresh d _ hd hd₁)).elim
        | some r => exact (h'.homes.homes d r hd₁).symm.trans hd
    · obtain ⟨k, rfl⟩ := Nat.exists_eq_add_of_le hge
      rw [List.getElem?_append_right hge, Nat.add_sub_cancel_left] at hline
      obtain ⟨l₂, hlaid⟩ := h'.lines k line hline
      refine ⟨l₂, hlaid.ordered, Nat.le_trans h.homes.next_le hlaid.next_le, hlaid.keeps, ?_,
        Nat.add_assoc n _ _ ▸ hlaid.origin, Nat.add_assoc n _ _ ▸ hlaid.fresh⟩
      rw [List.take_length_add_append]
      refine List.forall_mem_append.2 ⟨fun line hline => ?_, hlaid.before⟩
      exact Nat.lt_of_lt_of_le (h.out_lt hline) hlaid.next_le

/-- One line. -/
theorem single {i : Instruction} {span : Span} (hl : l.Ordered) (hordered : l'.Ordered)
    (hregisters : l'.registers = l.registers) (hnext : l.next ≤ l'.next)
    (horigin : Origin c ℓ p n l i) (hout : i.out = l.next → i.out < l'.next)
    (hgiven : ∀ r, l.next ≤ r → r < l'.next → i.out = r) :
    Traced c ℓ p n l [(i, span)] l' where
  ordered := hordered
  homes :=
    { next_le := hnext
      homes := fun d r hr => hregisters ▸ hr
      fresh := fun d r hr hnone => by
        rw [hregisters, hnone] at hr
        cases hr }
  given r hle hlt := .inl ⟨_, .head _, hgiven r hle hlt⟩
  lines k line hline := by
    obtain ⟨rfl, rfl⟩ : k = 0 ∧ (i, span) = line := by
      cases k with
      | zero => exact ⟨rfl, Option.some.inj hline⟩
      | succ k => simp at hline
    refine ⟨l, hl, Nat.le_refl _, .of_eq hregisters, fun _ h => (by simp at h), horigin,
      fun heq => ?_⟩
    refine ⟨hout heq, fun d hd => ?_⟩
    rw [hregisters, heq] at hd
    exact (hl.next_ne_home hd rfl).elim

/-- A line that computes a value into the next register. -/
theorem computed {i : Instruction} {span : Span} (hl : l.Ordered) (ty : Ty)
    (horigin : Origin c ℓ p n l i) (hout : i.out = l.next) :
    Traced c ℓ p n l [(i, span)] (l.computed ty) :=
  single hl (hl.computed ty).ordered rfl (Nat.le_succ _) horigin
    (fun _ => hout ▸ Nat.lt_succ_self _)
    fun _ hle hlt => hout.trans (Nat.le_antisymm hle (Nat.le_of_lt_succ hlt))

/-- A line that writes a home. -/
theorem wrote {i : Instruction} {span : Span} {d : NodeId} (hl : l.Ordered) (ty : Ty)
    (horigin : Origin c ℓ p n l i) (hhome : l.registers[d]? = some i.out) :
    Traced c ℓ p n l [(i, span)] (l.wrote i.out ty) :=
  single hl (hl.wrote (hl.bound d _ hhome) ty).ordered rfl (Nat.le_refl _) horigin
    (fun heq => (hl.next_ne_home hhome heq.symm).elim) fun _ hle hlt => (Nat.not_le.2 hlt hle).elim

/-- A line that writes no register. -/
theorem silent {i : Instruction} {span : Span} (hl : l.Ordered) (hout : i.out = .none)
    (hop : ∀ a b, i.op ≠ .convert a b) : Traced c ℓ p n l [(i, span)] l :=
  single hl hl rfl (Nat.le_refl _) (.silent hout hop)
    (fun heq => by
      rw [hout]
      exact hl.pos)
    fun _ hle hlt => (Nat.not_le.2 hlt hle).elim

theorem convert {source dest : Ty} {span : Span} (hl : l.Ordered)
    (horigin : ∀ a b, Kind.ofTy? source = some a → Kind.ofTy? dest = some b →
      Origin c ℓ p n l ⟨.convert a b, l.next, .register r, .none⟩) :
    Traced c ℓ p n l (l.convert r source dest span).code (l.convert r source dest span).layout := by
  rcases l.convert_cases r source dest span with ⟨hnone, -⟩ | ⟨a, b, ha, hb, -, hone⟩
  · rw [hnone]
    exact .refl hl
  · rw [hone]
    exact .computed hl dest (horigin a b ha hb) rfl

theorem stage (hl : l.Ordered) (r : Register) (ty : Ty) (span : Span) :
    Traced c ℓ p n l (l.stage r ty span).code (l.stage r ty span).layout := by
  unfold Layout.stage
  split
  · exact .computed hl ty (.compute rfl fun a b h => by cases h) rfl
  · exact .refl hl

/-- A declaration gets its register from its own code. -/
theorem tie {d : NodeId} (h : Traced c ℓ p n l code l₁) (hl : l.Ordered) (hcomputes : Computes l l₁)
    (hnew : l₁.registers[d]? = none) (hgives : Gives l l₁ r) (hfree : l₁.bound.contains r = false)
    (hdeclares : ∀ k < code.length, DeclaresAt c ℓ p d r (n + k)) :
    Traced c ℓ p n l code (l₁.withHome d r) := by
  obtain ⟨hordered, hhomes⟩ := hcomputes.withHome hl hnew hgives.lt hgives.origin hfree
  -- The table of homes has one more entry.
  have hget (d' : NodeId) : (l₁.withHome d r).registers[d']? = if d = d' then some r
      else l₁.registers[d']? := by
    show (l₁.registers.insert d r)[d']? = _
    simp [Std.TreeMap.getElem?_insert]
  have hkeeps : l₁.Keeps (l₁.withHome d r) := fun d' q hq => by
    rw [hget, if_neg, hq]
    rintro rfl
    rw [hnew] at hq
    cases hq
  refine ⟨hordered, hhomes, fun q hle hlt => ?_, fun k line hline => ?_⟩
  · rcases h.given q hle hlt with hline | ⟨d', name, ty, hshape, hq⟩
    · exact .inl hline
    · exact .inr ⟨d', name, ty, hshape, hkeeps d' q hq⟩
  · -- A line that writes the new home is in the code of the declaration.
    obtain ⟨l₂, hlaid⟩ := h.lines k line hline
    refine ⟨l₂, hlaid.ordered, hlaid.next_le, hlaid.keeps.trans hkeeps, hlaid.before, hlaid.origin,
      fun hout => ?_⟩
    obtain ⟨hlt, howner⟩ := hlaid.fresh hout
    refine ⟨hlt, fun d' hd' => ?_⟩
    rw [hget] at hd'
    split at hd'
    · next heq =>
      obtain ⟨hk, -⟩ := List.getElem?_eq_some_iff.1 hline
      rw [← heq, ← Option.some.inj hd']
      exact hdeclares k hk
    · exact howner d' hd'

end Traced

/-! ### Rules -/

/-- Code at position `n` of `p` is traced wherever it begins. -/
def TracedNode (c : LowerContext) (ℓ : Linkage) (p : Procedure) : Emission := fun _ l code _ l' =>
  ∀ n, p.Has n code → l.Ordered → Traced c ℓ p n l code l'

section

variable {emits : Emission}

/-- The code of a value and the conversion that coerces it. -/
theorem EmitsAs.traced {dest : Ty} {span : Span} (hid : id ∈ c.tree.preorder c.root)
    (hcoerces : c.Coerces id x dest)
    (hx : ∀ l code v l', emits x l code v l' → Emits c ℓ x l code v l'
      ∧ TracedNode c ℓ p x l code v l')
    (h : EmitsAs c emits x dest span l code r l') (hhas : p.Has n code) (hl : l.Ordered) :
    Traced c ℓ p n l code l' := by
  cases h with
  | converted h hp =>
    subst hp
    obtain ⟨hemits, htraced⟩ := hx _ _ _ _ h
    have hcode := htraced n hhas.append.1 hl
    refine hcode.trans (.convert hcode.ordered fun a b ha hb => ?_)
    exact .convert hid hcoerces (.code hl hemits hhas.append.1) ha hb

theorem EmitsDeclare.traced (hid : id ∈ c.tree.preorder c.root)
    (hcoerces : c.Coerces id x (c.typeOf id))
    (hx : ∀ l code v l', emits x l code v l' → Emits c ℓ x l code v l'
      ∧ TracedNode c ℓ p x l code v l'
      ∧ ComputesNode x l code v l')
    (hemits : Emits c ℓ id l code v l') (h : EmitsDeclare c emits id x l code v l')
    (hhas : p.Has n code) (hl : l.Ordered) : Traced c ℓ p n l code l' := by
  cases h with
  | missing h => exact (hx _ _ _ _ h).2.1 n hhas hl
  | tied h hnew hp =>
    subst hp
    have hcode := h.traced hid hcoerces
      (fun l code v l' h => ⟨(hx l code v l' h).1, (hx l code v l' h).2.1⟩) hhas.append.1 hl
    obtain ⟨hcomputes, hgives⟩ := h.computes (fun l code v l' h => (hx l code v l' h).2.2) hl
    obtain ⟨hstage, hvalue, hfree⟩ := hcomputes.stage hgives (c.typeOf id) (c.span id)
    refine (hcode.trans (.stage hcode.ordered _ _ _)).tie hl hstage ?_ hvalue hfree fun k hk => ?_
    · rw [registers_stage, hnew]
    · exact .code hemits hhas (Nat.le_add_right n k) (Nat.add_lt_add_left hk n)

theorem EmitsItems.traced {xs : List NodeId} {pieces : List (List CodeLine)}
    (hxs : ∀ x ∈ xs, ∀ l code v l', emits x l code v l' → TracedNode c ℓ p x l code v l')
    (h : EmitsItems emits xs l pieces l') (hhas : p.Has n pieces.flatten) (hl : l.Ordered) :
    Traced c ℓ p n l pieces.flatten l' := by
  induction h generalizing n with
  | nil => exact .refl hl
  | cons hx _ ih =>
    rw [List.flatten_cons] at hhas ⊢
    have hcode := hxs _ (.head _) _ _ _ _ hx n hhas.append.1 hl
    exact hcode.trans (ih (fun x hx => hxs x (.tail _ hx)) hhas.append.2 hcode.ordered)

theorem EmitsInputs.traced {inputs : List NodeId} {slots : List NativeSlot}
    (hinputs : ∀ input ∈ inputs, ∀ target offset, c.tree.shape input = .slot target offset →
      ∀ l code v l', emits target l code v l' → TracedNode c ℓ p target l code v l')
    (h : EmitsInputs c emits inputs l code slots l') (hhas : p.Has n code) (hl : l.Ordered) :
    Traced c ℓ p n l code l' := by
  induction h generalizing n with
  | nil => exact .refl hl
  | cons hslot hx _ ih =>
    have hcode := hinputs _ (.head _) _ _ hslot _ _ _ _ hx n hhas.append.1 hl
    exact hcode.trans (ih (fun x hx => hinputs x (.tail _ hx)) hhas.append.2 hcode.ordered)

theorem EmitsStages.traced {values : List NodeId} {vs : List (Option Register)}
    (hxs : ∀ x ∈ values, ∀ l code v l', emits x l code v l' → TracedNode c ℓ p x l code v l')
    (h : EmitsStages c emits values l code vs l') (hhas : p.Has n code) (hl : l.Ordered) :
    Traced c ℓ p n l code l' := by
  induction h generalizing n with
  | nil => exact .refl hl
  | missing hx _ ih =>
    have hcode := hxs _ (.head _) _ _ _ _ hx n hhas.append.1 hl
    exact hcode.trans (ih (fun x hx => hxs x (.tail _ hx)) hhas.append.2 hcode.ordered)
  | @staged x _ _ _ _ _ _ r _ _ hx hp _ ih =>
    subst hp
    have hcode := hxs _ (.head _) _ _ _ _ hx n hhas.append.1.append.1 hl
    have hstage := hcode.trans (.stage hcode.ordered r (c.typeOf x) (c.span x))
    exact hstage.trans (ih (fun x hx => hxs x (.tail _ hx)) hhas.append.2 hstage.ordered)

end

/-! ### Stores -/

theorem Layout.storeAll_append (c : LowerContext) (l : Layout)
    (first rest : List (NodeId × NodeId × Option Register)) :
    l.storeAll c (first ++ rest)
      = ((l.storeAll c first).1 ++ ((l.storeAll c first).2.storeAll c rest).1,
          ((l.storeAll c first).2.storeAll c rest).2) := by
  induction first generalizing l with
  | nil => rfl
  | cons e first ih =>
    obtain ⟨target, value, _ | r⟩ := e
    · exact ih l
    · simp only [List.cons_append, storeAll, ih, List.append_assoc]

/-- One more store. -/
theorem Layout.storeAll_concat {l : Layout} {first : List (NodeId × NodeId × Option Register)}
    {target value : NodeId} {r : Register} {q s : Piece}
    (hq : (l.storeAll c first).2.convert r (c.typeOf value) (c.typeOf target) (c.span target) = q)
    (hs : q.layout.store (q.layout.home c target) q.value (c.typeOf target) (c.span target) = s) :
    l.storeAll c (first ++ [(target, value, some r)])
      = ((l.storeAll c first).1 ++ (q.code ++ s.code), s.layout) := by
  rw [storeAll_append]
  simp only [Layout.storeAll, hq, hs, List.append_nil]

/-- A store to the home of a variable, if it has one. -/
theorem Traced.store {target : NodeId} {ty : Ty} {span : Span} (hl : l.Ordered)
    (horigin : ∀ d home, c.resolution.declaration? (c.tree.ungroup target) = some d →
      l.registers[d]? = some home → l.home c target = some home →
      Origin c ℓ p n l ⟨.copy, home, .register r, .none⟩) :
    Traced c ℓ p n l (l.store (l.home c target) r ty span).code
      (l.store (l.home c target) r ty span).layout := by
  cases hhome : l.home c target with
  | none => exact .refl hl
  | some home =>
    obtain ⟨d, hdecl, hr⟩ := Option.bind_eq_some_iff.1 hhome
    exact .wrote (d := d) (i := ⟨.copy, home, .register r, .none⟩) hl ty
      (horigin d home hdecl hr hhome) hr

/-- The stores of a parallel assignment, one after the other. -/
theorem Traced.storeAll {targets values : List NodeId} {vs : List (Option Register)}
    (hid : id ∈ c.tree.preorder c.root) (hshape : c.tree.shape id = .parallel targets values)
    (h : EmitsStages c (Emits c ℓ) values l code vs l₁)
    (first rest : List (NodeId × NodeId × Option Register))
    (hstaged : targets.zip (values.zip vs) = first ++ rest)
    (hhas : p.Has n (code ++ (l₁.storeAll c (first ++ rest)).1))
    (hcode : Traced c ℓ p n l (code ++ (l₁.storeAll c first).1) (l₁.storeAll c first).2) :
    Traced c ℓ p n l (code ++ (l₁.storeAll c (first ++ rest)).1)
      (l₁.storeAll c (first ++ rest)).2 := by
  -- The stores of `first` have been traced; the next one is moved over to them.
  induction rest generalizing first with
  | nil =>
    rw [List.append_nil]
    exact hcode
  | cons e rest ih =>
    have hsplit : first ++ e :: rest = (first ++ [e]) ++ rest := by simp
    rw [hsplit] at hhas ⊢
    refine ih (first ++ [e]) (hsplit ▸ hstaged) hhas ?_
    obtain ⟨target, value, _ | r⟩ := e
    · -- A value without a register is not stored.
      rw [storeAll_append]
      simpa [Layout.storeAll] using hcode
    · generalize hq : (l₁.storeAll c first).2.convert r (c.typeOf value) (c.typeOf target)
        (c.span target) = q
      generalize hs : q.layout.store (q.layout.home c target) q.value (c.typeOf target)
        (c.span target) = s
      have hone := storeAll_concat hq hs
      rw [storeAll_append, hone, ← List.append_assoc, ← List.append_assoc,
        ← List.append_assoc] at hhas
      rw [hone, ← List.append_assoc, ← List.append_assoc]
      have hmem : (target, value, some r) ∈ targets.zip (values.zip vs) := by
        rw [hstaged]
        simp
      have hpair := (mem_zip_zip hmem).1
      -- The conversion reads a staged value.
      have hconvert : Traced c ℓ p n l (code ++ (l₁.storeAll c first).1 ++ q.code) q.layout := by
        subst hq
        exact hcode.trans (.convert hcode.ordered fun a b ha hb =>
          .convertStaged hid hshape hpair ha hb)
      have hstore := hhas.append.1
      rw [List.append_assoc] at hstore
      subst hs hq
      -- The copy writes the home of the target, at a position behind the stores before it.
      refine hconvert.trans (.store hconvert.ordered fun d home hdecl hr hhome => ?_)
      refine .store hid (.parallel hshape h hstaged rfl rfl hstore ?_ ?_) hdecl hr
      · simp only [List.length_append]
        omega
      · rw [hhome]
        simp [Layout.store, ← Nat.add_assoc]

/-- Code that ends with an instruction that computes a value and converts nothing. -/
theorem Traced.compute (hcode : Traced c ℓ p n l code l₁) {i : Instruction} {span : Span} (ty : Ty)
    (hout : i.out = l₁.next) (hop : ∀ a b, i.op ≠ .convert a b) :
    Traced c ℓ p n l (code ++ [(i, span)]) (l₁.computed ty) :=
  hcode.trans (.computed hcode.ordered ty (.compute hout hop) hout)

/-- A store whose value has been computed and converted. -/
theorem Traced.assign {target value : NodeId} (hid : id ∈ c.tree.preorder c.root)
    (hshape : c.tree.shape id = .assign target value)
    (h : EmitsAs c (Emits c ℓ) value (c.typeOf target) (c.span value) l code r l₁)
    (hhas : p.Has n (code ++ (l₁.store (l₁.home c target) r (c.typeOf target) (c.span id)).code))
    (hcode : Traced c ℓ p n l code l₁) :
    Traced c ℓ p n l (code ++ (l₁.store (l₁.home c target) r (c.typeOf target) (c.span id)).code)
      (l₁.store (l₁.home c target) r (c.typeOf target) (c.span id)).layout := by
  refine hcode.trans (.store hcode.ordered fun d home hdecl hr hhome => ?_)
  cases h with
  | converted h hq =>
    subst hq
    rw [List.append_assoc] at hhas
    refine .store hid (.assign hshape h rfl rfl hhas ?_ ?_) hdecl hr
    · simp only [List.length_append]
      omega
    · rw [hhome]
      simp [Layout.store, ← Nat.add_assoc]

/-- A value that is converted to the declared result and handed back. -/
theorem Traced.ret (hid : id ∈ c.tree.preorder c.root) (hshape : c.tree.shape id = .ret (some x))
    (hl : l.Ordered) (h : Emits c ℓ x l code (some r) l₁) (hhas : p.Has n code)
    (hcode : Traced c ℓ p n l code l₁) {q : Piece}
    (hq : q = l₁.convertResult r (c.typeOf x) (c.resultTy? id) (c.span id)) :
    Traced c ℓ p n l
      (code ++ q.code ++ [(⟨.ret, .none, .register q.value, .none⟩, c.span id)]) q.layout := by
  subst hq
  have hconvert : Traced c ℓ p n l
      (code ++ (l₁.convertResult r (c.typeOf x) (c.resultTy? id) (c.span id)).code)
      (l₁.convertResult r (c.typeOf x) (c.resultTy? id) (c.span id)).layout := by
    cases hresult : c.resultTy? id with
    | none => exact hcode.trans (.refl hcode.ordered)
    | some τ =>
      exact hcode.trans (.convert hcode.ordered fun a b ha hb =>
        .convert hid (.ret hshape hresult) (.code hl h hhas) ha hb)
  exact hconvert.trans (.silent hconvert.ordered rfl fun a b h => by cases h)

/-- A variable without an initial value has a new register, and no code. -/
theorem Traced.varFresh (hc : c.Sound) (hid : id ∈ c.tree.preorder c.root) {name : String}
    {ty : Option NodeId} (hshape : c.tree.shape id = .var name ty none) (hl : l.Ordered)
    {q : Piece} (hq : q = l.reserved.tie id (c.typeOf id) l.next (c.span id))
    (h : Emits c ℓ id l q.code v q.layout) : Traced c ℓ p n l q.code q.layout := by
  subst hq
  obtain ⟨hordered, hextends⟩ := h.extends hc.tree hid (by rw [hshape]; rfl) hl
  unfold Layout.tie at hordered hextends ⊢
  rw [hl.stage_next] at hordered hextends ⊢
  refine ⟨hordered, hextends, fun r hle hlt => .inr ⟨id, _, _, hshape, ?_⟩,
    fun k line hline => (by simp at hline)⟩
  obtain rfl := Nat.le_antisymm hle (Nat.le_of_lt_succ hlt)
  simp [withHome]

/-! ### All nodes -/

/-- **Every line of the code of a node has its origin.** -/
theorem Emits.traced (hc : c.Sound) (hid : id ∈ c.tree.preorder c.root)
    (hitem : (c.tree.shape id).isItem = true) (h : Emits c ℓ id l code v l') :
    TracedNode c ℓ p id l code v l' := by
  refine Emits.item_induction hc.tree hid (motive := TracedNode c ℓ p)
    (fun emits id hid hitem ih l code v l' hemits hrule => ?_) hitem h
  -- What is known of the nodes below: their code, its origins, and for expressions what it
  -- computes.
  have below (x l code v l') (h : emits x l code v l') : Emits c ℓ x l code v l' :=
    (ih x l code v l' h).2.1
  have traced (x l code v l') (h : emits x l code v l') : TracedNode c ℓ p x l code v l' :=
    (ih x l code v l' h).2.2
  have both (x l code v l') (h : emits x l code v l') :=
    And.intro (below x l code v l' h) (traced x l code v l' h)
  have expr (hscope : (c.tree.shape id).isScope = false) (x l code v l') (h : emits x l code v l') :
      Emits c ℓ x l code v l' ∧ TracedNode c ℓ p x l code v l' ∧ ComputesNode x l code v l' :=
    have ⟨hfits, hemits, htraced⟩ := ih x l code v l' h
    ⟨hemits, htraced, hemits.computes hc.tree hfits.mem (hfits.expr hscope)⟩
  clear ih
  generalize hshape : c.tree.shape id = shape at hrule hitem expr
  intro n hhas hl
  cases hrule with
  -- Scopes and nodes without code of their own.
  | module h | block h => exact h.traced (fun x _ => traced x) hhas hl
  | inert | procedure | identOwn | identProcedure | identAbsent => exact .refl hl
  -- Declarations give homes, so the lines before have to be looked at again.
  | constant h => exact h.traced hid (.constant hshape) (expr rfl _) hemits hhas hl
  | var h => exact h.traced hid (.var hshape) (expr rfl _) hemits hhas hl
  | varFresh _ hp => exact .varFresh hc hid hshape hl hp hemits
  -- Statements, where values are stored in homes.
  | exprStmt h | assignMissing h | retMissing h | group h | castMissing h =>
    exact traced _ _ _ _ _ h n hhas hl
  | assign h hp =>
    subst hp
    exact .assign hid hshape (h.mono (below _)) hhas
      (h.traced hid (.assign hshape) (both _) hhas.append.1 hl)
  | @parallel targets values _ _ _ vs _ _ h hp =>
    have hcode := h.traced (fun x _ => traced x) hhas.append.1 hl
    have hstores := Traced.storeAll hid hshape (h.mono fun x _ => below x) []
      (targets.zip (values.zip vs)) rfl (by rwa [List.nil_append, hp])
      (by simpa [Layout.storeAll] using hcode)
    rwa [List.nil_append, hp] at hstores
  | retBare => exact .silent hl rfl fun a b h => by cases h
  | ret h hp =>
    have hx := hhas.append.1.append.1
    exact .ret hid hshape hl (below _ _ _ _ _ h) hx (traced _ _ _ _ _ h n hx hl) hp
  -- Expressions, which end with one line that computes their value.
  | literal _ _ hp | identLiteral _ _ _ _ _ _ hp | folded _ _ _ hp =>
    subst hp
    exact (Traced.refl hl).compute _ rfl fun a b h => by cases h
  | binary _ _ hleft hright =>
    have hcode := hleft.traced hid (.left hshape) (both _) hhas.append.1.append.1 hl
    have hcode' := hright.traced hid (.right hshape) (both _) hhas.append.1.append.2 hcode.ordered
    exact (hcode.trans hcode').compute _ rfl fun a b h => by cases h
  | plus _ h => exact h.traced hid (.sign hshape) (both _) hhas hl
  | minus _ _ _ h =>
    have hcode := h.traced hid (.sign hshape) (both _) hhas.append.1 hl
    exact hcode.compute _ rfl fun a b h => by cases h
  | call h =>
    have hcode := traced _ _ _ _ _ h n hhas.append.1 hl
    exact hcode.compute _ rfl fun a b h => by cases h
  | cast h => exact h.traced hid (.cast hshape) (both _) hhas hl
  -- Native code writes its output, if it has one.
  | nativeSilent h =>
    have hcode := h.traced (fun _ _ target _ _ => traced target) hhas.append.1 hl
    exact hcode.trans (.silent hcode.ordered rfl fun a b h => by cases h)
  | @native _ _ _ index _ _ _ r _ _ _ h hslot hhome =>
    have hcode := h.traced (fun _ _ target _ _ => traced target) hhas.append.1 hl
    have hinputs := h.mono fun _ _ target _ _ => below target
    obtain ⟨d, hdecl, hr⟩ := Option.bind_eq_some_iff.1 hhome
    exact hcode.trans (.wrote (i := ⟨.callNative, r, .native index, .none⟩) hcode.ordered _
      (.native hid (.code hshape hslot hdecl hinputs hhas) hr) hr)
  | slot => cases hitem

/-! ### Procedures -/

section

variable {body : NodeId} {result : Option Ty}

/-- The closing conversion is one line, if the kinds of the two types differ. -/
theorem Layout.getElem?_convertLast {span : Span} {line : CodeLine} :
    (l.convertLast result span).code[n]? = some line
      ↔ n = 0 ∧ l.lastRegister ≠ .none ∧ ∃ τ a b, result = some τ ∧ Kind.ofTy? l.lastTy = some a
        ∧ Kind.ofTy? τ = some b ∧ a ≠ b
        ∧ line = (⟨.convert a b, l.next, .register l.lastRegister, .none⟩, span) := by
  unfold convertLast convertResult
  split
  · next hnone => simp [hnone]
  · next hlast =>
    cases result with
    | none => simp
    | some τ =>
      rcases l.convert_cases l.lastRegister l.lastTy τ span with
        ⟨hnone, hsame⟩ | ⟨a, b, ha, hb, hab, hone⟩
      · simp only [hnone, List.getElem?_nil, reduceCtorEq, false_iff]
        rintro ⟨-, -, _, a, b, hresult, ha, hb, hab, -⟩
        obtain rfl := Option.some.inj hresult
        exact hab (hsame a b ha hb)
      · simp [hone, ha, hb, hab, hlast, List.getElem?_singleton, @eq_comm _ line]

/-- The lines of a procedure are those of its body and the closing conversion. -/
theorem Compiles.traced (hc : c.Sound) (hbody : body ∈ c.tree.preorder c.root)
    (hitem : (c.tree.shape body).isItem = true) (h : Compiles c ℓ body result p) :
    ∃ code v l, Emits c ℓ body .initial code v l ∧ Traced c ℓ p 0 .initial code l
      ∧ p.Has 0 (code ++ (l.convertLast result (c.span body)).code)
      ∧ p.code.toList = (code ++ (l.convertLast result (c.span body)).code).map Prod.fst
      ∧ p.registers = l.registers := by
  obtain @⟨code, v, l, _, hemits, rfl, hcode, hspans, hregisters, -, -, -⟩ := h
  have hhas := Procedure.has_of_toList hcode hspans
  rw [registers_convertLast] at hregisters
  exact ⟨code, v, l, hemits, hemits.traced hc hbody hitem 0 hhas.append.1 .initial, hhas, hcode,
    hregisters⟩

theorem ClosesAt.result_eq {σ τ : Ty} (h : ClosesAt c ℓ p body result σ τ n) : result = some τ := by
  cases h with
  | code hresult => exact hresult

/-- Where the closing conversion is, if both kinds differ. -/
theorem ClosesAt.line {σ τ : Ty} {a b : Kind} (h : ClosesAt c ℓ p body result σ τ n)
    (ha : Kind.ofTy? σ = some a) (hb : Kind.ofTy? τ = some b) (hab : a ≠ b) :
    ∃ out left, p.code[n]? = some ⟨.convert a b, out, .register left, .none⟩ := by
  obtain @⟨code, v, l, hresult, -, hcode, hlast, rfl⟩ := h
  have hline : (l.convertLast result (c.span body)).code[0]?
      = some (⟨.convert a b, l.next, .register l.lastRegister, .none⟩, c.span body) :=
    getElem?_convertLast.2 ⟨rfl, hlast, τ, a, b, hresult, ha, hb, hab, rfl⟩
  refine ⟨l.next, l.lastRegister, ?_⟩
  rw [← Array.getElem?_toList, hcode, List.getElem?_map, List.getElem?_append_right (Nat.le_refl _),
    Nat.sub_self, hline]
  rfl

/-- **A conversion coerces a value**, unless it is the one of the value written last. -/
theorem Compiles.convert_cases (hc : c.Sound) (hbody : body ∈ c.tree.preorder c.root)
    (hitem : (c.tree.shape body).isItem = true) (h : Compiles c ℓ body result p) {a b : Kind}
    {out : Register} {left right : Operand}
    (hline : p.code[n]? = some ⟨.convert a b, out, left, right⟩) :
    (∃ l, Origin c ℓ p n l ⟨.convert a b, out, left, right⟩)
      ∨ ∃ σ τ, ClosesAt c ℓ p body result σ τ n ∧ Kind.ofTy? σ = some a
        ∧ Kind.ofTy? τ = some b := by
  obtain ⟨code, v, l, hemits, htraced, -, hcode, -⟩ := h.traced hc hbody hitem
  have hget := hline
  rw [← Array.getElem?_toList, hcode, List.getElem?_map, Option.map_eq_some_iff] at hget
  obtain ⟨line, hget, heq⟩ := hget
  rcases Nat.lt_or_ge n code.length with hlt | hge
  · rw [List.getElem?_append_left hlt] at hget
    obtain ⟨l₁, hlaid⟩ := htraced.lines n line hget
    exact .inl ⟨l₁, by simpa [heq] using hlaid.origin⟩
  · rw [List.getElem?_append_right hge] at hget
    obtain ⟨hn, hlast, τ, a', b', hresult, ha, hb, -, rfl⟩ := getElem?_convertLast.1 hget
    cases heq
    rw [Nat.le_antisymm (Nat.le_of_sub_eq_zero hn) hge]
    exact .inr ⟨l.lastTy, τ, .code hresult hemits hcode hlast rfl, ha, hb⟩

end

/-! ### What typing allows -/

/-- **A value is coerced to a type that admits it**, unless it is cast. -/
theorem LowerContext.Coerces.admits (hc : c.Sound) (hid : id ∈ c.tree.preorder c.root) {τ : Ty}
    (h : c.Coerces id x τ) :
    (∃ y, c.tree.shape id = .cast x y ∧ τ = c.typeOf id) ∨ Ty.Admits τ (c.typeOf x) := by
  cases h with
  | cast hshape => exact .inl ⟨_, hshape, rfl⟩
  -- Operands are admitted by what the other operand promotes them to.
  | @left left op right hshape =>
    have hright := hc.isError_child hid hshape (x := right) (by simp [Shape.children])
    obtain ⟨τ, hτ, hty⟩ := hc.judged hid hshape
    rw [hτ]
    cases hty with
    | binary hl hr h =>
      rw [← hl.typeOf, ← hr.typeOf] at h ⊢
      exact .inr (.left hright h rfl)
  | @right left op right hshape =>
    have hleft := hc.isError_child hid hshape (x := left) (by simp [Shape.children])
    obtain ⟨τ, hτ, hty⟩ := hc.judged hid hshape
    rw [hτ]
    cases hty with
    | binary hl hr h =>
      rw [← hl.typeOf, ← hr.typeOf] at h ⊢
      exact .inr (.right hleft h rfl)
  -- A sign makes the type of its operand signed.
  | sign hshape =>
    obtain ⟨τ, hτ, hty⟩ := hc.judged hid hshape
    rw [hτ]
    cases hty with
    | signed _ hx h =>
      rw [← hx.typeOf]
      exact .inr (.sign rfl)
  -- A constant has the very type of its definition.
  | constant hshape =>
    rw [hc.typeOf_constant hid hshape]
    exact .inr (.store (Ty.canAssign_self _))
  | var hshape =>
    obtain ⟨τ, hτ, hty⟩ := hc.judged hid hshape
    rw [hτ]
    cases hty with
    | var _ hinit h =>
      rw [← hinit.typeOf] at h
      exact .inr (.store h)
    | varInferred h =>
      rw [← h.typeOf]
      exact .inr (.store (Ty.canAssign_self _))
  -- Typing has checked what is stored and returned.
  | assign hshape =>
    obtain ⟨τ, -, hty⟩ := hc.judged hid hshape
    cases hty with
    | assign h => exact .inr (.store h.canAssign)
  | parallel hshape hpair =>
    obtain ⟨τ, -, hty⟩ := hc.judged hid hshape
    cases hty with
    | parallel _ h => exact .inr (.store (h _ hpair).canAssign)
  | @ret x τ hshape hresult =>
    unfold resultTy? at hresult
    obtain ⟨ρ, -, hty⟩ := hc.judged hid hshape
    cases hty with
    | retFree hnone _ =>
      rw [hnone] at hresult
      cases hresult
    | retValue hnode hρ hσ hcan =>
      rw [hnode, Option.map_some] at hresult
      obtain rfl := Option.some.inj hresult
      rw [← hρ.typeOf, ← hσ.typeOf] at hcan
      exact .inr (.store hcan)

end MiddleEnd
