import MiddleEnd.Proofs.Evaluation.Programs
import MiddleEnd.Proofs.Lowering.Places
import MiddleEnd.Proofs.Machine.LastValue

/-!
# Integer literals

The word of an integer literal is read at the kind of its type.  A decimal literal is accepted up to
64 bits, but its type is kept in a signed kind: the upper half of what is accepted is read as
negative, and this goes on into floats and under a minus sign.

## Main definitions

* `Tree.SpellsInt` — the expressions that spell out an integer.
* `Machine.Traverses` — a run over some lines of code.
* `StandsAt` — where the code of a node is in a procedure.
* `ComputesInt` — every run over the code of a node ends with a word for the same integer.
* `KeepsInt` — how a program keeps an integer that is spelled out.

## Main results

* `Emits.value_of_spellsInt` — the word of a literal stands for what it spells up to wrapping.
* `compile_spelled` — **what compiled code makes of an integer that is written out**.
* `Tree.exceedsGreatest_misread` — a float that begins with a literal of the upper half is negative.
-/

namespace MiddleEnd

/-! ### Literals with a value -/

namespace Tree

variable (t : Tree)

/-- A literal, perhaps in parentheses, that spells the natural number `n`. -/
def SpellsNat (x : NodeId) (n : Nat) : Prop :=
  ∃ spelling, t.shape (t.ungroup x) = .literal (.number spelling)
    ∧ (Spelled.ofText spelling = .ok (.decimal n) ∨ Spelled.ofText spelling = .ok (.octal n))

/-- A literal, perhaps in parentheses, that is octal. -/
def SpellsOctal (x : NodeId) : Prop :=
  ∃ spelling n, t.shape (t.ungroup x) = .literal (.number spelling)
    ∧ Spelled.ofText spelling = .ok (.octal n)

/-- An integer literal or the negation of one, perhaps in parentheses, with the integer that is
meant. -/
inductive SpellsInt (x : NodeId) : Int → Prop
  /-- The literal itself. -/
  | natural {n : Nat} (h : t.SpellsNat x n) : SpellsInt x n
  /-- The literal with a minus in front. -/
  | negated {op y : NodeId} {n : Nat} (hshape : t.shape (t.ungroup x) = .signed op y)
      (hop : t.shape op = .signOp .minus) (h : t.SpellsNat y n) : SpellsInt x (-(n : Int))

variable {t} {x : NodeId} {v : Int}

theorem shape_ungroup (t : Tree) (x : NodeId) :
    (∃ y, t.shape x = .group y) ∨ t.shape (t.ungroup x) = t.shape x := by
  cases hshape : t.shape x with
  | group y => exact .inl ⟨y, rfl⟩
  | _ => exact .inr (by rw [ungroup_of_not_group (by simp [hshape]), hshape])

namespace SpellsInt

theorem ungroup_cases (h : t.SpellsInt x v) :
    (∃ lit, t.shape (t.ungroup x) = .literal lit)
    ∨ ∃ op y, t.shape (t.ungroup x) = .signed op y := by
  cases h with
  | natural h =>
    obtain ⟨spelling, hshape, -⟩ := h
    exact .inl ⟨_, hshape⟩
  | negated hshape => exact .inr ⟨_, _, hshape⟩

/-- A class to which parentheses, literals and signed expressions belong alike. -/
theorem class_eq (h : t.SpellsInt x v) {f : Shape → Bool} {b : Bool}
    (hgroup : ∀ y, f (.group y) = b)
    (hliteral : ∀ lit, f (.literal lit) = b) (hsigned : ∀ op y, f (.signed op y) = b) :
    f (t.shape x) = b := by
  rcases t.shape_ungroup x with ⟨y, hshape⟩ | hshape
  · rw [hshape, hgroup]
  · rcases h.ungroup_cases with ⟨lit, hlit⟩ | ⟨op, y, hsign⟩
    · rw [← hshape, hlit, hliteral]
    · rw [← hshape, hsign, hsigned]

end SpellsInt

end Tree

variable {c : LowerContext} {ℓ : Linkage} {id x : NodeId} {l l' : Layout} {code : List CodeLine}
  {v : Option Register} {r : Register} {p : Procedure}

namespace LowerContext.Sound

variable (hc : c.Sound)

include hc

/-- Typing has read the value that a literal spells. -/
theorem literal_of_spellsNat {n : Nat} (hx : x ∈ c.tree.preorder c.root)
    (h : c.tree.SpellsNat x n) :
    c.typing.literal? (c.tree.ungroup x) = some (.integer n)
      ∧ (c.typeOf x = .anyNumber ∧ ¬c.tree.SpellsOctal x
        ∨ c.typeOf x = .anyUnsigned ∧ c.tree.SpellsOctal x) := by
  obtain ⟨spelling, hshape, hspelled⟩ := h
  have hty := hc.hasType (c.tree.mem_preorder_trans hx (c.tree.ungroup_mem_preorder x))
  rw [hshape, hc.typeOf_ungroup hx] at hty
  generalize c.typeOf x = τ at hty ⊢
  -- Typing has read the spelling in the same way as the definition does.
  cases hty with
  | decimal hspelled' h =>
    rw [hspelled'] at hspelled
    rcases hspelled with hspelled | hspelled <;> cases hspelled
    refine ⟨h, .inl ⟨rfl, ?_⟩⟩
    rintro ⟨spelling', n', hshape', hoctal⟩
    rw [hshape] at hshape'
    cases hshape'
    rw [hspelled'] at hoctal
    cases hoctal
  | octal hspelled' h =>
    rw [hspelled'] at hspelled
    rcases hspelled with hspelled | hspelled <;> cases hspelled
    exact ⟨h, .inr ⟨rfl, spelling, n, hshape, hspelled'⟩⟩
  | float hspelled' =>
    rw [hspelled'] at hspelled
    rcases hspelled with hspelled | hspelled <;> cases hspelled

/-- What spells out an integer has a type of the full width, which is signed unless it is octal. -/
theorem kindOf_of_spellsInt {n : Int} (hx : x ∈ c.tree.preorder c.root)
    (h : c.tree.SpellsInt x n) :
    ∃ k : IntKind, c.kindOf x = some (.int k) ∧ k.width = .w64
      ∧ (k.isSigned = false ↔ c.tree.SpellsOctal x) := by
  unfold kindOf
  cases h with
  | natural h =>
    -- A literal of full width; its sign is that of its spelling.
    rcases (hc.literal_of_spellsNat hx h).2 with ⟨hty, hoctal⟩ | ⟨hty, hoctal⟩ <;> rw [hty]
    · exact ⟨⟨true, .w64⟩, rfl, rfl, by simp [hoctal]⟩
    · exact ⟨⟨false, .w64⟩, rfl, rfl, by simp [hoctal]⟩
  | @negated op y _ hshape hop h =>
    have hmem := c.tree.mem_preorder_trans hx (c.tree.ungroup_mem_preorder x)
    have hy : y ∈ c.tree.children (c.tree.ungroup x) := by
      simp [Tree.children_of_shape hshape, Shape.children]
    have hnat := (hc.literal_of_spellsNat (hc.tree.child hmem hy) h).2
    -- What is negated is not the literal itself.
    have hoctal : ¬c.tree.SpellsOctal x := by
      rintro ⟨spelling, n, hshape', -⟩
      rw [hshape] at hshape'
      cases hshape'
    have hty := hc.hasType hmem
    rw [hshape, hc.typeOf_ungroup hx] at hty
    generalize c.typeOf x = τ at hty ⊢
    cases hty with
    | signed _ hdone _ =>
      rw [← hdone.typeOf]
      refine ⟨⟨true, .w64⟩, ?_, rfl, by simp [hoctal]⟩
      rcases hnat with ⟨hty, -⟩ | ⟨hty, -⟩ <;> rw [show c.typing.typeOf y = _ from hty] <;> rfl

end LowerContext.Sound

/-- Parentheses have no code of their own. -/
theorem Emits.ungroup (h : Emits c ℓ x l code v l') : Emits c ℓ (c.tree.ungroup x) l code v l' := by
  induction x using Nat.strongRecOn with
  | ind x ih =>
    cases hshape : c.tree.shape x with
    | group y =>
      have hrule := (rule_iff.1 h).2
      rw [hshape] at hrule
      rw [Tree.ungroup_of_group hshape]
      cases hrule with
      | group h => exact ih y h.1 h.2
      | inert hinert => cases hinert
    | _ =>
      rw [Tree.ungroup_of_not_group (by simp [hshape])]
      exact h

/-! ### Runs over code -/

namespace Machine

variable {σ : Type} (m : Machine σ) (call : Option (Procedure → Run σ Word)) (p : Procedure)

/-- A run from the beginning of some lines of code to their end. -/
structure Traverses (code : List CodeLine) (κ κ' : Point σ) : Prop where
  /-- The lines are where the run begins. -/
  has : p.Has κ.pc code
  /-- The run gets from the one point to the other one. -/
  reaches : m.Reaches call p κ κ'
  /-- It ends behind the lines. -/
  pc : κ'.pc = κ.pc + code.length

variable {m call p} {κ κ' : Point σ} {code' : List CodeLine} {i : Instruction} {span : Span}
  {w : Word}

namespace Traverses

theorem append (h : m.Traverses call p (code ++ code') κ κ') :
    ∃ κ₁, m.Traverses call p code κ κ₁ ∧ m.Traverses call p code' κ₁ κ' := by
  obtain ⟨hleft, hright⟩ := h.has.append
  have hpc := h.pc
  rw [List.length_append] at hpc
  obtain ⟨κ₁, hto, hpc₁, hfrom⟩ := h.reaches.through (κ.pc + code.length) (by omega) (by omega)
  exact ⟨κ₁, ⟨hleft, hto, hpc₁⟩, ⟨hpc₁ ▸ hright, hfrom, by omega⟩⟩

theorem nil (h : m.Traverses call p [] κ κ') : κ' = κ :=
  h.reaches.eq_of_pc (Nat.le_of_eq h.pc)

/-- One instruction that never is without a value. -/
theorem single (h : m.Traverses call p [(i, span)] κ κ')
    (hskip : ∀ s, ¬m.Performs call ⟨p, κ.pc⟩ κ.frame κ.state i .skip s) :
    ∃ w s, m.Performs call ⟨p, κ.pc⟩ κ.frame κ.state i (.write w) s
      ∧ κ'.frame[i.out]? = some w := by
  have hstep := h.reaches.step_of_pc h.pc
  rcases hstep.performs h.has.head.1 with ⟨s, hperforms⟩ | hwrites
  · exact (hskip s hperforms).elim
  · exact hwrites

/-- A constant is loaded as it is in the pool. -/
theorem load {index : Nat} {ty : Ty} (h : m.Traverses call p (l.load index ty span).code κ κ')
    (hw : m.program.constants[index]? = some w) :
    κ'.frame[(l.load index ty span).value]? = some w := by
  obtain ⟨w', _, hperforms, hframe⟩ := h.single fun _ h => by cases h
  cases hperforms with
  | loadConstant h =>
    obtain rfl := Option.some.inj (hw.symm.trans h)
    exact hframe

/-- A value is converted from the one kind to the other. -/
theorem convert {source dest : Ty} (h : m.Traverses call p (l.convert r source dest span).code κ κ')
    (hw : κ.frame[r]? = some w) :
    κ'.frame[(l.convert r source dest span).value]?
      = some (Kind.converted (Kind.ofTy? source) (Kind.ofTy? dest) w) := by
  rcases l.converted_cases r source dest span with ⟨hsame, hvalue⟩ | ⟨a, b, hone, hvalue⟩
  · rw [hsame] at h ⊢
    obtain rfl := h.nil
    rw [hvalue]
    exact hw
  · rw [hone] at h ⊢
    obtain ⟨w', _, hperforms, hframe⟩ := h.single fun _ h => by cases h
    cases hperforms with
    | convert hread =>
      obtain rfl := Option.some.inj (hw.symm.trans (read_register_ok.1 hread))
      rw [hvalue]
      exact hframe

theorem copy {out : Register}
    (h : m.Traverses call p [(⟨.copy, out, .register r, .none⟩, span)] κ κ')
    (hw : κ.frame[r]? = some w) : κ'.frame[out]? = some w := by
  obtain ⟨w', _, hperforms, hframe⟩ := h.single fun _ h => by cases h
  cases hperforms with
  | copy hread =>
    obtain rfl := Option.some.inj (hw.symm.trans (read_register_ok.1 hread))
    exact hframe

/-- A value stays the same when it is copied out of the way. -/
theorem stage {ty : Ty} (h : m.Traverses call p (l.stage r ty span).code κ κ')
    (hw : κ.frame[r]? = some w) : κ'.frame[(l.stage r ty span).value]? = some w := by
  unfold Layout.stage at h ⊢
  split at h
  · next hbound =>
    rw [if_pos hbound]
    exact h.copy hw
  · next hbound =>
    rw [if_neg hbound]
    obtain rfl := h.nil
    exact hw

theorem negate {kind : Kind} {out : Register}
    (h : m.Traverses call p [(⟨.negate kind, out, .register r, .none⟩, span)] κ κ')
    (hw : κ.frame[r]? = some w) : ∃ w', kind.negate w = .ok w' ∧ κ'.frame[out]? = some w' := by
  obtain ⟨w', _, hperforms, hframe⟩ := h.single fun _ h => by cases h
  cases hperforms with
  | negate hread hnegate =>
    obtain rfl := Option.some.inj (hw.symm.trans (read_register_ok.1 hread))
    exact ⟨w', hnegate, hframe⟩

end Traverses

end Machine

/-! ### What literals leave behind -/

section

variable {σ : Type} {m : Machine σ} {call : Option (Procedure → Run σ Word)}
  {κ κ' : Machine.Point σ} {n : Nat} {k : IntKind}

/-- The word of a literal is the number that it spells. -/
theorem Emits.word_of_spellsNat (hc : c.Sound) (hx : x ∈ c.tree.preorder c.root)
    (hℓ : ℓ.constants = m.program.constants) (hn : c.tree.SpellsNat x n)
    (h : Emits c ℓ x l code (some r) l') (hrun : m.Traverses call p code κ κ') :
    κ'.frame[r]? = some (UInt64.ofNat n) := by
  have hvalue := (hc.literal_of_spellsNat hx hn).1
  obtain ⟨spelling, hshape, -⟩ := hn
  have hrule := (rule_iff.1 h.ungroup).2
  rw [hshape] at hrule
  generalize hr : some r = value at hrule
  cases hrule with
  | inert hinert => cases hinert
  | literal hvalue' hindex hp =>
    obtain rfl := Option.some.inj (hvalue.symm.trans hvalue')
    obtain rfl := Option.some.inj hr
    subst hp
    exact hrun.load (hℓ ▸ hindex)

/-- A negated literal is loaded as a whole, or it is loaded and then negated. -/
theorem Emits.value_of_negated (hc : c.Sound) (hx : x ∈ c.tree.preorder c.root)
    (hℓ : ℓ.constants = m.program.constants) {op y : NodeId}
    (hshape : c.tree.shape x = .signed op y)
    (hop : c.tree.shape op = .signOp .minus) (hn : c.tree.SpellsNat y n)
    (hk : c.kindOf x = some (.int k)) (hwidth : k.width = .w64)
    (h : Emits c ℓ x l code (some r) l') (hrun : m.Traverses call p code κ κ') :
    ∃ w, κ'.frame[r]? = some w ∧ k.value w = k.wrap (-(n : Int)) := by
  have hy : y ∈ c.tree.children x := by simp [Tree.children_of_shape hshape, Shape.children]
  have hy := hc.tree.child hx hy
  have hrule := (rule_iff.1 h).2
  rw [hshape] at hrule
  generalize hr : some r = value at hrule
  cases hrule with
  | inert hinert => cases hinert
  | plus hop' =>
    rw [hop] at hop'
    cases hop'
  | folded _ hword hindex hp =>
    -- Only a negation in the range of the kind is loaded as a whole, and that is read exactly.
    obtain ⟨k', spelling, n', hk', -, hliteral, -, hlo, rfl⟩ := Lower.negatedLiteral_some hword
    obtain rfl := Kind.int.inj (Option.some.inj (hk.symm.trans hk'))
    have hnat := (hc.literal_of_spellsNat hy hn).1.symm.trans hliteral
    obtain rfl := LiteralValue.integer.inj (Option.some.inj hnat)
    obtain rfl := Option.some.inj hr
    subst hp
    refine ⟨_, hrun.load (hℓ ▸ hindex), ?_⟩
    have hfits := IntKind.fits_neg hlo
    rw [IntKind.value_ofInt hfits, IntKind.wrap_of_fits hfits]
  | minus _ _ hkind hoperand =>
    -- Otherwise the word of the literal is negated at the kind, after a conversion that keeps its
    -- bits.
    obtain rfl := Option.some.inj (hk.symm.trans hkind)
    obtain rfl := Option.some.inj hr
    cases hoperand with
    | converted hy' hp =>
      subst hp
      obtain ⟨κ₂, hrun, hnegate⟩ := hrun.append
      obtain ⟨κ₁, hload, hconvert⟩ := hrun.append
      have hword := hy'.2.word_of_spellsNat hc hy hℓ hn hload
      obtain ⟨w, hw, hframe⟩ := hnegate.negate (hconvert.convert hword)
      obtain ⟨k', hk', hwidth', -⟩ := hc.kindOf_of_spellsInt hy (.natural hn)
      have hbits : k.bits ≤ k'.bits :=
        Nat.le_of_eq (congrArg Width.bits (hwidth.trans hwidth'.symm))
      have hvalue : k.value w = -k.wrap n := by
        rw [IntKind.value_negate hw, show Kind.ofTy? (c.typeOf y) = _ from hk', hkind,
          IntKind.value_converted hbits (k'.value_ofNat n)]
      refine ⟨w, hframe, ?_⟩
      rw [← IntKind.wrap_neg_wrap, ← hvalue]
      exact (IntKind.wrap_of_fits (k.fits_wrap w.toNat)).symm

/-- **The word of what spells out an integer stands for it up to wrapping** to the kind of its
type. -/
theorem Emits.value_of_spellsInt (hc : c.Sound) (hx : x ∈ c.tree.preorder c.root)
    (hℓ : ℓ.constants = m.program.constants) {v : Int} (hv : c.tree.SpellsInt x v)
    (hk : c.kindOf x = some (.int k)) (h : Emits c ℓ x l code (some r) l')
    (hrun : m.Traverses call p code κ κ') : ∃ w, κ'.frame[r]? = some w ∧ k.value w = k.wrap v := by
  obtain ⟨k', hk', hwidth, -⟩ := hc.kindOf_of_spellsInt hx hv
  obtain rfl := Kind.int.inj (Option.some.inj (hk.symm.trans hk'))
  cases hv with
  | natural hn => exact ⟨_, h.word_of_spellsNat hc hx hℓ hn hrun, k.value_ofNat _⟩
  | negated hshape hop hn =>
    have hmem := c.tree.mem_preorder_trans hx (c.tree.ungroup_mem_preorder x)
    refine h.ungroup.value_of_negated hc hmem hℓ hshape hop hn ?_ hwidth hrun
    rw [LowerContext.kindOf, hc.typeOf_ungroup hx]
    exact hk

/-- The code of a variable with an initial value is that of the value, and what ties it to a
register. -/
theorem Emits.tied_of_var {d : NodeId} {name : String} {ty : Option NodeId}
    (hshape : c.tree.shape d = .var name ty (some x)) (h : Emits c ℓ d l code (some r) l') :
    ∃ first r₁ l₁, EmitsAs c (EmitsBelow c ℓ d) x (c.typeOf d) (c.span d) l first r₁ l₁
      ∧ code = first ++ (l₁.tie d (c.typeOf d) r₁ (c.span d)).code
      ∧ r = (l₁.tie d (c.typeOf d) r₁ (c.span d)).value
      ∧ l' = (l₁.tie d (c.typeOf d) r₁ (c.span d)).layout := by
  have hrule := (rule_iff.1 h).2
  rw [hshape] at hrule
  generalize hr : some r = value at hrule
  cases hrule with
  | inert hinert => cases hinert
  | var hdeclare =>
    cases hdeclare with
    | missing => cases hr
    | tied hinit _ hp =>
      subst hp
      exact ⟨_, _, _, hinit, rfl, Option.some.inj hr, rfl⟩

/-- A variable begins with the value of its initial expression, converted to its own kind. -/
theorem Emits.var_of_init {d : NodeId} {name : String} {ty : Option NodeId}
    (hshape : c.tree.shape d = .var name ty (some x)) (h : Emits c ℓ d l code (some r) l')
    (hrun : m.Traverses call p code κ κ') :
    ∃ first κ₁ l₁ r₁, Emits c ℓ x l first (some r₁) l₁ ∧ m.Traverses call p first κ κ₁
      ∧ ∀ w, κ₁.frame[r₁]? = some w →
          κ'.frame[r]? = some (Kind.converted (c.kindOf x) (c.kindOf d) w) := by
  obtain ⟨first, r₁, l₁, hinit, rfl, rfl, rfl⟩ := h.tied_of_var hshape
  cases hinit with
  | converted hx hp =>
    subst hp
    obtain ⟨κ₂, hrun, hstage⟩ := hrun.append
    obtain ⟨κ₁, hfirst, hconvert⟩ := hrun.append
    exact ⟨_, κ₁, _, _, hx.2, hfirst, fun w hw => hstage.stage (hconvert.convert hw)⟩

end

/-! ### Where code stands -/

/-- The code of `x` is in `p` from `start` to `stop`, and `r` is the register of its value.  What is
declared there has its register in `p`. -/
inductive StandsAt (c : LowerContext) (ℓ : Linkage) (p : Procedure) (x : NodeId) (start stop : Nat)
    (r : Register) : Prop
  /-- What the procedure has between the two positions is the code of the node. -/
  | code {l : Layout} {code : List CodeLine} {l' : Layout} (h : Emits c ℓ x l code (some r) l')
      (hcode : p.Has start code) (hstop : stop = start + code.length) (hsize : stop ≤ p.code.size)
      (hregisters : ∀ (d : NodeId) (q : Register), l'.registers[d]? = some q →
        p.registers[d]? = some q)

variable {P : Program} {start stop : Nat} {d : NodeId}

/-- What the body of a procedure uses has its code in the procedure. -/
theorem Implements.standsAt {body : NodeId} {result : Option Ty} (hP : Implements c ℓ P)
    (hbody : BodyOf c ℓ P body result p) (huses : c.Uses body x) (hvalued : c.Valued x) :
    ∃ start stop r, StandsAt c ℓ p x start stop r := by
  obtain ⟨h, rfl, hcode, hspans, hregisters, -, -, -⟩ := hP.compiles hbody
  obtain ⟨l, part, v, l', hx, ⟨before, after, rfl⟩, -, hkeeps⟩ := h.uses huses
  obtain ⟨r, rfl⟩ := Option.isSome_iff_exists.1 ((Emits.rule_iff.1 hx).1.2 hvalued)
  have hhas := (Procedure.has_of_toList hcode hspans).append.1.append.1.append.2
  have hsize := congrArg List.length hcode
  simp only [Array.length_toList, List.length_map, List.length_append] at hsize
  refine ⟨_, _, r, .code hx hhas rfl (by omega) fun d q hq => ?_⟩
  rw [hregisters, Layout.registers_convertLast]
  exact hkeeps d q hq

/-- The register of the value of a variable is that of the variable. -/
theorem StandsAt.register_of_var {name : String} {ty : Option NodeId}
    (hshape : c.tree.shape d = .var name ty (some x)) (h : StandsAt c ℓ p d start stop r) :
    p.registers[d]? = some r := by
  obtain ⟨h, -, -, -, hregisters⟩ := h
  refine hregisters d r ?_
  obtain ⟨first, r₁, l₁, -, rfl, rfl, rfl⟩ := h.tied_of_var hshape
  rw [Layout.registers_tie]
  exact Std.TreeMap.getElem?_insert_self

/-- **Code without returns is passed**, unless the run fails in it. -/
theorem Machine.crosses_has {σ : Type} (m : Machine σ) (call : Option (Procedure → Run σ Word))
    {κ : Machine.Point σ} (hcode : p.Has κ.pc code) (hsize : κ.pc + code.length ≤ p.code.size)
    (hstraight : Straight code) :
    (∃ κ', m.Reaches call p κ κ' ∧ κ'.pc = κ.pc + code.length)
      ∨ ∃ e s, m.ending call p κ = (.error e, s) := by
  refine Machine.crosses m call hsize (Nat.le_add_right _ _) fun pc i hle hlt hi => ?_
  have hline := List.getElem?_eq_getElem (l := code) (show pc - κ.pc < code.length by omega)
  have hi' := (hcode _ _ hline).1
  rw [Nat.add_sub_cancel' hle, hi] at hi'
  obtain rfl := Option.some.inj hi'
  exact hstraight _ (List.mem_of_getElem? hline)

/-! ### Programs -/

/-- Every run over the code of `x` ends with a word for the integer `v` in the register of the
value, unless it fails. -/
def ComputesInt (c : LowerContext) (ℓ : Linkage) (P : Program) (x : NodeId) (K : Kind) (v : Int) :
    Prop :=
  ∀ (p : Procedure) (start stop : Nat) (r : Register), StandsAt c ℓ p x start stop r →
    ∀ (σ : Type) (m : Machine σ) (call : Option (Procedure → Run σ Word)), m.program = P →
      ∀ κ : Machine.Point σ, κ.pc = start →
        ((∃ κ', m.Reaches call p κ κ' ∧ κ'.pc = stop) ∨ ∃ e s, m.ending call p κ = (.error e, s))
          ∧ ∀ κ', m.Reaches call p κ κ' → κ'.pc = stop →
              ∃ w, κ'.frame[r]? = some w ∧ K.Denotes w v

/-- What code leaves behind whenever it is passed. -/
theorem ComputesInt.of_traverses {K : Kind} {v : Int} (hc : c.Sound) (hx : c.IsPart x)
    (h : ∀ (l : Layout) (code : List CodeLine) (l' : Layout) (r : Register) (p : Procedure),
      Emits c ℓ x l code (some r) l' → ∀ (σ : Type) (m : Machine σ)
        (call : Option (Procedure → Run σ Word)) (κ κ' : Machine.Point σ), m.program = P →
        m.Traverses call p code κ κ' → ∃ w, κ'.frame[r]? = some w ∧ K.Denotes w v) :
    ComputesInt c ℓ P x K v := by
  rintro p _ _ r ⟨hemits, hcode, rfl, hsize, -⟩ σ m call hm κ rfl
  exact ⟨m.crosses_has call hcode hsize (hemits.straight hc hx), fun κ' hreach hpc =>
    h _ _ _ r p hemits σ m call κ κ' hm ⟨hcode, hreach, hpc⟩⟩

/-- The code of `x` is in some procedure of the program. -/
def HasCode (c : LowerContext) (ℓ : Linkage) (P : Program) (x : NodeId) : Prop :=
  ∃ body result p start stop r, BodyOf c ℓ P body result p ∧ StandsAt c ℓ p x start stop r

theorem LowerContext.valued_of_spellsInt {v : Int} (h : c.tree.SpellsInt x v) : c.Valued x := by
  refine valued_of_ungroup ?_
  rcases h.ungroup_cases with ⟨lit, hshape⟩ | ⟨op, y, hshape⟩
  · exact .literal hshape
  · exact .signed hshape

/-- What spells out an integer has code of its own, unless its negation is loaded as a whole. -/
theorem Implements.hasCode_of_spellsInt (hc : c.Sound) (hP : Implements c ℓ P)
    (hx : x ∈ c.tree.preorder c.root) {v : Int} (h : c.tree.SpellsInt x v) :
    HasCode c ℓ P x ∨ c.IsFolded x := by
  rcases hP.uses_or_silent hc hx with ⟨body, result, p, hbody, huses⟩ | ⟨y, hy, hsilent, hxy⟩
  · obtain ⟨start, stop, r, hstands⟩ := hP.standsAt hbody huses (c.valued_of_spellsInt h)
    exact .inl ⟨body, result, p, start, stop, r, hbody, hstands⟩
  · rcases hc.silent_cases hy hsilent hxy with hinert | hslot | hident | hfolded
    · rw [h.class_eq (f := Shape.isInert) (fun _ => rfl) (fun _ => rfl) fun _ _ => rfl] at hinert
      cases hinert
    · rw [h.class_eq (f := Shape.isSlot) (fun _ => rfl) (fun _ => rfl) fun _ _ => rfl] at hslot
      cases hslot
    · rcases h.ungroup_cases with ⟨lit, hshape⟩ | ⟨op, z, hshape⟩ <;> rw [hshape] at hident <;>
        cases hident
    · exact .inr hfolded

/-- A variable with an initial value has code. -/
theorem Implements.hasCode_var (hc : c.Sound) (hP : Implements c ℓ P)
    (hd : d ∈ c.tree.preorder c.root) {name : String} {ty : Option NodeId}
    (hshape : c.tree.shape d = .var name ty (some x)) (hvalued : c.Valued x) : HasCode c ℓ P d := by
  obtain ⟨body, result, p, hbody, huses⟩ :=
    hP.used hc hd (by rw [hshape]; rfl) (by rw [hshape]; rfl)
    (by simp [hshape]) (by rw [hshape]; rfl) (by simp [hshape])
  obtain ⟨start, stop, r, hstands⟩ := hP.standsAt hbody huses (.var hshape hvalued)
  exact ⟨body, result, p, start, stop, r, hbody, hstands⟩

/-- What spells out an integer is read as that integer, wrapped to the kind of its type. -/
theorem Implements.computes_spelled (hc : c.Sound) (hP : Implements c ℓ P)
    (hx : x ∈ c.tree.preorder c.root) {v : Int} {k : IntKind} (h : c.tree.SpellsInt x v)
    (hk : c.kindOf x = some (.int k)) : ComputesInt c ℓ P x (.int k) (k.wrap v) := by
  have hpart : c.IsPart x := ⟨hx, h.class_eq (fun _ => rfl) (fun _ => rfl) (fun _ _ => rfl)⟩
  refine .of_traverses hc hpart fun l code l' r p hemits σ m call κ κ' hm hrun => ?_
  exact hemits.value_of_spellsInt hc hx (hP.constants.trans (by rw [hm])) h hk hrun

/-- A variable that begins with an integer written out holds what its kind can hold of it: the
integer itself, if the kind of the literal has kept it or that of the variable is one of integers
too. -/
theorem Implements.computes_var (hc : c.Sound) (hP : Implements c ℓ P)
    (hx : x ∈ c.tree.preorder c.root) (hd : d ∈ c.tree.preorder c.root) {name : String}
    {ty : Option NodeId} (hshape : c.tree.shape d = .var name ty (some x)) {v u : Int} {k : IntKind}
    {K : Kind} (h : c.tree.SpellsInt x v) (hk : c.kindOf x = some (.int k))
    (hK : c.kindOf d = some K) (hu : K.Represents u)
    (hkept : u = k.wrap v ∨ u = v ∧ K.isFloat = false) : ComputesInt c ℓ P d K u := by
  have hpart : c.IsPart d := ⟨hd, by rw [hshape]; rfl⟩
  refine .of_traverses hc hpart fun l code l' r p hemits σ m call κ κ' hm hrun => ?_
  obtain ⟨first, κ₁, l₁, r₁, hinit, hfirst, hvalue⟩ := hemits.var_of_init hshape hrun
  obtain ⟨w, hframe, hw⟩ :=
    hinit.value_of_spellsInt hc hx (hP.constants.trans (by rw [hm])) h hk hfirst
  refine ⟨_, hvalue w hframe, ?_⟩
  rw [hk, hK]
  rcases hkept with rfl | ⟨rfl, hfloat⟩
  · exact Kind.denotes_converted hw hu
  · -- The kind of the literal has the full width, so wrapping to it loses nothing an integer kind
    -- keeps.
    cases K with
    | float f => cases hfloat
    | int b =>
      obtain ⟨k', hk', hwidth, -⟩ := hc.kindOf_of_spellsInt hx h
      obtain rfl := Kind.int.inj (Option.some.inj (hk.symm.trans hk'))
      have hbits : b.bits ≤ k.bits := by
        rw [show k.bits = 64 from congrArg Width.bits hwidth]
        exact b.width.bits_le
      show b.value _ = _
      rw [IntKind.value_converted hbits hw, IntKind.wrap_of_fits (IntKind.represents_iff.1 hu)]

/-- How a program keeps the integer `v` that `x` spells out: as one of the kind `k`. -/
structure KeepsInt (c : LowerContext) (ℓ : Linkage) (P : Program) (x : NodeId) (v : Int)
    (k : IntKind) : Prop where
  /-- The expression has this kind. -/
  kind : c.kindOf x = some (.int k)
  /-- It is one of 64 bits. -/
  width : k.width = .w64
  /-- It has no sign exactly if the literal is octal. -/
  sign : k.isSigned = false ↔ c.tree.SpellsOctal x
  /-- Exactly what the kind can hold is kept. -/
  kept : k.wrap v = v ↔ k.fits v = true
  /-- The expression has code, or has been folded into a load. -/
  placed : HasCode c ℓ P x ∨ c.IsFolded x
  /-- That code computes the integer, wrapped as the kind does. -/
  computes : ComputesInt c ℓ P x (.int k) (k.wrap v)
  /-- A variable that begins with `x` has a register of its own. -/
  varPlaced : ∀ d ∈ c.tree.preorder c.root, ∀ name ty, c.tree.shape d = .var name ty (some x) →
    HasCode c ℓ P d ∧ ∀ p start stop r, StandsAt c ℓ p d start stop r → p.registers[d]? = some r
  /-- It gets there what the expression is read as, or the integer that was meant if it holds
  integers, provided that it can hold that. -/
  varComputes : ∀ d ∈ c.tree.preorder c.root, ∀ name ty K,
    c.tree.shape d = .var name ty (some x) → c.kindOf d = some K → ∀ u, K.Represents u →
      u = k.wrap v ∨ u = v ∧ K.isFloat = false → ComputesInt c ℓ P d K u

/-- **What compiled code makes of an integer that is written out.**  The kind of its type has the
full width and a sign, unless the literal is octal.  It keeps the integer exactly if it can hold it,
and reads it wrapped otherwise.  The same integer is in a variable that begins with it and can hold
it; a variable of integers that can hold the integer that was meant has this one. -/
theorem compile_spelled {t : Tree} {links : Links} {root : NodeId} {source : String}
    {config : CompilerConfig} {compiled : Compiled} (ht : t.WellFormed root)
    (h : compile t links root source config = .ok compiled) :
    ∃ a ℓ, Analysis.ofTree t links root = .ok a
      ∧ Implements (a.lowerContext t root config.registerLimit) ℓ compiled.program
      ∧ ∀ x ∈ t.preorder root, ∀ v, t.SpellsInt x v →
          ∃ k, KeepsInt (a.lowerContext t root config.registerLimit) ℓ compiled.program x v k := by
  obtain ⟨a, ha, hc, ℓ, hP⟩ := compile_implements ht h
  refine ⟨a, ℓ, ha, hP, fun x hx v hv => ?_⟩
  obtain ⟨k, hk, hwidth, hsign⟩ := hc.kindOf_of_spellsInt hx hv
  exact ⟨k,
    { kind := hk
      width := hwidth
      sign := hsign
      kept := IntKind.wrap_eq_iff
      placed := hP.hasCode_of_spellsInt hc hx hv
      computes := hP.computes_spelled hc hx hv hk
      varPlaced := fun d hd name ty hshape =>
        ⟨hP.hasCode_var hc hd hshape (LowerContext.valued_of_spellsInt hv),
          fun p start stop r hstands => hstands.register_of_var hshape⟩
      varComputes := fun d hd name ty K hshape hK u hu hkept =>
        hP.computes_var hc hx hd hshape hv hk hK hu hkept }⟩

/-- A completed activation without returns has been everywhere in the code. -/
theorem Machine.reaches_of_ending {σ : Type} {m : Machine σ}
    {call : Option (Procedure → Run σ Word)} {κ : Machine.Point σ} {w : Word} {frame : RegisterFile}
    {s : MachineState σ} (h : m.ending call p κ = (.ok (w, frame), s))
    (hcode : ∀ i ∈ p.code, i.op ≠ .ret) {pc : Nat} (hle : κ.pc ≤ pc) (hpc : pc ≤ p.code.size) :
    ∃ κ', m.Reaches call p κ κ' ∧ κ'.pc = pc ∧ m.ending call p κ' = (.ok (w, frame), s) := by
  obtain ⟨κ₁, hreach, hends⟩ := Machine.reaches_end h
  cases hends with
  | falls hsize =>
    obtain ⟨κ', hto, hpc', -⟩ := hreach.through pc hle (Nat.le_trans hpc hsize)
    exact ⟨κ', hto, hpc', hto.ending_eq ▸ h⟩
  | leaves hi hperforms =>
    exact (hcode _ (Array.mem_of_getElem? hi) (hperforms.leaves_iff.1 ⟨_, rfl⟩)).elim

/-- An activation without returns that ends well has read the integer on its way. -/
theorem ComputesInt.read_of_ending {K : Kind} {v : Int} {σ : Type} {m : Machine σ}
    {call : Option (Procedure → Run σ Word)} {w : Word} {frame : RegisterFile}
    {s₀ s : MachineState σ} (hreads : ComputesInt c ℓ m.program x K v)
    (hstands : StandsAt c ℓ p x start stop r) (hcode : ∀ i ∈ p.code, i.op ≠ .ret)
    (hends : m.ending call p (.start p s₀) = (.ok (w, frame), s)) :
    ∃ κ w, m.Reaches call p (.start p s₀) κ ∧ κ.frame[r]? = some w ∧ K.Denotes w v := by
  have hle : start ≤ stop ∧ stop ≤ p.code.size := by
    obtain ⟨-, -, rfl, hsize, -⟩ := hstands
    exact ⟨Nat.le_add_right _ _, hsize⟩
  -- The run comes to the beginning of the code first, and from there to its end.
  obtain ⟨κ₁, hto, hpc, hending⟩ :=
    Machine.reaches_of_ending hends hcode (Nat.zero_le start) (Nat.le_trans hle.1 hle.2)
  obtain ⟨κ, hfrom, hpc', -⟩ :=
    Machine.reaches_of_ending hending hcode (by rw [hpc]; exact hle.1) hle.2
  obtain ⟨w, hw, hdenotes⟩ := (hreads p start stop r hstands σ m call rfl κ₁ hpc).2 κ hfrom hpc'
  exact ⟨κ, w, hto.trans hfrom, hw, hdenotes⟩

/-- `x : float64 = -9223372036854775808` -/
def Tree.negatesLeast : Tree where
  nodes :=
    #[⟨.literal (.number "9223372036854775808"), .nowhere⟩, ⟨.signOp .minus, .nowhere⟩,
      ⟨.signed 1 0, .nowhere⟩, ⟨.typeName "float64", .nowhere⟩,
      ⟨.var "x" (some 3) (some 2), .nowhere⟩, ⟨.module [4], .nowhere⟩]
  children_lt := by decide

/-- The variable of `negatesLeast` is the least integer of 64 bits where it has been given its
value. -/
theorem Tree.negatesLeast_read :
    ∃ compiled, compile .negatesLeast (.unset 6) 5 "" .unlimited = .ok compiled
      ∧ ∃ p r κ w, p ∈ compiled.program.procedures ∧ p.registers[4]? = some r
        ∧ compiled.machine.Reaches (compiled.machine.calls 2) p (.start p (.initial ())) κ
        ∧ κ.frame[r]? = some w ∧ Kind.f64.Denotes w (-9223372036854775808) := by
  -- What has to be run: the tree compiles, and every procedure is left at its end only.
  have hok : (compile .negatesLeast (.unset 6) 5 "" .unlimited).toOption.any (fun compiled =>
      compiled.program.procedures.all fun p => (p.code.all fun i => decide (i.op ≠ .ret))
        && (compiled.completes p).isSome) = true := by decide +kernel
  have htypes : (Analysis.ofTree .negatesLeast (.unset 6) 5).toOption.any (fun a =>
      Kind.ofTy? (a.typing.typeOf 2) == some .i64 && Kind.ofTy? (a.typing.typeOf 4) == some .f64)
      = true := by decide +kernel
  obtain ⟨compiled, h, hok⟩ := Runs.exists_of_any hok
  obtain ⟨a, ℓ, ha, -, hspelled⟩ := compile_spelled (by decide +kernel) h
  simp only [ha, Except.toOption, Option.any_some, Bool.and_eq_true, beq_iff_eq] at htypes
  obtain ⟨k, hkept⟩ := hspelled 2 (show 2 ∈ Tree.negatesLeast.preorder 5 by decide +kernel)
    (-9223372036854775808) (@Tree.SpellsInt.negated _ _ 1 0 9223372036854775808 (by decide +kernel)
      rfl ⟨"9223372036854775808", by decide +kernel, .inl rfl⟩)
  obtain rfl : ⟨true, .w64⟩ = k :=
    Kind.int.inj (Option.some.inj (htypes.1.symm.trans hkept.kind))
  -- The variable is in the code, which reads the literal at the kind of its type.
  have hmem : 4 ∈ Tree.negatesLeast.preorder 5 := by decide +kernel
  obtain ⟨⟨body, result, p, start, stop, r, hbody, hstands⟩, hregister⟩ :=
    hkept.varPlaced 4 hmem "x" (some 3) rfl
  have hreads := hkept.varComputes 4 hmem "x" (some 3) .f64 rfl htypes.2 (-9223372036854775808)
    ⟨0xc3e0000000000000, by decide +kernel⟩ (.inl (by decide +kernel))
  have hrun := Array.all_eq_true'.1 hok p hbody.mem
  simp only [Bool.and_eq_true, Array.all_eq_true', decide_eq_true_eq] at hrun
  obtain ⟨⟨w, frame⟩, hcompletes⟩ := Option.isSome_iff_exists.1 hrun.2
  obtain ⟨s, hexecute⟩ := compiled.execute_of_completes hcompletes
  rw [Machine.execute_ending] at hexecute
  obtain ⟨κ, x, hreaches, hx, hdenotes⟩ := hreads.read_of_ending (m := compiled.machine) hstands
    hrun.1 hexecute
  exact ⟨compiled, h, p, r, κ, x, hbody.mem, hregister p start stop r hstands, hreaches, hx,
    hdenotes⟩

/-- `x : float64 = 9223372036854775808` -/
def Tree.exceedsGreatest : Tree where
  nodes :=
    #[⟨.literal (.number "9223372036854775808"), .nowhere⟩, ⟨.typeName "float64", .nowhere⟩,
      ⟨.var "x" (some 1) (some 0), .nowhere⟩, ⟨.module [2], .nowhere⟩]
  children_lt := by decide

/-- The start of the program runs to its end without a return, and then the variable `d` has a word
that is read as the integer `v` or not, as `b` says. -/
def Compiled.endsReading (compiled : Compiled) (d : NodeId) (K : Kind) (v : Int) (b : Bool) :
    Bool :=
  (compiled.program.procedures[0]?).any fun p =>
    (compiled.completes p).any fun (_, frame) =>
      (p.registers[d]?).any fun r => (frame[r]?).any fun w => decide (K.Denotes w v) == b

/-- **A float that begins with an integer of the upper half has another value.**  The run of
`exceedsGreatest` ends well, and although a float can hold the integer, `x` is something else. -/
theorem Tree.exceedsGreatest_misread :
    Tree.exceedsGreatest.SpellsInt 0 9223372036854775808
      ∧ Kind.f64.Represents 9223372036854775808
      ∧ ∃ compiled, compile .exceedsGreatest (.unset 4) 3 "" .unlimited = .ok compiled
        ∧ ∃ p w frame r x s, compiled.program.procedures[0]? = some p
          ∧ (compiled.machine.execute 2 p).run (.initial ()) = (.ok (w, frame), s)
          ∧ p.registers[2]? = some r ∧ frame[r]? = some x
          ∧ ¬Kind.f64.Denotes x 9223372036854775808 := by
  refine ⟨.natural (n := 9223372036854775808) ⟨"9223372036854775808", by decide +kernel,
      .inl rfl⟩, ⟨0x43e0000000000000, by decide +kernel⟩, ?_⟩
  have hok : (compile .exceedsGreatest (.unset 4) 3 "" .unlimited).toOption.any
      (·.endsReading 2 .f64 9223372036854775808 false) = true := by decide +kernel
  obtain ⟨compiled, h, hok⟩ := Runs.exists_of_any hok
  simp only [Compiled.endsReading, Option.any_eq_true] at hok
  obtain ⟨p, hp, ⟨w, frame⟩, hcompletes, r, hr, x, hx, hread⟩ := hok
  obtain ⟨s, hexecute⟩ := compiled.execute_of_completes hcompletes
  exact ⟨compiled, h, p, w, frame, r, x, s, hp, hexecute, hr, hx, by simpa using hread⟩

end MiddleEnd
