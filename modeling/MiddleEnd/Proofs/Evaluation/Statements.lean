import MiddleEnd.Proofs.Evaluation.Expressions
import MiddleEnd.Proofs.Lowering.Kinds

/-!
# Statements

The code of a declaration or a statement simulates its execution.  What a declaration is tied to is
a register of its own, and staged values are out of the way of all stores, so that a store changes
one declaration only.

## Main definitions

* `Machine.Leaves` — where a procedure is left before its end.
* `Machine.SimulatesItem` — code of a statement that simulates it.

## Main results

* `Machine.Simulates.stage`, `Machine.Simulates.tie`, `Machine.Simulates.store`,
  `Machine.Simulates.storeAll` — the pieces of code that declarations and statements are made of.
* `Emits.simulatesItem` — the code of every declaration and of every statement simulates it.
-/

namespace MiddleEnd

open RegisterFile Layout

/-- A value of type `ty` that is in no home has just been written. -/
def Layout.JustWritten (l : Layout) (r : Register) (ty : Ty) : Prop :=
  l.bound.contains r = false → r = l.lastRegister ∧ Kind.ofTy? l.lastTy = Kind.ofTy? ty

namespace Machine

/-- The procedure is left at a place of its code from which the layout `l'` is reached. -/
def Leaves (l' : Layout) : Word → Activation → RegisterFile → Prop :=
  fun _ a fr => ∃ l, Represents l a fr ∧ l.Extends l'

theorem Leaves.mono {l l' : Layout} (h : l.Extends l') (w : Word) (a : Activation)
    (fr : RegisterFile) (hleaves : Leaves l w a fr) : Leaves l' w a fr := by
  obtain ⟨l₁, hrep, hextends⟩ := hleaves
  exact ⟨l₁, hrep, hextends.trans h⟩

variable {σ : Type} {m : Machine σ} {c : LowerContext} {call : Option (Procedure → Run σ Word)}
  {evalCall : NodeId → Span → Except Breakdown Word} {p : Procedure} {a : Activation}
  {fr : RegisterFile} {l l' : Layout} {code : List CodeLine}
  {exit : Word → Activation → RegisterFile → Prop} {w : Word} {r : Register} {d : NodeId}

/-! ### Pieces -/

section Pieces

variable (hp : p.WellFormed m.program) (hl : l.Ordered)

include hp hl

/-- A value that is moved out of a home, or stays where it has just been written. -/
theorem Simulates.stage {ty : Ty} (hr : JustWritten l r ty) (span : Span) :
    m.Simulates call p a fr (Eval.remember (fr.word r) (Kind.ofTy? ty)) l (l.stage r ty span).code
      (l.stage r ty span).layout
      (fun v fr' => v = fr'.word (l.stage r ty span).value ∧ AgreeBelow l.next fr fr') exit := by
  unfold Layout.stage
  cases hbound : l.bound.contains r with
  | true =>
    refine (Simulates.computed hp hl ty span rfl fun hfits site s => ?_).mono
      (fun v fr' ⟨hv, hw, hagree⟩ => ⟨hv.trans hw.symm, hagree⟩) fun _ _ _ h => h
    cases hfits with
    | copy _ hr => exact .copy (read_word hr)
  | false =>
    obtain ⟨rfl, hkind⟩ := hr hbound
    refine .intro fun _ hrep => ?_
    -- The value is the one written last, so remembering it changes nothing.
    have hsame : ({ a with last := fr.word l.lastRegister, lastKind := Kind.ofTy? ty } : Activation)
        = a := by rw [hrep.last, ← hkind, ← hrep.lastKind]
    have hrun : (Eval.remember (fr.word l.lastRegister) (Kind.ofTy? ty)).run a
        = (.ok (fr.word l.lastRegister), a) := congrArg (Prod.mk _) hsame
    exact (silent hrun rfl id).mono
      (fun v fr' ⟨hv, hfr⟩ => ⟨by rw [hv, hfr]; rfl, hfr ▸ .refl⟩) fun _ _ _ h => h

/-- A declaration gets its home. -/
theorem Simulates.tie {ty : Ty} (hr : JustWritten l r ty) (span : Span) :
    m.Simulates call p a fr
      (do
        let w ← Eval.remember (fr.word r) (Kind.ofTy? ty)
        Eval.declare d w
        return some w)
      l (l.tie d ty r span).code (l.tie d ty r span).layout (fun _ _ => True) exit := by
  have hcode : (l.tie d ty r span).code = (l.stage r ty span).code ++ [] := (List.append_nil _).symm
  rw [hcode]
  refine .bind (Simulates.stage hp hl hr span) fun v a₁ fr₁ ⟨hv, _⟩ => ?_
  subst hv
  exact Simulates.mono (silent rfl rfl Represents.withHome) (fun _ _ _ => trivial) fun _ _ _ h => h

omit hp in
/-- A declaration without a value begins with zero, which is in all registers not given out yet. -/
theorem Simulates.fresh (ty : Ty) (span : Span) :
    m.Simulates call p a fr
      (do
        Eval.declare d 0
        return some (0 : Word))
      l (l.reserved.tie d ty l.next span).code (l.reserved.tie d ty l.next span).layout
      (fun _ _ => True) exit := by
  unfold Layout.tie
  rw [hl.stage_next]
  refine .intro fun _ hrep => ?_
  have hhome := hrep.reserved.withHome (d := d) (r := l.next)
  rw [hrep.fresh l.next (Nat.le_refl _)] at hhome
  exact Simulates.mono (silent rfl rfl fun _ => hhome) (fun _ _ _ => trivial) fun _ _ _ h => h

/-- A declaration gets a new word in its home. -/
theorem Simulates.copyHome {q : Register} (hq : l.registers[d]? = some q) (ty : Ty) (span : Span) :
    m.Simulates call p a fr
      (do
        Eval.declare d (fr.word r)
        discard (Eval.remember (fr.word r) (Kind.ofTy? ty)))
      l [(⟨.copy, q, .register r, .none⟩, span)] (l.wrote q ty)
      (fun _ fr' => ∀ s, s ≠ q → fr'.word s = fr.word s) exit := by
  refine .of_fits hp fun hfits => ?_
  cases hfits with
  | copy hout hr =>
    refine Simulates.mono (write rfl (show _ = fr.word r from rfl) hout
      (fun site s => .copy (read_word hr)) fun fr' hfr' hrep => hrep.stored hl ty hq hfr')
      (fun _ fr' hfr' s hs => ?_) fun _ _ _ h => h
    rw [hfr'.2, if_neg hs]

/-- A variable gets a new word, if it has a home. -/
theorem Simulates.store (target : NodeId) (span : Span) :
    m.Simulates call p a fr (Eval.store c target (fr.word r)) l
      (l.store (l.home c target) r (c.typeOf target) span).code
      (l.store (l.home c target) r (c.typeOf target) span).layout
      (fun _ fr' => ∀ q, l.bound.contains q = false → fr'.word q = fr.word q) exit := by
  unfold Eval.store Layout.store Layout.home
  cases hdecl : c.resolution.declaration? (c.tree.ungroup target) with
  | none => exact .pure fun _ _ => rfl
  | some decl =>
    rw [Option.bind_some]
    refine .get (.intro fun _ hrep => ?_)
    cases hq : l.registers[decl]? with
    | none =>
      simp only [hrep.word_absent hq]
      exact .pure fun _ _ => rfl
    | some q =>
      simp only [hrep.word_home hq]
      refine Simulates.mono (Simulates.copyHome hp hl hq (c.typeOf target) span)
        (fun _ fr' hfr' s hs => hfr' s fun heq => ?_) fun _ _ _ h => h
      rw [heq, hl.bound decl q hq] at hs
      cases hs

/-- A staged value is converted and stored; other staged values stay as they are. -/
theorem Simulates.unstage (target value : NodeId) (r : Register) :
    let q := l.convert r (c.typeOf value) (c.typeOf target) (c.span target)
    let s := q.layout.store (q.layout.home c target) q.value (c.typeOf target) (c.span target)
    m.Simulates call p a fr (Eval.unstage c target value (some (fr.word r))) l (q.code ++ s.code)
      s.layout (fun _ fr' => ∀ q < l.next, l.bound.contains q = false → fr'.word q = fr.word q)
      exit := by
  have hconvert := hl.convert r (c.typeOf value) (c.typeOf target) (c.span target)
  refine .bind (Simulates.convert hp hl r (c.typeOf value) (c.typeOf target) (c.span target))
    fun v a₁ fr₁ ⟨hv, hagree⟩ => ?_
  subst hv
  refine Simulates.mono (Simulates.store hp hconvert.ordered target (c.span target))
    (fun _ fr' hstore q hlt hfree => ?_) fun _ _ _ h => h
  rw [hstore q (by rw [hconvert.bound, hfree]), hagree q hlt]

/-- Staged values are converted and stored one after the other. -/
theorem Simulates.storeAll (W : Register → Word)
    {staged : List (NodeId × NodeId × Option Register)}
    (hstaged : ∀ e ∈ staged, ∀ r, e.2.2 = some r →
      fr.word r = W r ∧ r < l.next ∧ l.bound.contains r = false) :
    m.Simulates call p a fr
      (staged.forM fun e => Eval.unstage c e.1 e.2.1 (e.2.2.map W)) l (l.storeAll c staged).1
      (l.storeAll c staged).2 (fun _ _ => True) exit := by
  induction staged generalizing l a fr with
  | nil => exact .pure trivial
  | cons e rest ih =>
    obtain ⟨target, value, v⟩ := e
    cases v with
    | none => exact ih hl fun e he => hstaged e (.tail _ he)
    | some r =>
      obtain ⟨hw, -⟩ := hstaged _ (.head _) r rfl
      have hunstage := hl.unstage (c := c) target value r
      simp only [Layout.storeAll, List.forM_eq_forM, List.forM_cons, Option.map_some, ← hw]
      refine .bind (Simulates.unstage hp hl target value r) fun _ a₁ fr₁ hsame => ?_
      refine ih hunstage.ordered fun e he r hr => ?_
      -- The other staged values are in no home, so the store does not change them.
      obtain ⟨hw, hlt, hfree⟩ := hstaged e (.tail _ he) r hr
      refine ⟨(hsame r hlt hfree).trans hw, Nat.lt_of_lt_of_le hlt hunstage.next_le, ?_⟩
      rw [hunstage.bound, hfree]

/-- A value is converted to the declared result, if one is declared. -/
theorem Simulates.convertResult (r : Register) (source : Ty) (result : Option Ty) (span : Span) :
    m.Simulates call p a fr
      (Eval.convert (fr.word r) (Kind.ofTy? source) (result.bind Kind.ofTy?)) l
      (l.convertResult r source result span).code (l.convertResult r source result span).layout
      (fun v fr' => v = fr'.word (l.convertResult r source result span).value) exit := by
  cases result with
  | none =>
    unfold Eval.convert
    cases Kind.ofTy? source <;> exact .pure rfl
  | some τ =>
    exact Simulates.mono (Simulates.convert hp hl r source τ span) (fun _ _ h => h.1)
      fun _ _ _ h => h

end Pieces

end Machine

/-! ### Rules -/

section Rules

open Machine

variable {σ : Type} {m : Machine σ} {c : LowerContext} {ℓ : Linkage}
  {call : Option (Procedure → Run σ Word)} {evalCall : NodeId → Span → Except Breakdown Word}
  {p : Procedure} {id x : NodeId} {l l' : Layout} {code : List CodeLine} {r : Register}
  {v : Option Register} {K : RegisterKinds} {ρ : Option Kind} {emits : Emission}

/-- A value in no home is the one written last, with the kind of its register. -/
theorem Layout.JustWritten.of_gives {ty : Ty} (hr : Gives l l' r) (hK : l'.Kinded c K)
    (hkept : KeptAs K r (Kind.ofTy? ty)) : JustWritten l' r ty := by
  intro hfree
  have hlast := hr.last hfree
  refine ⟨hlast, ?_⟩
  have hkind := hK.last (hlast ▸ hkept.1)
  rw [← hlast, hkept.2] at hkind
  exact (Option.some.inj hkind).symm

/-- What is known of the code of an expression. -/
structure ExprCode (m : Machine σ) (c : LowerContext) (ℓ : Linkage)
    (call : Option (Procedure → Run σ Word)) (evalCall : NodeId → Span → Except Breakdown Word)
    (p : Procedure) (ρ : Option Kind) (id : NodeId) (l : Layout) (code : List CodeLine)
    (v : Option Register) (l' : Layout) : Prop where
  /-- Its value is where the layout says. -/
  computes : ComputesNode id l code v l'
  /-- It does what the evaluation of the expression does. -/
  simulates : m.SimulatesNode c call evalCall p id l code v l'
  /-- It keeps to the kinds, and its value has the kind of the node. -/
  typed : TypesNode c ℓ ρ id l code v l'

/-- A node without a value gives none to be converted. -/
theorem ExprCode.operand_none (h : ExprCode m c ℓ call evalCall p ρ x l code none l')
    (hl : l.Ordered) (kind : Option Kind) (a : Activation) (fr : RegisterFile) :
    m.Simulates call p a fr (Eval.operand c (Eval.node c evalCall) x kind) l code l'
      (fun w _ => w = none) NoExit := by
  rw [← List.append_nil code]
  refine .bind (h.simulates hl a fr) fun w a₁ fr₁ ⟨hw, _⟩ => ?_
  subst hw
  exact .pure rfl

/-- A node without a value gives none to be stored. -/
theorem ExprCode.stage_none (h : ExprCode m c ℓ call evalCall p ρ x l code none l')
    (hl : l.Ordered) (a : Activation) (fr : RegisterFile) :
    m.Simulates call p a fr (Eval.stage c (Eval.node c evalCall) x) l code l'
      (fun w fr' => w = none ∧ AgreeBelow l.next fr fr') NoExit := by
  rw [← List.append_nil code]
  refine .bind (h.simulates hl a fr) fun w a₁ fr₁ ⟨hw, hagree⟩ => ?_
  subst hw
  exact .pure ⟨rfl, hagree⟩

/-- A value that is converted is just written, if it is in no home. -/
theorem EmitsAs.justWritten {dest : Ty} {span : Span}
    (hx : ∀ l code v l', emits x l code v l' → ExprCode m c ℓ call evalCall p ρ x l code v l')
    (hkind : (c.typeOf x).hasKind = dest.hasKind)
    (h : EmitsAs c emits x dest span l code r l') (hl : l.Ordered) (hK : l.Kinded c K) :
    JustWritten l' r dest := by
  obtain ⟨-, hgives⟩ := h.computes (fun l code v l' h => (hx l code v l' h).computes) hl
  cases h with
  | converted h hq =>
    subst hq
    obtain ⟨K₁, hcode, hvalue⟩ := (hx _ _ _ _ h).typed K hK
    obtain ⟨K', hconvert, hkept⟩ := hcode.layout.convert ℓ ρ span (hvalue _ rfl) hkind
    exact .of_gives hgives hconvert.layout hkept

variable (hp : p.WellFormed m.program)

include hp

theorem EmitsDeclare.simulates
    (hx : ∀ l code v l', emits x l code v l' → ExprCode m c ℓ call evalCall p ρ x l code v l')
    (hkind : (c.typeOf x).hasKind = (c.typeOf id).hasKind)
    (h : EmitsDeclare c emits id x l code v l') (hl : l.Ordered) (hK : l.Kinded c K)
    (a : Activation) (fr : RegisterFile) :
    m.Simulates call p a fr (Eval.declareRule c (Eval.node c evalCall) id x) l code l'
      (fun _ _ => True) NoExit := by
  cases h with
  | missing h =>
    rw [← List.append_nil code]
    refine .bind ((hx _ _ _ _ h).operand_none hl _ a fr) fun w a₁ fr₁ hw => ?_
    subst hw
    exact .pure trivial
  | @tied code r l₁ q h hnew hq =>
    subst hq
    obtain ⟨hcomputes, -⟩ := h.computes (fun l code v l' h => (hx l code v l' h).computes) hl
    have hjust := h.justWritten hx hkind hl hK
    have hbelow (l code v l') (h : emits x l code v l') :=
      And.intro (hx l code v l' h).computes (hx l code v l' h).simulates
    refine .bind (h.simulates hp hbelow hl a fr) fun w a₁ fr₁ ⟨hw, _⟩ => ?_
    subst hw
    exact Simulates.tie hp hcomputes.ordered hjust (c.span id)

/-- A value of a parallel assignment. -/
theorem ExprCode.simulates_stage (h : ExprCode m c ℓ call evalCall p ρ x l code (some r) l')
    (hl : l.Ordered) (hK : l.Kinded c K) (a : Activation) (fr : RegisterFile) :
    let q := l'.stage r (c.typeOf x) (c.span x)
    m.Simulates call p a fr (Eval.stage c (Eval.node c evalCall) x) l (code ++ q.code) q.layout
      (fun w fr' => w = some (fr'.word q.value) ∧ AgreeBelow l.next fr fr') NoExit := by
  obtain ⟨hcomputes, hgives⟩ := h.computes hl
  obtain ⟨K₁, hcode, hkept⟩ := h.typed K hK
  refine .bind (h.simulates hl a fr) fun w a₁ fr₁ ⟨hw, hagree⟩ => ?_
  subst hw
  refine .map (Simulates.mono
    (Simulates.stage hp hcomputes.ordered (.of_gives (hgives r rfl) hcode.layout (hkept r rfl))
      (c.span x))
    (fun v fr' ⟨hv, hagree'⟩ => ⟨congrArg some hv, hagree.trans hcomputes.next_le hagree'⟩)
    fun _ _ _ h => h)

omit hp in
/-- Staged values are in new registers, out of the way of all stores. -/
theorem EmitsStages.free {xs : List NodeId} {vs : List (Option Register)}
    (hxs : ∀ x ∈ xs, ∀ l code v l', emits x l code v l' → ComputesNode x l code v l')
    (h : EmitsStages c emits xs l code vs l') (hl : l.Ordered) :
    ∀ r, some r ∈ vs → l.next ≤ r ∧ r < l'.next ∧ l'.bound.contains r = false := by
  induction h with
  | nil => exact fun r hr => by cases hr
  | missing hx _ ih =>
    obtain ⟨hcode, -⟩ := hxs _ (.head _) _ _ _ _ hx hl
    -- The register is of one of the later values.
    intro r hr
    rcases List.mem_cons.1 hr with hr | hr
    · cases hr
    · obtain ⟨hle, hfree⟩ := ih (fun x hx => hxs x (.tail _ hx)) hcode.ordered r hr
      exact ⟨Nat.le_trans hcode.next_le hle, hfree⟩
  | @staged x xs l l₁ l' code rest r₁ vs q hx hq hrest ih =>
    subst hq
    obtain ⟨hcode, hvalue⟩ := hxs _ (.head _) _ _ _ _ hx hl
    obtain ⟨hstage, hgives, hfree⟩ := hcode.stage (hvalue r₁ rfl) (c.typeOf x) (c.span x)
    have hxs' := fun x hx => hxs x (.tail _ hx)
    have hrest := hrest.computes hxs' hstage.ordered
    intro r hr
    rcases List.mem_cons.1 hr with hr | hr
    · -- It is that of the stage, which is new and no home.
      obtain rfl := Option.some.inj hr
      refine ⟨?_, Nat.lt_of_lt_of_le hgives.lt hrest.next_le, by rw [hrest.bound, hfree]⟩
      refine hgives.origin.resolve_left fun hbound => ?_
      rw [← hstage.bound, hfree] at hbound
      cases hbound
    · obtain ⟨hle, hfree⟩ := ih hxs' hstage.ordered r hr
      exact ⟨Nat.le_trans hstage.next_le hle, hfree⟩

/-- The values of a parallel assignment are in the registers of their code. -/
theorem EmitsStages.simulates {xs : List NodeId} {vs : List (Option Register)}
    (hxs : ∀ x ∈ xs, ∀ l code v l', emits x l code v l' →
      ExprCode m c ℓ call evalCall p ρ x l code v l')
    (h : EmitsStages c emits xs l code vs l') (hl : l.Ordered) (hK : l.Kinded c K)
    (a : Activation) (fr : RegisterFile) :
    m.Simulates call p a fr (xs.mapM (Eval.stage c (Eval.node c evalCall))) l code l'
      (fun ws fr' => ws = vs.map (·.map fr'.word) ∧ AgreeBelow l.next fr fr') NoExit := by
  induction h generalizing K a fr with
  | nil => exact .pure ⟨rfl, .refl⟩
  | @missing x xs l l₁ l' code rest vs hx _ ih =>
    have hcode := hxs _ (.head _) _ _ _ _ hx
    have hxs' := fun x hx => hxs x (.tail _ hx)
    obtain ⟨hcomputes, -⟩ := hcode.computes hl
    obtain ⟨K₁, htyped, -⟩ := hcode.typed K hK
    rw [List.mapM_cons, ← List.append_nil rest]
    refine .bind (hcode.stage_none hl a fr) fun w a₁ fr₁ ⟨hw, hagree⟩ => ?_
    refine .bind (ih hxs' hcomputes.ordered htyped.layout a₁ fr₁) fun ws a₂ fr₂ ⟨hws, hagree'⟩ => ?_
    subst hw hws
    exact .pure ⟨rfl, hagree.trans hcomputes.next_le hagree'⟩
  | @staged x xs l l₁ l' code rest r vs q hx hq _ ih =>
    subst hq
    have hcode := hxs _ (.head _) _ _ _ _ hx
    have hxs' := fun x hx => hxs x (.tail _ hx)
    obtain ⟨hcomputes, hgives⟩ := hcode.computes hl
    obtain ⟨hstage, hgives, -⟩ := hcomputes.stage (hgives r rfl) (c.typeOf x) (c.span x)
    obtain ⟨K₁, htyped, hkept⟩ := hcode.typed K hK
    obtain ⟨K₂, hstaged, -⟩ := htyped.layout.stage ℓ ρ (c.span x) (hkept r rfl)
    rw [List.mapM_cons, ← List.append_nil rest]
    refine .bind (hcode.simulates_stage hp hl hK a fr) fun w a₁ fr₁ ⟨hw, hagree⟩ => ?_
    refine .bind (ih hxs' hstage.ordered hstaged.layout a₁ fr₁) fun ws a₂ fr₂ ⟨hws, hagree'⟩ => ?_
    subst hw hws
    -- What is computed after it leaves the staged register as it is.
    refine .pure ⟨?_, hagree.trans hstage.next_le hagree'⟩
    rw [List.map_cons, Option.map_some, hagree' _ hgives.lt]

/-- Values that are stored at the end. -/
theorem EmitsStages.simulates_parallel {targets xs : List NodeId} {vs : List (Option Register)}
    (hxs : ∀ x ∈ xs, ∀ l code v l', emits x l code v l' →
      ExprCode m c ℓ call evalCall p ρ x l code v l')
    (h : EmitsStages c emits xs l code vs l') (hl : l.Ordered) (hK : l.Kinded c K)
    (a : Activation) (fr : RegisterFile) :
    m.Simulates call p a fr (Eval.parallelRule c (Eval.node c evalCall) targets xs) l
      (code ++ (l'.storeAll c (targets.zip (xs.zip vs))).1)
      (l'.storeAll c (targets.zip (xs.zip vs))).2 (fun _ _ => True) NoExit := by
  have hcomputes := fun x hx l code v l' h => (hxs x hx l code v l' h).computes
  have hfree := h.free hcomputes hl
  refine .bind (h.simulates hp hxs hl hK a fr) fun ws a₁ fr₁ ⟨hws, _⟩ => ?_
  subst hws
  rw [List.zip_map_right, List.zip_map_right, List.forM_eq_forM, List.forM_map]
  exact Simulates.storeAll hp (h.computes hcomputes hl).ordered fr₁.word fun e he r hr =>
    ⟨rfl, (hfree r (hr ▸ (List.of_mem_zip (List.of_mem_zip he).2).2)).2⟩

/-- A value that is converted and stored. -/
theorem EmitsAs.simulates_assign {target : NodeId}
    (hx : ∀ l code v l', emits x l code v l' → ExprCode m c ℓ call evalCall p ρ x l code v l')
    (h : EmitsAs c emits x (c.typeOf target) (c.span x) l code r l') (hl : l.Ordered) (span : Span)
    (a : Activation) (fr : RegisterFile) :
    let q := l'.store (l'.home c target) r (c.typeOf target) span
    m.Simulates call p a fr (Eval.assignRule c (Eval.node c evalCall) target x) l (code ++ q.code)
      q.layout (fun _ _ => True) NoExit := by
  obtain ⟨hcomputes, -⟩ := h.computes (fun l code v l' h => (hx l code v l' h).computes) hl
  have hbelow (l code v l') (h : emits x l code v l') :=
    And.intro (hx l code v l' h).computes (hx l code v l' h).simulates
  refine .bind (h.simulates hp hbelow hl a fr) fun w a₁ fr₁ ⟨hw, _⟩ => ?_
  subst hw
  exact Simulates.mono (Simulates.store hp hcomputes.ordered target span) (fun _ _ _ => trivial)
    fun _ _ _ h => h

omit hp in
/-- Without a value nothing is stored. -/
theorem ExprCode.simulates_assign (h : ExprCode m c ℓ call evalCall p ρ x l code none l')
    (hl : l.Ordered) (target : NodeId) (a : Activation) (fr : RegisterFile) :
    m.Simulates call p a fr (Eval.assignRule c (Eval.node c evalCall) target x) l code l'
      (fun _ _ => True) NoExit := by
  rw [← List.append_nil code]
  refine .bind (h.operand_none hl _ a fr) fun w a₁ fr₁ hw => ?_
  subst hw
  exact .pure trivial

/-- A value that the procedure is left with. -/
theorem ExprCode.simulates_ret (h : ExprCode m c ℓ call evalCall p ρ x l code (some r) l')
    (hl : l.Ordered) (id : NodeId) (a : Activation) (fr : RegisterFile) :
    let q := l'.convertResult r (c.typeOf x) (c.resultTy? id) (c.span id)
    m.Simulates call p a fr (Eval.returnRule c (Eval.node c evalCall) id (some x)) l
      (code ++ q.code ++ [(⟨.ret, .none, .register q.value, .none⟩, c.span id)]) q.layout
      (fun _ _ => True) (Leaves q.layout) := by
  intro q
  obtain ⟨hcomputes, -⟩ := h.computes hl
  have hoperand : m.Simulates call p a fr
      (Eval.operand c (Eval.node c evalCall) x (c.resultKind? id)) l (code ++ q.code) q.layout
      (fun w fr' => w = some (fr'.word q.value)) (Leaves q.layout) := by
    refine .bind (Simulates.mono (h.simulates hl a fr) (fun _ _ h => h) fun _ _ _ h => h.elim)
      fun w a₁ fr₁ ⟨hw, _⟩ => ?_
    subst hw
    exact .map (Simulates.mono
      (Simulates.convertResult hp hcomputes.ordered r (c.typeOf x) (c.resultTy? id) (c.span id))
      (fun v fr' hv => congrArg some hv) fun _ _ _ h => h)
  refine .bind hoperand fun w a₂ fr₂ hw => .of_fits hp fun hfits => .intro fun _ hrep => ?_
  subst hw
  cases hfits with
  | ret hr => exact .leave rfl (fun site s => .ret nofun (read_word hr)) ⟨_, hrep, .refl _⟩

/-! ### All statements -/

/-- Every return is bare or has a value with a kind, a number or a character. -/
def LowerContext.ReturnsKinds (c : LowerContext) : Prop :=
  ∀ id ∈ c.tree.preorder c.root, ∀ x, c.tree.shape id = .ret (some x) → (c.typeOf x).hasKind = true

instance (c : LowerContext) : Decidable c.ReturnsKinds :=
  decidable_of_iff
    (∀ id ∈ c.tree.preorder c.root,
      (match c.tree.shape id with
        | .ret (some x) => (c.typeOf x).hasKind
        | _ => true) = true)
    (by
      refine forall₂_congr fun id _ => ?_
      split
      · next x hshape => simp [hshape]
      · next hshape => exact ⟨fun _ x hx => (hshape x hx).elim, fun _ => rfl⟩)

/-- The code of a statement simulates it: it goes on at the end of the code, or it leaves the
procedure from a place before. -/
def Machine.SimulatesItem (m : Machine σ) (c : LowerContext)
    (call : Option (Procedure → Run σ Word))
    (evalCall : NodeId → Span → Except Breakdown Word) (p : Procedure) : Emission :=
  fun id l code _ l' => l.Ordered → (∃ K, l.Kinded c K) → ∀ a fr,
    m.Simulates call p a fr (Eval.node c evalCall id) l code l' (fun _ _ => True) (Leaves l')

omit hp in
/-- Items one after the other. -/
theorem EmitsItems.simulates {items : List NodeId} {pieces : List (List CodeLine)}
    (hitems : ∀ x ∈ items, ∀ l code v l', emits x l code v l' → ExtendsNode x l code v l'
      ∧ TypesNode c ℓ ρ x l code v l' ∧ m.SimulatesItem c call evalCall p x l code v l')
    (h : EmitsItems emits items l pieces l') (hl : l.Ordered) (hK : l.Kinded c K) (a : Activation)
    (fr : RegisterFile) :
    m.Simulates call p a fr (items.forM fun x => discard (Eval.node c evalCall x)) l
      pieces.flatten l' (fun _ _ => True) (Leaves l') := by
  induction h generalizing K a fr with
  | nil => exact .pure trivial
  | cons hx hrest ih =>
    have hitems' := fun x hx => hitems x (.tail _ hx)
    obtain ⟨hextends, htypes, hsimulates⟩ := hitems _ (.head _) _ _ _ _ hx
    obtain ⟨hordered, -⟩ := hextends hl
    obtain ⟨K₁, htyped, -⟩ := htypes K hK
    obtain ⟨-, hextends'⟩ :=
      hrest.extends (fun x hx l code v l' h => (hitems' x hx l code v l' h).1) hordered
    have hhead :=
      Simulates.mono (hsimulates hl ⟨K, hK⟩ a fr) (fun _ _ h => h) (Leaves.mono hextends')
    refine .bind hhead.discarded fun _ a₁ fr₁ _ => ?_
    exact ih hitems' hordered htyped.layout a₁ fr₁

end Rules

section Items

open Machine

variable {σ : Type} {m : Machine σ} {c : LowerContext} {ℓ : Linkage}
  {call : Option (Procedure → Run σ Word)} {evalCall : NodeId → Span → Except Breakdown Word}
  {p : Procedure} {id : NodeId} {l l' : Layout} {code : List CodeLine} {v : Option Register}

/-- **The code of every declaration and of every statement simulates it.** -/
theorem Emits.simulatesItem (hc : c.Sound) (hfree : c.tree.NativeFree c.root)
    (hret : c.ReturnsKinds) (hp : p.WellFormed m.program)
    (hconstants : ℓ.constants = m.program.constants) (hcalls : m.CallsAgree c ℓ call evalCall)
    (hid : id ∈ c.tree.preorder c.root) (hitem : (c.tree.shape id).isItem = true)
    (h : Emits c ℓ id l code v l') : m.SimulatesItem c call evalCall p id l code v l' := by
  have ht := hc.tree
  refine Emits.item_induction ht hid (motive := m.SimulatesItem c call evalCall p)
    (fun emits id hid hitem ih l code v l' hemits hrule => ?_) hitem h
  have of_noExit {x : Eval (Option Word)} {post : Option Word → RegisterFile → Prop} {a fr}
      (h : m.Simulates call p a fr x l code l' post NoExit) :
      m.Simulates call p a fr x l code l' (fun _ _ => True) (Leaves l') :=
    h.mono (fun _ _ _ => trivial) fun _ _ _ h => h.elim
  -- An expression that stands as an item has been simulated already, and it does not leave.
  by_cases hexpr : (c.tree.shape id).isExpr = true
  · intro hl _ a fr
    exact of_noExit (hemits.simulates ht hfree hp hconstants hcalls hid hexpr hl a fr)
  have hproc : (c.tree.shape id).isProcedure = false := by
    cases hshape : c.tree.shape id <;> first | rfl | exact (hexpr (by rw [hshape]; rfl)).elim
  -- What stands below the item, with its registers and their kinds.
  have item (x l code v l') (h : emits x l code v l') :
      ExtendsNode x l code v l' ∧ TypesNode c ℓ (c.resultKind? id) x l code v l'
        ∧ m.SimulatesItem c call evalCall p x l code v l' :=
    have ⟨hfits, hemits, hsimulates⟩ := ih x l code v l' h
    ⟨hemits.extends ht hfits.mem hfits.item,
      hemits.typed hc (LowerContext.Within.fits hc ⟨hid, rfl⟩ hproc hfits), hsimulates⟩
  -- What stands below a statement is an expression: it never leaves.
  have expr (hscope : (c.tree.shape id).isScope = false) (x l code v l') (h : emits x l code v l') :
      ExprCode m c ℓ call evalCall p (c.resultKind? id) x l code v l' :=
    have ⟨hfits, hemits, _⟩ := ih x l code v l' h
    have hx := hfits.expr hscope
    ⟨hemits.computes ht hfits.mem hx,
      hemits.simulates ht hfree hp hconstants hcalls hfits.mem hx, (item x l code v l' h).2.1⟩
  clear ih hproc
  intro hl ⟨K, hK⟩ a fr
  rw [Eval.node_eq]
  unfold Eval.rule
  generalize hshape : c.tree.shape id = shape at hrule hitem hexpr expr ⊢
  cases hrule with
  | procedure | literal | identOwn | identLiteral | identProcedure | identAbsent | binary | plus
  | folded | minus | group | call | castMissing | cast | nativeSilent | native =>
    exact (hexpr rfl).elim
  | slot => cases hitem
  | @inert shape _ h =>
    cases shape with
    | struct | enum => exact (hexpr rfl).elim
    | _ => first | (cases h; done) | cases hitem
  | module h | block h => exact (h.simulates (fun x _ => item x) hl hK a fr).statement
  | constant h =>
    have hkind := congrArg Ty.hasKind (hc.typeOf_constant hid hshape).symm
    exact of_noExit (h.simulates hp (expr rfl _) hkind hl hK a fr)
  | var h =>
    exact of_noExit (h.simulates hp (expr rfl _) (hc.hasKind_var hid hshape) hl hK a fr)
  | varFresh hnew hp' =>
    subst hp'
    exact Simulates.fresh hl (c.typeOf id) (c.span id)
  | exprStmt h =>
    exact (of_noExit ((expr rfl _ _ _ _ _ h).simulates hl a fr)).statement
  | assignMissing h =>
    exact of_noExit ((expr rfl _ _ _ _ _ h).simulates_assign hl _ a fr).statement
  | assign h hp' =>
    subst hp'
    exact of_noExit (h.simulates_assign hp (expr rfl _) hl (c.span id) a fr).statement
  | @parallel targets values _ _ _ vs _ _ h hp' =>
    have hparallel :
      m.Simulates call p a fr (Eval.parallelRule c (Eval.node c evalCall) targets values)
        l _ _ _ NoExit := h.simulates_parallel hp (fun x _ => expr rfl x) hl hK a fr
    rw [hp'] at hparallel
    exact (hparallel.mono (fun _ _ h => h) fun _ _ _ h => h.elim).statement
  -- A return leaves, and the layout is that of the moment.
  | retBare =>
    exact .intro fun _ hrep => .leave rfl (fun site s => .retNone) ⟨l, hrep, .refl l⟩
  | retMissing h hkind =>
    -- Such a return would be passed over; there is none if what is returned has a kind.
    rw [hret id hid _ hshape] at hkind
    cases hkind
  | ret h hp' =>
    subst hp'
    exact ((expr rfl _ _ _ _ _ h).simulates_ret hp hl id a fr).statement

end Items

end MiddleEnd
