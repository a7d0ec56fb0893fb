import MiddleEnd.Proofs.Lowering.Emits
import MiddleEnd.Proofs.Tree.WellFormed

/-!
# Homes of declarations

The register of a declaration belongs to it alone and for good: expressions compute their values
into registers that have not been given out before, or leave them where a declaration has them, and
what a statement ties to a declaration is either copied or was computed by the statement itself.

## Main definitions

* `Layout.Ordered` — every home belongs to one declaration and has been given out.
* `Layout.Computes` — what the code of an expression does to the layout.
* `Layout.Gives` — where the value of an expression is.
* `Layout.Extends` — what the code of a statement does to the layout.

## Main results

* `Emits.ordered` — layouts stay ordered, whatever is lowered.
* `Emits.computes` — expressions compute their values into new registers.
* `Emits.extends` — statements give new homes to new declarations only.
-/

namespace MiddleEnd

/-- Native code. -/
def Shape.isNative : Shape → Bool
  | native _ _ _ => true
  | _ => false

/-- A tree without native code. -/
def Tree.NativeFree (t : Tree) (root : NodeId) : Prop :=
  ∀ x ∈ t.preorder root, (t.shape x).isNative = false

instance (t : Tree) (root : NodeId) : Decidable (t.NativeFree root) :=
  inferInstanceAs (Decidable (∀ x ∈ t.preorder root, (t.shape x).isNative = false))

namespace Layout

/-- Every home belongs to one declaration and has been given out. -/
structure Ordered (l : Layout) : Prop where
  /-- The register zero is never given out. -/
  pos : 0 < l.next
  /-- A home has been given out. -/
  bound_lt : ∀ r, l.bound.contains r = true → 0 < r ∧ r < l.next
  /-- The register of a declaration is a home. -/
  bound : ∀ (d : NodeId) (r : Register), l.registers[d]? = some r → l.bound.contains r = true
  /-- Declarations do not share a home. -/
  injective : ∀ (d d' : NodeId) (r : Register), l.registers[d]? = some r →
    l.registers[d']? = some r → d = d'
  /-- What was written last has been given out. -/
  last_lt : l.lastRegister < l.next
  /-- If nothing has been written, the type of the value written last has no kind. -/
  lastTy : l.lastRegister = .none → Kind.ofTy? l.lastTy = none

/-- Code that gives no homes. -/
structure Computes (l l' : Layout) : Prop where
  /-- The homes are as they should be afterwards. -/
  ordered : l'.Ordered
  /-- Registers are only given out. -/
  next_le : l.next ≤ l'.next
  /-- No declaration has got a home. -/
  registers : l'.registers = l.registers
  /-- No register has become one. -/
  bound : l'.bound = l.bound

/-- The register of a value: a home, or else a new one that has just been written. -/
structure Gives (l l' : Layout) (r : Register) : Prop where
  /-- It has been given out. -/
  lt : r < l'.next
  /-- It was a home before, or is new. -/
  origin : l.bound.contains r = true ∨ l.next ≤ r
  /-- If it is not a home, it was written last. -/
  last : l'.bound.contains r = false → r = l'.lastRegister

/-- Code that gives homes to new declarations: registers that have not been given out before. -/
structure Extends (l l' : Layout) : Prop where
  /-- Registers are only given out. -/
  next_le : l.next ≤ l'.next
  /-- A declaration keeps its home. -/
  homes : ∀ (d : NodeId) (r : Register), l.registers[d]? = some r → l'.registers[d]? = some r
  /-- A new home has not been given out before. -/
  fresh : ∀ (d : NodeId) (r : Register), l'.registers[d]? = some r → l.registers[d]? = none →
    l.next ≤ r

variable {l l₁ l' : Layout} {r : Register}

theorem Ordered.initial : Layout.initial.Ordered where
  pos := Nat.one_pos
  bound_lt r h := by simp [Layout.initial] at h
  bound d r h := by simp [Layout.initial] at h
  injective d d' r h := by simp [Layout.initial] at h
  last_lt := Nat.one_pos
  lastTy _ := rfl

namespace Computes

theorem refl (h : l.Ordered) : Computes l l := ⟨h, Nat.le_refl _, rfl, rfl⟩

theorem trans (h : Computes l l₁) (h' : Computes l₁ l') : Computes l l' :=
  ⟨h'.ordered, Nat.le_trans h.next_le h'.next_le, h'.registers.trans h.registers,
    h'.bound.trans h.bound⟩

theorem toExtends (h : Computes l l') : l.Extends l' where
  next_le := h.next_le
  homes d r hr := by rw [h.registers, hr]
  fresh d r hr hnone := by
    rw [h.registers, hnone] at hr
    cases hr

end Computes

namespace Extends

theorem refl (l : Layout) : l.Extends l where
  next_le := Nat.le_refl _
  homes _ _ hr := hr
  fresh d r hr hnone := by
    rw [hnone] at hr
    cases hr

theorem trans (h : l.Extends l₁) (h' : l₁.Extends l') : l.Extends l' where
  next_le := Nat.le_trans h.next_le h'.next_le
  homes d r hr := h'.homes d r (h.homes d r hr)
  fresh d r hr hnone := by
    cases hr₁ : l₁.registers[d]? with
    | none => exact Nat.le_trans h.next_le (h'.fresh d r hr hr₁)
    | some r₁ =>
      obtain rfl := Option.some.inj ((h'.homes d r₁ hr₁).symm.trans hr)
      exact h.fresh d r₁ hr₁ hnone

end Extends

/-! ### Pieces -/

/-- A register that is given out has not been given out before. -/
theorem Ordered.reserved (h : l.Ordered) : Computes l l.reserved where
  ordered :=
    { pos := Nat.succ_pos _
      bound_lt := fun r hr => ⟨(h.bound_lt r hr).1, Nat.lt_succ_of_lt (h.bound_lt r hr).2⟩
      bound := h.bound
      injective := h.injective
      last_lt := Nat.lt_succ_of_lt h.last_lt
      lastTy := h.lastTy }
  next_le := Nat.le_succ _
  registers := rfl
  bound := rfl

theorem Ordered.computed (h : l.Ordered) (ty : Ty) : Computes l (l.computed ty) where
  ordered :=
    { pos := h.reserved.ordered.pos
      bound_lt := h.reserved.ordered.bound_lt
      bound := h.bound
      injective := h.injective
      last_lt := Nat.lt_succ_self _
      lastTy := fun hnone => (Nat.ne_of_gt h.pos hnone).elim }
  next_le := Nat.le_succ _
  registers := rfl
  bound := rfl

theorem Computes.gives_computed (h : Computes l l₁) (ty : Ty) :
    Gives l (l₁.computed ty) l₁.next where
  lt := Nat.lt_succ_self _
  origin := .inr h.next_le
  last _ := rfl

/-- An instruction that writes a home. -/
theorem Ordered.wrote (h : l.Ordered) (hr : l.bound.contains r = true) (ty : Ty) :
    Computes l (l.wrote r ty) where
  ordered :=
    { pos := h.pos
      bound_lt := h.bound_lt
      bound := h.bound
      injective := h.injective
      last_lt := (h.bound_lt r hr).2
      lastTy := fun hnone => (Nat.ne_of_gt (h.bound_lt r hr).1 hnone).elim }
  next_le := Nat.le_refl _
  registers := rfl
  bound := rfl

theorem Ordered.convert (h : l.Ordered) (r : Register) (source dest : Ty) (span : Span) :
    Computes l (l.convert r source dest span).layout := by
  rcases l.convert_cases r source dest span with ⟨hnone, -⟩ | ⟨a, b, -, -, -, hone⟩
  · rw [hnone]
    exact .refl h
  · rw [hone]
    exact h.computed dest

theorem Computes.convert (h : Computes l l₁) (hr : Gives l l₁ r) (source dest : Ty) (span : Span) :
    Computes l (l₁.convert r source dest span).layout
      ∧ Gives l (l₁.convert r source dest span).layout (l₁.convert r source dest span).value := by
  refine ⟨h.trans (h.ordered.convert r source dest span), ?_⟩
  rcases l₁.convert_cases r source dest span with ⟨hnone, -⟩ | ⟨a, b, -, -, -, hone⟩
  · rw [hnone]
    exact hr
  · rw [hone]
    exact h.gives_computed dest

theorem Ordered.convertResult (h : l.Ordered) (r : Register) (source : Ty) (result : Option Ty)
    (span : Span) : Computes l (l.convertResult r source result span).layout := by
  cases result with
  | none => exact .refl h
  | some τ => exact h.convert r source τ span

theorem Ordered.convertLast (h : l.Ordered) (result : Option Ty) (span : Span) :
    Computes l (l.convertLast result span).layout := by
  unfold Layout.convertLast
  split
  · exact .refl h
  · exact h.convertResult l.lastRegister l.lastTy result span

/-- The next register is no home. -/
theorem Ordered.next_free (h : l.Ordered) : l.bound.contains l.next = false :=
  Bool.eq_false_iff.2 fun hnext => Nat.lt_irrefl _ (h.bound_lt _ hnext).2

/-- A value that is out of the way of all stores. -/
theorem Computes.stage (h : Computes l l₁) (hr : Gives l l₁ r) (ty : Ty) (span : Span) :
    Computes l (l₁.stage r ty span).layout
      ∧ Gives l (l₁.stage r ty span).layout (l₁.stage r ty span).value
      ∧ (l₁.stage r ty span).layout.bound.contains (l₁.stage r ty span).value = false := by
  unfold Layout.stage
  cases hbound : l₁.bound.contains r with
  | true =>
    exact ⟨h.trans (h.ordered.computed ty), h.gives_computed ty, h.ordered.next_free⟩
  | false => exact ⟨h, hr, hbound⟩

/-- A register that has just been given out is tied as it is. -/
theorem Ordered.stage_next (h : l.Ordered) (ty : Ty) (span : Span) :
    l.reserved.stage l.next ty span = ⟨[], l.next, l.reserved⟩ := by
  unfold Layout.stage
  rw [if_neg]
  rw [show l.reserved.bound = l.bound from rfl, h.next_free]
  exact Bool.false_ne_true

/-- A new declaration gets a register of its own. -/
theorem Ordered.withHome {d : NodeId} (h : l.Ordered) (hpos : 0 < r) (hlt : r < l.next)
    (hr : l.bound.contains r = false) : (l.withHome d r).Ordered where
  pos := h.pos
  bound_lt q hq := by
    have hq : (l.bound.insert r).contains q = true := hq
    rw [Std.TreeSet.contains_insert, Bool.or_eq_true] at hq
    rcases hq with heq | hq
    · obtain rfl : r = q := by simpa using heq
      exact ⟨hpos, hlt⟩
    · exact h.bound_lt q hq
  bound d' q hq := by
    have hq : (l.registers.insert d r)[d']? = some q := hq
    show (l.bound.insert r).contains q = true
    rw [Std.TreeSet.contains_insert, Bool.or_eq_true]
    rw [Std.TreeMap.getElem?_insert] at hq
    split at hq
    · obtain rfl := Option.some.inj hq
      simp
    · exact .inr (h.bound d' q hq)
  injective d₁ d₂ q h₁ h₂ := by
    have h₁ : (l.registers.insert d r)[d₁]? = some q := h₁
    have h₂ : (l.registers.insert d r)[d₂]? = some q := h₂
    rw [Std.TreeMap.getElem?_insert] at h₁ h₂
    -- No other declaration has the register `r`, for it would be a home already.
    split at h₁
    · next heq₁ =>
      split at h₂
      · next heq₂ =>
        obtain rfl : d = d₁ := by simpa using heq₁
        simpa using heq₂
      · obtain rfl := Option.some.inj h₁
        rw [h.bound d₂ r h₂] at hr
        cases hr
    · split at h₂
      · obtain rfl := Option.some.inj h₂
        rw [h.bound d₁ r h₁] at hr
        cases hr
      · exact h.injective d₁ d₂ q h₁ h₂
  last_lt := h.last_lt
  lastTy := h.lastTy

/-- A declaration is tied to a register that its own code has given out. -/
theorem Computes.withHome {d : NodeId} (hl : l.Ordered) (h : Computes l l₁)
    (hnew : l₁.registers[d]? = none) (hlt : r < l₁.next)
    (horigin : l.bound.contains r = true ∨ l.next ≤ r) (hfree : l₁.bound.contains r = false) :
    (l₁.withHome d r).Ordered ∧ l.Extends (l₁.withHome d r) := by
  -- A register that was given out before is a home, which `r` is not.
  have hle : l.next ≤ r := by
    refine horigin.resolve_left fun hbound => ?_
    rw [← h.bound, hfree] at hbound
    cases hbound
  refine ⟨h.ordered.withHome (Nat.lt_of_lt_of_le hl.pos hle) hlt hfree, h.next_le,
    fun d' q hq => ?_, fun d' q hq hnone => ?_⟩
  · have hne : d ≠ d' := fun heq => by
      rw [h.registers, heq, hq] at hnew
      cases hnew
    show (l₁.registers.insert d r)[d']? = some q
    rw [Std.TreeMap.getElem?_insert, if_neg (by simpa using hne), h.registers, hq]
  · have hq : (l₁.registers.insert d r)[d']? = some q := hq
    rw [Std.TreeMap.getElem?_insert] at hq
    split at hq
    · obtain rfl := Option.some.inj hq
      exact hle
    · rw [h.registers, hnone] at hq
      cases hq

theorem Computes.tie {d : NodeId} (hl : l.Ordered) (h : Computes l l₁)
    (hnew : l₁.registers[d]? = none) (hr : Gives l l₁ r) (ty : Ty) (span : Span) :
    (l₁.tie d ty r span).layout.Ordered ∧ l.Extends (l₁.tie d ty r span).layout := by
  obtain ⟨hstage, hvalue, hfree⟩ := h.stage hr ty span
  refine hstage.withHome hl ?_ hvalue.lt hvalue.origin hfree
  rw [hstage.registers, ← h.registers, hnew]

theorem Ordered.home_contains (h : l.Ordered) {c : LowerContext} {target : NodeId}
    (hr : l.home c target = some r) : l.bound.contains r = true := by
  unfold Layout.home at hr
  obtain ⟨d, -, hr⟩ := Option.bind_eq_some_iff.1 hr
  exact h.bound d r hr

theorem Computes.store (h : Computes l l₁) {home : Option Register}
    (hhome : ∀ q, home = some q → l₁.bound.contains q = true) (ty : Ty) (span : Span) :
    Computes l (l₁.store home r ty span).layout := by
  unfold Layout.store
  cases home with
  | none => exact h
  | some q => exact h.trans (h.ordered.wrote (hhome q rfl) ty)

/-- Converting a staged value and storing it gives no homes. -/
theorem Ordered.unstage {c : LowerContext} (h : l.Ordered) (target value : NodeId) (r : Register) :
    Computes l ((l.convert r (c.typeOf value) (c.typeOf target) (c.span target)).layout.store
      ((l.convert r (c.typeOf value) (c.typeOf target) (c.span target)).layout.home c target)
      (l.convert r (c.typeOf value) (c.typeOf target) (c.span target)).value (c.typeOf target)
      (c.span target)).layout := by
  have hconvert := h.convert r (c.typeOf value) (c.typeOf target) (c.span target)
  exact hconvert.store (fun q hq => hconvert.ordered.home_contains hq) _ _

theorem Ordered.storeAll {c : LowerContext} (h : l.Ordered)
    (staged : List (NodeId × NodeId × Option Register)) :
    Computes l (l.storeAll c staged).2 := by
  induction staged generalizing l with
  | nil => exact .refl h
  | cons e rest ih =>
    obtain ⟨target, value, v⟩ := e
    cases v with
    | none => exact ih h
    | some r => exact (h.unstage target value r).trans (ih (h.unstage target value r).ordered)

/-- A register that has been given out. -/
def Given (l : Layout) (r : Register) : Prop := 0 < r ∧ r < l.next

theorem Ordered.given_next (h : l.Ordered) (ty : Ty) : (l.computed ty).Given l.next :=
  ⟨h.pos, Nat.lt_succ_self _⟩

theorem Ordered.given_home (h : l.Ordered) {d : NodeId} (hr : l.registers[d]? = some r) :
    l.Given r :=
  h.bound_lt r (h.bound d r hr)

theorem Ordered.given_convert (h : l.Ordered) (hr : l.Given r) (source dest : Ty) (span : Span) :
    (l.convert r source dest span).layout.Given (l.convert r source dest span).value := by
  rcases l.convert_cases r source dest span with ⟨hnone, -⟩ | ⟨a, b, -, -, -, hone⟩
  · rw [hnone]
    exact hr
  · rw [hone]
    exact h.given_next dest

theorem Ordered.stage (h : l.Ordered) (hr : l.Given r) (ty : Ty) (span : Span) :
    (l.stage r ty span).layout.Ordered
      ∧ (l.stage r ty span).layout.Given (l.stage r ty span).value
      ∧ (l.stage r ty span).layout.bound.contains (l.stage r ty span).value = false := by
  unfold Layout.stage
  cases hbound : l.bound.contains r with
  | true => exact ⟨(h.computed ty).ordered, h.given_next ty, h.next_free⟩
  | false => exact ⟨h, hr, hbound⟩

theorem next_le_stage (l : Layout) (r : Register) (ty : Ty) (span : Span) :
    l.next ≤ (l.stage r ty span).layout.next := by
  unfold Layout.stage
  split
  · exact Nat.le_succ _
  · exact Nat.le_refl _

theorem Ordered.tie (h : l.Ordered) (hr : l.Given r) (d : NodeId) (ty : Ty) (span : Span) :
    (l.tie d ty r span).layout.Ordered
      ∧ (l.tie d ty r span).layout.Given (l.tie d ty r span).value := by
  obtain ⟨hstage, hvalue, hfree⟩ := h.stage hr ty span
  exact ⟨hstage.withHome hvalue.1 hvalue.2 hfree, hvalue⟩

end Layout

open Layout

variable {c : LowerContext} {ℓ : Linkage} {l l' : Layout} {code : List CodeLine} {id x : NodeId}
  {v : Option Register} {r : Register}

/-! ### All nodes -/

section

variable {emits : Emission}

/-- Code that keeps layouts ordered, and leaves its value in a register that has been given out. -/
def OrderedNode : Emission := fun _ l _ v l' =>
  l.Ordered → l'.Ordered ∧ ∀ r, v = some r → l'.Given r

theorem Layout.Ordered.withValue (h : l'.Ordered) (hr : l'.Given r) :
    l'.Ordered ∧ ∀ r', some r = some r' → l'.Given r' := by
  refine ⟨h, fun r' hr' => ?_⟩
  obtain rfl := Option.some.inj hr'
  exact hr

theorem Layout.Ordered.noValue (h : l'.Ordered) :
    l'.Ordered ∧ ∀ r, (none : Option Register) = some r → l'.Given r :=
  ⟨h, fun _ hr => (by cases hr)⟩

variable (hbelow : ∀ x l code v l', emits x l code v l' → OrderedNode x l code v l')

include hbelow

theorem EmitsAs.ordered {dest : Ty} {span : Span} (h : EmitsAs c emits x dest span l code r l')
    (hl : l.Ordered) : l'.Ordered ∧ l'.Given r := by
  cases h with
  | converted h hp =>
    subst hp
    obtain ⟨hordered, hvalue⟩ := hbelow _ _ _ _ _ h hl
    exact ⟨(hordered.convert _ _ _ _).ordered, hordered.given_convert (hvalue _ rfl) _ _ _⟩

theorem EmitsDeclare.ordered (h : EmitsDeclare c emits id x l code v l') :
    OrderedNode id l code v l' := by
  intro hl
  cases h with
  | missing h => exact hbelow _ _ _ _ _ h hl
  | tied h hnew hp =>
    subst hp
    obtain ⟨hordered, hvalue⟩ := h.ordered hbelow hl
    obtain ⟨htie, hvalue⟩ := hordered.tie hvalue id (c.typeOf id) (c.span id)
    exact htie.withValue hvalue

theorem EmitsItems.ordered {items : List NodeId} {pieces : List (List CodeLine)}
    (h : EmitsItems emits items l pieces l') (hl : l.Ordered) : l'.Ordered := by
  induction h with
  | nil => exact hl
  | cons h _ ih => exact ih (hbelow _ _ _ _ _ h hl).1

theorem EmitsStages.ordered {values : List NodeId} {vs : List (Option Register)}
    (h : EmitsStages c emits values l code vs l') (hl : l.Ordered) : l'.Ordered := by
  induction h with
  | nil => exact hl
  | missing h _ ih => exact ih (hbelow _ _ _ _ _ h hl).1
  | staged h hp _ ih =>
    subst hp
    obtain ⟨hordered, hvalue⟩ := hbelow _ _ _ _ _ h hl
    exact ih (hordered.stage (hvalue _ rfl) _ _).1

theorem EmitsInputs.ordered {inputs : List NodeId} {slots : List NativeSlot}
    (h : EmitsInputs c emits inputs l code slots l') (hl : l.Ordered) : l'.Ordered := by
  induction h with
  | nil => exact hl
  | cons _ h _ ih => exact ih (hbelow _ _ _ _ _ h hl).1

end

/-- **Layouts stay ordered**, whatever is lowered, and values are in registers that have been given
out. -/
theorem Emits.ordered (h : Emits c ℓ id l code v l') : OrderedNode id l code v l' := by
  -- By the number of the node: the code below is ordered already.
  refine Emits.induction (motive := OrderedNode) (fun emits id ih l code v l' _ hrule => ?_) h
  have below (x l code v l') (h : emits x l code v l') : OrderedNode x l code v l' :=
    (ih x l code v l' h).2
  generalize c.tree.shape id = shape at hrule
  intro hl
  cases hrule with
  | module h | block h => exact (h.ordered below hl).noValue
  -- No register is given out.
  | inert | procedure | identProcedure | identAbsent | retBare => exact hl.noValue
  -- One register is given out, and it is written last.
  | literal _ _ hp | identLiteral _ _ _ _ _ _ hp | folded _ _ _ hp =>
    subst hp
    exact (hl.computed _).ordered.withValue (hl.given_next _)
  | identOwn _ _ hr => exact hl.withValue (hl.given_home hr)
  | constant h | var h => exact h.ordered below hl
  | varFresh _ hp =>
    subst hp
    obtain ⟨htie, hvalue⟩ := hl.reserved.ordered.tie ⟨hl.pos, Nat.lt_succ_self _⟩ id (c.typeOf id)
      (c.span id)
    exact htie.withValue hvalue
  | exprStmt h | assignMissing h | castMissing h | retMissing h =>
    exact (below _ _ _ _ _ h hl).1.noValue
  | group h | slot h => exact below _ _ _ _ _ h hl
  -- Only homes are written, and no register is given out.
  | @assign target _ _ l₁ _ r _ h hp =>
    subst hp
    have hordered := (h.ordered below hl).1
    exact ((Computes.refl hordered).store (fun q hq => hordered.home_contains hq) _
      _).ordered.noValue
  | @parallel targets values _ l₁ _ vs _ _ h hp =>
    have hstores := (h.ordered below hl).storeAll (c := c) (targets.zip (values.zip vs))
    rw [hp] at hstores
    exact hstores.ordered.noValue
  | ret h hp =>
    subst hp
    exact ((below _ _ _ _ _ h hl).1.convertResult _ _ _ _).ordered.noValue
  | binary _ _ hleft hright =>
    have hordered := (hright.ordered below (hleft.ordered below hl).1).1
    exact (hordered.computed _).ordered.withValue (hordered.given_next _)
  | plus _ h | cast h =>
    obtain ⟨hordered, hvalue⟩ := h.ordered below hl
    exact hordered.withValue hvalue
  | minus _ _ _ h =>
    have hordered := (h.ordered below hl).1
    exact (hordered.computed _).ordered.withValue (hordered.given_next _)
  | call h =>
    have hordered := (below _ _ _ _ _ h hl).1
    exact (hordered.computed _).ordered.withValue (hordered.given_next _)
  | nativeSilent h => exact (h.ordered below hl).noValue
  -- The output is the home of a declaration, which has been given out.
  | @native _ _ _ _ output _ _ r _ _ _ h _ hhome =>
    have hordered := h.ordered below hl
    have hbound := hordered.home_contains hhome
    exact (hordered.wrote hbound _).ordered.withValue (hordered.bound_lt r hbound)

/-! ### Expressions -/

section

variable {emits : Emission}

/-- What the code of an expression does. -/
def ComputesNode : Emission := fun _ l _ v l' =>
  l.Ordered → Computes l l' ∧ ∀ r, v = some r → Gives l l' r

/-- Code that leaves its value in `r`. -/
theorem Layout.Computes.withValue (h : Computes l l') (hr : Gives l l' r) :
    Computes l l' ∧ ∀ r', some r = some r' → Gives l l' r' := by
  refine ⟨h, fun r' hr' => ?_⟩
  obtain rfl := Option.some.inj hr'
  exact hr

/-- Code that ends with an instruction that computes its value. -/
theorem Layout.Computes.withComputed {l₁ : Layout} (h : Computes l l₁) (ty : Ty) :
    Computes l (l₁.computed ty) ∧ ∀ r, some l₁.next = some r → Gives l (l₁.computed ty) r :=
  (h.trans (h.ordered.computed ty)).withValue (h.gives_computed ty)

theorem EmitsAs.computes {dest : Ty} {span : Span}
    (hx : ∀ l code v l', emits x l code v l' → ComputesNode x l code v l')
    (h : EmitsAs c emits x dest span l code r l') (hl : l.Ordered) :
    Computes l l' ∧ Gives l l' r := by
  cases h with
  | converted h hp =>
    subst hp
    obtain ⟨hcode, hvalue⟩ := hx _ _ _ _ h hl
    exact hcode.convert (hvalue _ rfl) _ _ _

theorem EmitsInputs.computes {inputs : List NodeId} {slots : List NativeSlot}
    (hinputs : ∀ input ∈ inputs, ∀ target offset, c.tree.shape input = .slot target offset →
      ∀ l code v l', emits target l code v l' → ComputesNode target l code v l')
    (h : EmitsInputs c emits inputs l code slots l') (hl : l.Ordered) : Computes l l' := by
  induction h with
  | nil => exact .refl hl
  | cons hslot hx _ ih =>
    obtain ⟨hcode, -⟩ := hinputs _ (.head _) _ _ hslot _ _ _ _ hx hl
    exact hcode.trans (ih (fun input hinput => hinputs input (.tail _ hinput)) hcode.ordered)

end

/-- **Expressions compute their values into new registers** and give no homes. -/
theorem Emits.computes (ht : c.tree.WellFormed c.root) (hid : id ∈ c.tree.preorder c.root)
    (hexpr : (c.tree.shape id).isExpr = true) (h : Emits c ℓ id l code v l') :
    ComputesNode id l code v l' := by
  -- By the number of the node; below an expression there are only expressions.
  refine Emits.expr_induction ht hid (motive := ComputesNode)
    (fun emits id hid hexpr ih l code v l' hrule => ?_) hexpr h
  have below (x l code v l') (h : emits x l code v l') : ComputesNode x l code v l' :=
    (ih x l code v l' h).2.2.2
  clear ih
  generalize c.tree.shape id = shape at hrule hexpr
  intro hl
  have none_value {l₁ : Layout} : ∀ r, (none : Option Register) = some r → Gives l l₁ r :=
    fun _ h => (by cases h)
  cases hrule with
  -- Declarations and statements are no expressions.
  | module | block | constant | var | varFresh | exprStmt | assignMissing | assign | parallel
  | retBare | retMissing | ret | slot => cases hexpr
  | nativeSilent h => exact ⟨h.computes (fun _ _ target _ _ => below target) hl, none_value⟩
  -- Native code writes a home, which is where its value is.
  | @native _ _ _ _ output _ _ r _ _ _ h _ hhome =>
    have hcode := h.computes (fun _ _ target _ _ => below target) hl
    have hbound := hcode.ordered.home_contains hhome
    refine (hcode.trans (hcode.ordered.wrote hbound (c.typeOf output))).withValue
      ⟨(hcode.ordered.bound_lt r hbound).2, .inl (hcode.bound ▸ hbound), fun hfalse => ?_⟩
    rw [show (Layout.wrote _ r (c.typeOf output)).bound.contains r = true from hbound] at hfalse
    cases hfalse
  | inert | procedure | identProcedure | identAbsent => exact ⟨.refl hl, none_value⟩
  | literal _ _ hp | identLiteral _ _ _ _ _ _ hp | folded _ _ _ hp =>
    subst hp
    exact (Computes.refl hl).withComputed _
  | identOwn _ _ hr =>
    -- A name is read in its home: nothing is computed.
    have hbound := hl.bound _ _ hr
    refine (Computes.refl hl).withValue ⟨(hl.bound_lt _ hbound).2, .inl hbound, fun hfalse => ?_⟩
    rw [hbound] at hfalse
    cases hfalse
  -- The registers of the operands are given out before that of the result.
  | binary _ _ hleft hright =>
    obtain ⟨hcode₁, -⟩ := hleft.computes (below _) hl
    obtain ⟨hcode₂, -⟩ := hright.computes (below _) hcode₁.ordered
    exact (hcode₁.trans hcode₂).withComputed _
  | plus _ h | cast h =>
    obtain ⟨hcode, hvalue⟩ := h.computes (below _) hl
    exact hcode.withValue hvalue
  | minus _ _ _ h =>
    obtain ⟨hcode, -⟩ := h.computes (below _) hl
    exact hcode.withComputed _
  | group h => exact below _ _ _ _ _ h hl
  | call h =>
    obtain ⟨hcode, -⟩ := below _ _ _ _ _ h hl
    exact hcode.withComputed _
  | castMissing h =>
    obtain ⟨hcode, -⟩ := below _ _ _ _ _ h hl
    exact ⟨hcode, none_value⟩

/-! ### Statements -/

/-- What the code of a statement does. -/
def ExtendsNode : Emission := fun _ l _ _ l' => l.Ordered → l'.Ordered ∧ l.Extends l'

theorem ComputesNode.toExtends (h : ComputesNode id l code v l') : ExtendsNode id l code v l' :=
  fun hl => ⟨(h hl).1.ordered, (h hl).1.toExtends⟩

section

variable {emits : Emission}
  (hbelow : ∀ l code v l', emits x l code v l' → ComputesNode x l code v l')

include hbelow

theorem EmitsDeclare.extends (h : EmitsDeclare c emits id x l code v l') :
    ExtendsNode id l code v l' := by
  intro hl
  cases h with
  | missing h =>
    obtain ⟨hcode, -⟩ := hbelow _ _ _ _ h hl
    exact ⟨hcode.ordered, hcode.toExtends⟩
  | tied h hnew hp =>
    subst hp
    obtain ⟨hcode, hvalue⟩ := h.computes hbelow hl
    exact hcode.tie hl hnew hvalue _ _

end

theorem EmitsItems.extends {emits : Emission} {xs : List NodeId} {pieces : List (List CodeLine)}
    (hbelow : ∀ x ∈ xs, ∀ l code v l', emits x l code v l' → ExtendsNode x l code v l')
    (h : EmitsItems emits xs l pieces l') (hl : l.Ordered) : l'.Ordered ∧ l.Extends l' := by
  induction h with
  | nil => exact ⟨hl, .refl _⟩
  | cons hx _ ih =>
    obtain ⟨hordered, hextends⟩ := hbelow _ (.head _) _ _ _ _ hx hl
    obtain ⟨hordered', hextends'⟩ := ih (fun x hx => hbelow x (.tail _ hx)) hordered
    exact ⟨hordered', hextends.trans hextends'⟩

/-- Staged values are out of the way of all stores. -/
theorem EmitsStages.computes {emits : Emission} {xs : List NodeId} {vs : List (Option Register)}
    (hbelow : ∀ x ∈ xs, ∀ l code v l', emits x l code v l' → ComputesNode x l code v l')
    (h : EmitsStages c emits xs l code vs l') (hl : l.Ordered) : Computes l l' := by
  induction h with
  | nil => exact .refl hl
  | missing hx _ ih =>
    obtain ⟨hcode, -⟩ := hbelow _ (.head _) _ _ _ _ hx hl
    exact hcode.trans (ih (fun x hx => hbelow x (.tail _ hx)) hcode.ordered)
  | staged hx hp _ ih =>
    subst hp
    obtain ⟨hcode, hvalue⟩ := hbelow _ (.head _) _ _ _ _ hx hl
    obtain ⟨hstage, -⟩ := hcode.stage (hvalue _ rfl) _ _
    exact hstage.trans (ih (fun x hx => hbelow x (.tail _ hx)) hstage.ordered)

/-- **Statements give new homes to new declarations only.** -/
theorem Emits.extends (ht : c.tree.WellFormed c.root) (hid : id ∈ c.tree.preorder c.root)
    (hitem : (c.tree.shape id).isItem = true) (h : Emits c ℓ id l code v l') :
    ExtendsNode id l code v l' := by
  refine Emits.item_induction ht hid (motive := ExtendsNode)
    (fun emits id hid hitem ih l code v l' hemits hrule => ?_) hitem h
  -- An expression that stands as an item gives no homes at all.
  by_cases hexpr : (c.tree.shape id).isExpr = true
  · exact (hemits.computes ht hid hexpr).toExtends
  have item (x l code v l') (h : emits x l code v l') : ExtendsNode x l code v l' :=
    (ih x l code v l' h).2.2
  have expr (hscope : (c.tree.shape id).isScope = false) (x l code v l') (h : emits x l code v l') :
      ComputesNode x l code v l' :=
    have ⟨hfits, hemits, _⟩ := ih x l code v l' h
    hemits.computes ht hfits.mem (hfits.expr hscope)
  clear ih
  generalize c.tree.shape id = shape at hrule hitem hexpr expr
  intro hl
  cases hrule with
  | inert | procedure | literal | identOwn | identLiteral | identProcedure | identAbsent | binary
  | plus | folded | minus | group | call | castMissing | cast | nativeSilent | native =>
    first | exact (hexpr rfl).elim | exact ⟨hl, .refl _⟩
  | slot => cases hitem
  | module h | block h => exact h.extends (fun x _ => item x) hl
  | constant h | var h => exact h.extends (expr rfl _) hl
  | varFresh hnew hp =>
    subst hp
    -- The register is new, so it is no home yet and needs no copy.
    unfold Layout.tie
    rw [hl.stage_next]
    exact hl.reserved.withHome hl hnew (Nat.lt_succ_self _) (.inr (Nat.le_refl _)) hl.next_free
  | exprStmt h | assignMissing h | retMissing h => exact (expr rfl _ _ _ _ _ h).toExtends hl
  | @assign target _ _ l₁ _ r _ h hp =>
    subst hp
    obtain ⟨hcode, -⟩ := h.computes (expr rfl _) hl
    have hstore : Computes l
        (l₁.store (l₁.home c target) r (c.typeOf target) (c.span id)).layout :=
      hcode.store (fun q hq => hcode.ordered.home_contains hq) _ _
    exact ⟨hstore.ordered, hstore.toExtends⟩
  | @parallel targets values _ _ _ vs _ _ h hp =>
    have hcode := h.computes (fun x _ => expr rfl x) hl
    have hstores := hcode.ordered.storeAll (c := c) (targets.zip (values.zip vs))
    rw [hp] at hstores
    exact ⟨hstores.ordered, (hcode.trans hstores).toExtends⟩
  | retBare => exact ⟨hl, .refl _⟩
  | @ret x _ _ _ r _ h hp =>
    subst hp
    obtain ⟨hcode, -⟩ := expr rfl _ _ _ _ _ h hl
    have hconvert := hcode.trans
      (hcode.ordered.convertResult r (c.typeOf x) (c.resultTy? id) (c.span id))
    exact ⟨hconvert.ordered, hconvert.toExtends⟩

end MiddleEnd
