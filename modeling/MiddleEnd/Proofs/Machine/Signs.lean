import MiddleEnd.Proofs.Lowering.Respects
import MiddleEnd.Proofs.Machine.Numbers

/-!
# Signs at run time

Typing keeps signed and unsigned integers apart, and between the two are the decimal numbers only.
So without casts a conversion of a signed integer to an unsigned one is that of a decimal number,
and its operand is not negative unless an activation has made a number negative before: by a
subtraction, or by a store of a signed integer in a variable of that type.  The value written last
is converted to the declared result without a check of its type; of other types than that of decimal
numbers nothing is said there.

## Main definitions

* `Activity.Plain` — a tree in which nothing but typing decides about signs.

## Main results

* `LowerContext.Coerces.anyNumber` — what becomes a decimal number is one, unless it is stored.
* `Emits.flows` — **code keeps decimal numbers from being negative**, up to what may make them so.
* `compile_signs` — **signed integers that become unsigned are not negative**, up to that.
* `Tree.subtractsNumbers_unsigns` — a negative number that becomes unsigned.
-/

namespace MiddleEnd

open Layout

variable {c : LowerContext} {ℓ : Linkage} {id x : NodeId} {l l₁ l' : Layout} {code : List CodeLine}
  {v : Option Register} {r : Register}

/-! ### Types -/

/-- The type of decimal numbers has no name. -/
theorem Ty.ofName?_ne_anyNumber (name : String) : Ty.ofName? name ≠ some .anyNumber := by
  intro h
  have hmem := List.mem_of_find?_eq_some h
  revert hmem
  decide

/-- What is stored by an assignment may become a decimal number. -/
def Shape.isStore : Shape → Bool
  | .assign _ _ | .parallel _ _ => true
  | _ => false

namespace LowerContext

variable (hc : c.Sound)

include hc

/-- No written type is that of decimal numbers. -/
theorem Sound.typeOf_isType (hx : x ∈ c.tree.preorder c.root)
    (htype : (c.tree.shape x).isType = true) :
    c.typeOf x ≠ .anyNumber := by
  have hty := hc.hasType hx
  generalize c.typeOf x = τ at hty ⊢
  generalize c.tree.shape x = shape at hty htype
  cases hty with
  | typeName h => exact fun hτ => Ty.ofName?_ne_anyNumber _ (hτ ▸ h)
  | _ => cases htype

/-- No declared result is a decimal number. -/
theorem Sound.typeOf_result {body result : NodeId} (hid : id ∈ c.tree.preorder c.root)
    (hshape : c.tree.shape id = .procedure (some result) body) : c.typeOf result ≠ .anyNumber := by
  have hfits := hc.tree.fits id hid
  simp only [Tree.fits, hshape, Option.all_some, Bool.and_eq_true] at hfits
  refine hc.typeOf_isType (hc.tree.child hid ?_) hfits.1
  simp [Tree.children_of_shape hshape, Shape.children]

variable (hid : id ∈ c.tree.preorder c.root)

include hid

theorem Sound.resultTy?_ne_anyNumber : c.resultTy? id ≠ some .anyNumber := by
  unfold resultTy? Typing.Context.resultNode?
  intro h
  obtain ⟨result, hresult, hty⟩ := Option.map_eq_some_iff.1 h
  obtain ⟨p, hp, hresult⟩ := Option.bind_eq_some_iff.1 hresult
  obtain ⟨hmem, -⟩ := hc.analysis.rooted.mem_of_ancestor? hid hp
  change (c.tree.shape p).result? = some result at hresult
  cases hshape : c.tree.shape p with
  | procedure declared body =>
    rw [hshape] at hresult
    obtain rfl : declared = some result := hresult
    exact hc.typeOf_result hmem hshape hty
  | _ =>
    rw [hshape] at hresult
    cases hresult

/-- **What becomes a decimal number is one**, unless it is stored. -/
theorem Coerces.anyNumber {τ : Ty} (h : c.Coerces id x τ)
    (hstore : (c.tree.shape id).isStore = false)
    (hτ : τ = .anyNumber) : c.typeOf x = .anyNumber := by
  have hfits := hc.tree.fits id hid
  have hty := hc.hasType hid
  have child {y : NodeId} (hy : y ∈ c.tree.children id) : y ∈ c.tree.preorder c.root :=
    hc.tree.child hid hy
  -- What is computed has the type of its operands, so both are decimal numbers.
  cases h with
  | @left left op right hshape =>
    rw [hshape] at hty
    generalize c.typeOf id = ρ at hty hτ
    cases hty with
    | binary hl hr h => exact hl.typeOf.trans (Ty.eq_anyNumber_of_promote_eq hτ).1
  | @right left op right hshape =>
    rw [hshape] at hty
    generalize c.typeOf id = ρ at hty hτ
    cases hty with
    | binary hl hr h => exact hr.typeOf.trans (Ty.eq_anyNumber_of_promote_eq hτ).2
  -- A sign makes a signed type.
  | sign hshape =>
    rw [hshape] at hty
    generalize c.typeOf id = ρ at hty hτ
    cases hty with
    | @signed _ _ sign σ _ _ _ => cases σ <;> cases hτ
  -- A type that the source names is never that of decimal numbers.
  | @cast x y hshape =>
    simp only [Tree.fits, hshape, Bool.and_eq_true] at hfits
    have hy := child (y := y) (by simp [Tree.children_of_shape hshape, Shape.children])
    rw [hshape, hτ] at hty
    cases hty with
    | cast _ hdone _ => exact (hc.typeOf_isType hy hfits.2 hdone.typeOf).elim
  | constant hshape => exact (hc.typeOf_constant hid hshape).symm.trans hτ
  | @var name ty x hshape =>
    rw [hshape, hτ] at hty
    cases hty with
    | @var _ y _ _ _ hdone _ _ =>
      simp only [Tree.fits, hshape, Option.all_some, Bool.and_eq_true] at hfits
      have hy := child (y := y) (by simp [Tree.children_of_shape hshape, Shape.children])
      exact (hc.typeOf_isType hy hfits.1 hdone.typeOf).elim
    | varInferred h => exact h.typeOf
  -- A store is excluded.
  | assign hshape | parallel hshape =>
    rw [hshape] at hstore
    cases hstore
  | ret _ hresult => exact (hc.resultTy?_ne_anyNumber hid (hτ ▸ hresult)).elim

end LowerContext

/-! ### What is written -/

theorem LowerContext.IsOperand.mem_children (h : c.IsOperand id x) : x ∈ c.tree.children id := by
  unfold IsOperand at h
  unfold Tree.children
  split at h <;> grind [Shape.children]

theorem LowerContext.Uses.mem (ht : c.tree.WellFormed c.root) (hid : id ∈ c.tree.preorder c.root)
    (h : c.Uses id x) : x ∈ c.tree.preorder c.root := by
  induction h with
  | refl => exact hid
  | tail _ hoperand ih => exact ht.child ih hoperand.mem_children

/-- Without native code expressions write none of the registers that have been given out before. -/
theorem LowerContext.MayWrite.ne {out : Register} (ht : c.tree.WellFormed c.root)
    (hfree : c.tree.NativeFree c.root) (hx : x ∈ c.tree.preorder c.root) (h : c.MayWrite x l out)
    (hr : l.Given r) : out ≠ r := by
  rcases h with hnone | hfresh | ⟨y, d, huses, hwrites, -⟩
  · exact fun heq => Nat.ne_of_gt hr.1 (heq.symm.trans hnone)
  · exact fun heq => Nat.not_lt.2 (heq ▸ hfresh) hr.2
  · obtain ⟨source, inputs, output, target, offset, hshape, -⟩ := hwrites
    have hnative := hfree y (huses.mem ht hx)
    rw [hshape] at hnative
    cases hnative

/-- A staged value is converted to a new register and stored in a home. -/
theorem Layout.Ordered.out_of_unstage {target value : NodeId} {q s : Piece} (hl : l.Ordered)
    (hq : q = l.convert r (c.typeOf value) (c.typeOf target) (c.span target))
    (hs : s = q.layout.store (q.layout.home c target) q.value (c.typeOf target) (c.span target)) :
    ∀ line ∈ q.code ++ s.code, line.1.out = l.next ∨ l.bound.contains line.1.out = true := by
  have hcomputes : Computes l q.layout := hq ▸ hl.convert _ _ _ _
  intro line hline
  rcases List.mem_append.1 hline with hline | hline
  · exact .inl (out_of_convert hq hline).1
  · unfold Layout.store at hs
    cases hhome : q.layout.home c target with
    | none =>
      rw [hs, hhome] at hline
      cases hline
    | some home =>
      rw [hs, hhome] at hline
      obtain rfl := List.mem_singleton.1 hline
      rw [← hcomputes.bound]
      exact .inr (hcomputes.ordered.home_contains hhome)

/-- Without native code the values of a parallel assignment are computed into new registers. -/
theorem EmitsStages.ne {emits : Emission} {values : List NodeId} {vs : List (Option Register)}
    (ht : c.tree.WellFormed c.root) (hfree : c.tree.NativeFree c.root)
    (hxs : ∀ x ∈ values, x ∈ c.tree.preorder c.root ∧ ∀ l code v l', emits x l code v l' →
      WritesNode c x l code v l' ∧ ComputesNode x l code v l')
    (h : EmitsStages c emits values l code vs l') (hl : l.Ordered) (hr : l.Given r) :
    ∀ line ∈ code, line.1.out ≠ r := by
  intro line hline
  obtain ⟨x, hx, hwrites⟩ := h.writes (fun x hx => (hxs x hx).2) hl line hline
  exact hwrites.ne ht hfree (hxs x hx).1 hr

/-! ### Rules -/

open Machine

variable {σ : Type}

/-- A procedure of a program that implements a tree in which nothing but typing decides about signs:
there are no casts, no native code, and no literals that wrap. -/
structure Activity.Plain (e : Activity σ) : Prop where
  /-- Names and types of the tree are as they should be. -/
  sound : e.context.Sound
  /-- The program has the code of the tree. -/
  implements : Implements e.context e.linkage e.machine.program
  /-- There are no casts. -/
  casts : e.context.tree.CastFree e.context.root
  /-- There is no native code. -/
  natives : e.context.tree.NativeFree e.context.root
  /-- Every literal fits the kind that it is loaded in. -/
  literals : e.context.tree.LiteralsFit e.context.root

/-- The code of `x` keeps the decimal numbers in registers, and its value, from being negative. -/
def Activity.FlowsNode (e : Activity σ) : Emission := fun x l code v l' =>
  ∀ n, e.procedure.Has n code → l.Ordered →
    e.Flows n (Held e.context l) code fun κ => Held e.context l' κ ∧ HeldValue e.context x v κ

variable {e : Activity σ} {emits : Emission} {n : Nat} {dest : Ty} {span : Span}

/-- None of the values that are decimal numbers is negative. -/
def HeldValues (c : LowerContext) (values : List NodeId) (vs : List (Option Register))
    (κ : Point σ) :
    Prop :=
  ∀ x r, (x, some r) ∈ values.zip vs → HeldValue c x (some r) κ

/-- Code that does not write the register of a value leaves it alone. -/
theorem heldValue_frame {κ κ' : Point σ} (h : e.machine.Traverses e.call e.procedure code κ κ')
    (hout : ∀ line ∈ code, line.1.out ≠ r) (hvalue : HeldValue c x (some r) κ) :
    HeldValue c x (some r) κ' := by
  intro hty r' hr' w hw
  obtain rfl := Option.some.inj hr'
  rw [h.frame_eq hout] at hw
  exact hvalue hty r rfl w hw

section

variable (he : e.Plain) (below : ∀ x l code v l', emits x l code v l' →
  Emits e.context e.linkage x l code v l')

include he below

theorem EmitsAs.flows (hid : id ∈ e.context.tree.preorder e.context.root)
    (hcoerces : e.context.Coerces id x dest)
    (hdest : dest = .anyNumber → e.context.typeOf x = .anyNumber)
    (hx : ∀ l code v l', emits x l code v l' → e.FlowsNode x l code v l')
    (h : EmitsAs e.context emits x dest span l code r l') (hhas : e.procedure.Has n code)
    (hl : l.Ordered) :
    e.Flows n (Held e.context l) code
      fun κ => Held e.context l' κ ∧ (dest = .anyNumber → κ.NonNegative r) := by
  cases h with
  | converted h hp =>
    subst hp
    have hordered := ((below _ _ _ _ _ h).ordered hl).1
    refine (hx _ _ _ _ h n hhas.append.1 hl).append ((Activity.Flows.convert he.sound he.casts hid
      hcoerces hordered hhas.append.2 fun hty hne => (hne (hdest hty)).elim).post fun κ h => ?_)
    exact ⟨h.1, fun hty => h.2 (hdest hty) hty⟩

theorem EmitsDeclare.flows (hid : id ∈ e.context.tree.preorder e.context.root)
    (hcoerces : e.context.Coerces id x (e.context.typeOf id))
    (hstore : (e.context.tree.shape id).isStore = false)
    (hx : ∀ l code v l', emits x l code v l' → e.FlowsNode x l code v l')
    (h : EmitsDeclare e.context emits id x l code v l') : e.FlowsNode id l code v l' := by
  intro n hhas hl
  cases h with
  | missing h =>
    exact (hx _ _ _ _ h n hhas hl).post fun κ h => ⟨h.1, fun _ _ hr => by cases hr⟩
  | tied h _ hp =>
    subst hp
    have hordered := (h.ordered (fun x l code v l' h => (below x l code v l' h).ordered) hl).1
    have hvalue := h.flows he below hid hcoerces (hcoerces.anyNumber he.sound hid hstore) hx
      hhas.append.1 hl
    refine hvalue.append ((Activity.Flows.tie hordered hhas.append.2 rfl).post fun κ h => ?_)
    refine ⟨h.1, fun hty r hr => ?_⟩
    obtain rfl := Option.some.inj hr
    exact h.2 hty

omit he in
theorem EmitsItems.flows {items : List NodeId} {pieces : List (List CodeLine)}
    (hxs : ∀ x ∈ items, ∀ l code v l', emits x l code v l' → e.FlowsNode x l code v l')
    (h : EmitsItems emits items l pieces l') (hhas : e.procedure.Has n pieces.flatten)
    (hl : l.Ordered) :
    e.Flows n (Held e.context l) pieces.flatten (Held e.context l') := by
  induction h generalizing n with
  | nil => exact .nil fun κ h => h
  | cons hx _ ih =>
    rw [List.flatten_cons] at hhas ⊢
    have hcode := hxs _ (.head _) _ _ _ _ hx n hhas.append.1 hl
    refine (hcode.post fun κ h => h.1).append ?_
    exact ih (fun x hx => hxs x (.tail _ hx)) hhas.append.2 ((below _ _ _ _ _ hx).ordered hl).1

theorem EmitsStages.flows {values : List NodeId} {vs : List (Option Register)}
    (hxs : ∀ x ∈ values, x ∈ e.context.tree.preorder e.context.root
      ∧ (e.context.tree.shape x).isExpr = true ∧ ∀ l code v l', emits x l code v l' →
        e.FlowsNode x l code v l')
    (h : EmitsStages e.context emits values l code vs l') (hhas : e.procedure.Has n code)
    (hl : l.Ordered) :
    e.Flows n (Held e.context l) code
      fun κ => Held e.context l' κ ∧ HeldValues e.context values vs κ := by
  induction h generalizing n with
  | nil => exact .nil fun κ h => ⟨h, fun x r hr => by cases hr⟩
  | missing hx _ ih =>
    have hcode := (hxs _ (.head _)).2.2 _ _ _ _ hx n hhas.append.1 hl
    refine (hcode.post fun κ h => h.1).append
      ((ih (fun x hx => hxs x (.tail _ hx)) hhas.append.2 ((below _ _ _ _ _ hx).ordered hl).1).post
      ?_)
    refine fun κ h => ⟨h.1, fun x r hr => ?_⟩
    rcases List.mem_cons.1 hr with heq | hr
    · cases heq
    · exact h.2 x r hr
  | @staged x xs _ l₁ _ _ rest r₁ _ _ hx hp hrest ih =>
    subst hp
    obtain ⟨hmem, hexpr, hflows⟩ := hxs _ (.head _)
    obtain ⟨hordered, hgiven⟩ := (below _ _ _ _ _ hx).ordered hl
    obtain ⟨hstage, hvalue, -⟩ :=
      hordered.stage (hgiven r₁ rfl) (e.context.typeOf x) (e.context.span x)
    have hcode := hflows _ _ _ _ hx n hhas.append.1.append.1 hl
    have hstaged := hcode.append ((Activity.Flows.stage (e.context.typeOf x) hordered
      hhas.append.1.append.2).mono (fun κ h => ⟨h.1, fun hty => h.2 hty r₁ rfl⟩) fun _ h => h)
    refine hstaged.append ?_
    -- What is evaluated after it leaves a staged value alone.
    have hout := hrest.ne he.sound.tree he.natives (fun y hy => by
      obtain ⟨hymem, hyexpr, -⟩ := hxs y (.tail _ hy)
      exact ⟨hymem, fun l code v l' h => ⟨(below _ _ _ _ _ h).writes he.sound hymem hyexpr,
        (below _ _ _ _ _ h).computes he.sound.tree hymem hyexpr⟩⟩) hstage hvalue
    have hrest := (ih (fun x hx => hxs x (.tail _ hx)) hhas.append.2 hstage).frame hhas.append.2
      (F := HeldValue e.context x
      (some (l₁.stage r₁ (e.context.typeOf x) (e.context.span x)).value))
      fun κ κ' h => heldValue_frame h hout
    refine hrest.mono (fun κ h => ⟨h.1, fun hty r hr => ?_⟩) fun κ h => ⟨h.1.1, fun y r hr => ?_⟩
    · obtain rfl := Option.some.inj hr
      exact h.2 hty
    · rcases List.mem_cons.1 hr with heq | hr
      · cases heq
        exact h.2
      · exact h.1.2 y r hr

end

/-- The stores of a parallel assignment, one after the other. -/
theorem Activity.Plain.flows_storeAll (he : e.Plain) {targets values : List NodeId}
    {vs : List (Option Register)} (hid : id ∈ e.context.tree.preorder e.context.root)
    (hshape : e.context.tree.shape id = .parallel targets values)
    (h : EmitsStages e.context (Emits e.context e.linkage) values l code vs l₁) (hl : l₁.Ordered)
    (hfree : ∀ r, some r ∈ vs → r < l₁.next ∧ l₁.bound.contains r = false)
    (first rest : List (NodeId × NodeId × Option Register))
    (hstaged : targets.zip (values.zip vs) = first ++ rest)
    (hhas : e.procedure.Has n (code ++ (l₁.storeAll e.context (first ++ rest)).1)) :
    e.Flows (n + (code ++ (l₁.storeAll e.context first).1).length)
      (fun κ => Held e.context (l₁.storeAll e.context first).2 κ
        ∧ ∀ target value r, (target, value, some r) ∈ rest → HeldValue e.context value (some r) κ)
      ((l₁.storeAll e.context first).2.storeAll e.context rest).1
      (Held e.context ((l₁.storeAll e.context first).2.storeAll e.context rest).2) := by
  induction rest generalizing first with
  | nil => exact .nil fun κ h => h.1
  | cons entry rest ih =>
    -- The entry is taken over to those that have been stored.
    have hsplit : first ++ entry :: rest = (first ++ [entry]) ++ rest := by simp
    have hnext := ih (first ++ [entry]) (hsplit ▸ hstaged) (hsplit ▸ hhas)
    obtain ⟨target, value, _ | r⟩ := entry
    · -- Without a value nothing is stored.
      have hskip : l₁.storeAll e.context (first ++ [(target, value, none)])
          = l₁.storeAll e.context first := by
        rw [storeAll_append]
        simp [Layout.storeAll]
      rw [hskip] at hnext
      exact hnext.mono (fun κ h => ⟨h.1, fun t x r hr => h.2 t x r (.tail _ hr)⟩) fun _ h => h
    · -- The value is converted and stored.
      generalize hq : (l₁.storeAll e.context first).2.convert r (e.context.typeOf value)
        (e.context.typeOf target) (e.context.span target) = q
      generalize hs : q.layout.store (q.layout.home e.context target) q.value
        (e.context.typeOf target) (e.context.span target) = s
      have hone := storeAll_concat hq hs
      have hall :
        (l₁.storeAll e.context first).2.storeAll e.context ((target, value, some r) :: rest)
          = (q.code ++ s.code ++ (s.layout.storeAll e.context rest).1,
              (s.layout.storeAll e.context rest).2) := by
        simp only [Layout.storeAll, hq, hs]
      have hcomputes := hl.storeAll (c := e.context) first
      -- The entry is a pair of the assignment.
      have hpair : (target, value) ∈ targets.zip values :=
        (mem_zip_zip (show (target, value, some r) ∈ targets.zip (values.zip vs) by
          rw [hstaged]; simp)).1
      have htarget : target ∈ e.context.tree.preorder e.context.root := by
        refine he.sound.tree.child hid ?_
        simp [Tree.children_of_shape hshape, Shape.children, (List.of_mem_zip hpair).1]
      have hvariable := he.sound.isVariable_parallel hid hshape (List.of_mem_zip hpair).1
      rw [storeAll_append, hall, ← List.append_assoc, ← List.append_assoc] at hhas
      have hhere := hhas.append.1
      rw [hone] at hnext
      rw [hall]
      have hstore := Activity.Flows.store he.sound he.casts hid (.parallel hshape hpair)
        (fun d hd => (he.sound.typeOf_home htarget hvariable hd).symm) hcomputes.ordered hq.symm
        hs.symm hhere.append.2 fun hty hne k hk =>
          .stores hid (.parallel hshape h hstaged hq.symm hs.symm hhere (Nat.le_add_right _ k)
            (by simp only [List.length_append] at hk ⊢; omega)) hty hne
      -- The store writes a new register and a home, and the other values are in neither.
      have hkeeps := hstore.frame hhere.append.2
        (F := fun κ => ∀ t x r', (t, x, some r') ∈ rest → HeldValue e.context x (some r') κ)
        fun κ κ' hrun hvalues t x r' hr' => by
          refine heldValue_frame hrun (fun line hline => ?_) (hvalues t x r' hr')
          have hmem : (t, x, some r') ∈ targets.zip (values.zip vs) := by
            rw [hstaged]
            simp [hr']
          obtain ⟨hlt, hbound⟩ := hfree r' (List.of_mem_zip (mem_zip_zip hmem).2).2
          rcases hcomputes.ordered.out_of_unstage hq.symm hs.symm line hline with hnew | hhome
          · exact fun heq => Nat.not_lt.2 (heq ▸ hnew ▸ hcomputes.next_le) hlt
          · intro heq
            rw [heq, hcomputes.bound, hbound] at hhome
            cases hhome
      refine (hkeeps.mono (fun κ h => ⟨⟨h.1, h.2 target value r (.head _)⟩,
        fun t x r' hr' => h.2 t x r' (.tail _ hr')⟩) fun _ h => h).append ?_
      rwa [show n + (code ++ ((l₁.storeAll e.context first).1 ++ (q.code ++ s.code))).length
        = n + (code ++ (l₁.storeAll e.context first).1).length + (q.code ++ s.code).length by
          rw [← List.append_assoc, List.length_append, Nat.add_assoc]] at hnext

/-- Nothing is reached behind a return. -/
theorem Activity.Flows.leaves {left : Operand} {P Q : Point σ → Prop}
    (hhas : e.procedure.Has n [(⟨.ret, .none, left, .none⟩, span)]) :
    e.Flows n P [(⟨.ret, .none, left, .none⟩, span)] Q :=
  .line hhas (fun _ _ _ hop => by cases hop) fun κ κ' _ hpc hstep _ =>
    (hstep.op_ne_ret (hpc ▸ hhas.head.1) rfl).elim

theorem LowerContext.Sound.typeOf_signed (hc : c.Sound) (hid : id ∈ c.tree.preorder c.root)
    {op : NodeId} (hshape : c.tree.shape id = .signed op x) : c.typeOf id ≠ .anyNumber := by
  obtain ⟨τ, hτ, hty⟩ := hc.judged hid hshape
  rw [hτ]
  cases hty with
  | @signed _ _ sign σ _ _ _ => cases σ <;> exact fun h => by cases h

/-- No procedure gives back a decimal number. -/
theorem Activity.Plain.typeOf_call (he : e.Plain) {callee target index : NodeId}
    (hid : id ∈ e.context.tree.preorder e.context.root)
    (hshape : e.context.tree.shape id = .call callee)
    (htarget : e.context.resolution.procedureTarget? e.context.tree callee = some target)
    (hindex : e.linkage.targets[target]? = some index) : e.context.typeOf id ≠ .anyNumber := by
  have hprocedure := Resolution.isProcedure_of_target htarget
  obtain ⟨hmem, result, body, -, hprocedure, -⟩ :=
    he.implements.procedures target index hindex hprocedure
  have hcallee : e.context.typingContext.calleeResult? callee = result := by
    unfold Typing.Context.calleeResult?
    rw [show e.context.typingContext.resolution.procedureTarget? e.context.typingContext.tree callee
      = some target from htarget, Option.bind_some,
      show e.context.typingContext.tree.shape target = _ from hprocedure]
    rfl
  have hty := he.sound.hasType hid
  rw [hshape] at hty
  generalize e.context.typeOf id = τ at hty ⊢
  cases hty with
  | callEmpty => exact fun h => by cases h
  | callTyped _ hresult h =>
    rw [hcallee] at hresult
    subst hresult
    rintro rfl
    exact he.sound.typeOf_result hmem hprocedure h.typeOf

/-! #### Rules -/

/-- Code that has no value, or one that nothing is known of. -/
theorem Activity.Flows.silent {F : Point σ → Prop}
    (h : e.Flows n (Held e.context l) code fun κ => Held e.context l' κ ∧ F κ)
    (hv : e.context.typeOf id = .anyNumber → v = none) :
    e.Flows n (Held e.context l) code fun κ => Held e.context l' κ ∧ HeldValue e.context id v κ :=
  h.post fun κ h => ⟨h.1, fun hty r hr => by rw [hv hty] at hr; cases hr⟩

/-- Code that ends with an instruction whose value is no decimal number. -/
theorem Activity.Flows.apart {F : Point σ → Prop} {i : Instruction}
    (h : e.Flows n (Held e.context l) code fun κ => Held e.context l₁ κ ∧ F κ)
    (hne : e.context.typeOf id ≠ .anyNumber) (hl₁ : l₁.Ordered)
    (hhas : e.procedure.Has (n + code.length) [(i, span)]) (hout : i.out = l₁.next)
    (hskip : ∀ site frame s s', ¬e.machine.Performs e.call site frame s i .skip s')
    (hop : ∀ a b, i.op ≠ .convert a b) :
    e.Flows n (Held e.context l) (code ++ [(i, span)]) fun κ =>
      Held e.context (l₁.computed (e.context.typeOf id)) κ
        ∧ HeldValue e.context id (some l₁.next) κ :=
  Activity.Flows.silent (h.append (Activity.Flows.computes _ hl₁ hhas hout hskip
    (fun _ _ _ h => (hop _ _ h).elim) fun _ _ _ _ _ hty => (hne hty).elim)) fun hty =>
    (hne hty).elim

section

variable (he : e.Plain) (below : ∀ x l code v l', emits x l code v l' →
    Emits e.context e.linkage x l code v l')
  (hid : id ∈ e.context.tree.preorder e.context.root)

include he hid

/-- A variable without an initial value.  Its type is a written one, so there is nothing to keep. -/
theorem EmitsRule.flows_fresh {name : String} {ty : Option NodeId}
    (hshape : e.context.tree.shape id = .var name ty none) :
    e.FlowsNode id l (l.reserved.tie id (e.context.typeOf id) l.next (e.context.span id)).code
      (some (l.reserved.tie id (e.context.typeOf id) l.next (e.context.span id)).value)
      (l.reserved.tie id (e.context.typeOf id) l.next (e.context.span id)).layout := by
  intro n hhas hl
  have hfits := he.sound.tree.fits id hid
  simp only [Tree.fits, hshape, Bool.and_eq_true] at hfits
  have hne : e.context.typeOf id ≠ .anyNumber := by
    have hty := he.sound.hasType hid
    rw [hshape] at hty
    generalize e.context.typeOf id = τ at hty ⊢
    cases hty with
    | @varDeclared _ y _ h =>
      have hy := he.sound.tree.child hid (x := y)
        (by simp [Tree.children_of_shape hshape, Shape.children])
      exact fun hτ => he.sound.typeOf_isType hy hfits.1 (h.typeOf.trans hτ)
  exact Activity.Flows.silent ((Activity.Flows.tie hl.reserved.ordered hhas rfl).mono
    (fun κ h => ⟨⟨h.homes, h.last⟩, fun hty => (hne hty).elim⟩) fun _ h => h)
    fun hty => (hne hty).elim

variable (flows : ∀ x l code v l', emits x l code v l' → e.FlowsNode x l code v l')

include below flows

/-- A store makes a number negative only if it is one of a value of another type. -/
theorem EmitsRule.flows_assign {target value : NodeId} {r : Register}
    (hshape : e.context.tree.shape id = .assign target value)
    (h : EmitsAs e.context emits value (e.context.typeOf target)
      (e.context.span value) l code r l₁) :
    e.FlowsNode id l
      (code ++ (l₁.store (l₁.home e.context target) r (e.context.typeOf target)
        (e.context.span id)).code) none
      (l₁.store (l₁.home e.context target) r (e.context.typeOf target)
        (e.context.span id)).layout := by
  intro n hhas hl
  cases h with
  | converted h hq =>
    subst hq
    rw [List.append_assoc] at hhas ⊢
    have htarget := he.sound.tree.child hid (x := target)
      (by simp [Tree.children_of_shape hshape, Shape.children])
    have hstore := Activity.Flows.store he.sound he.casts hid (.assign hshape)
      (fun d hd => (he.sound.typeOf_home htarget (he.sound.hasKind_assign hid hshape).1 hd).symm)
      ((below _ _ _ _ _ h).ordered hl).1 rfl rfl hhas.append.2 fun hty hne k hk =>
        .stores hid (.assign hshape (below _ _ _ _ _ h) rfl rfl hhas (Nat.le_add_right _ k)
          (by simp only [List.length_append] at hk ⊢; omega)) hty hne
    exact Activity.Flows.silent (((flows _ _ _ _ _ h n hhas.append.1 hl).append hstore).post
      fun κ h => ⟨h, trivial⟩) fun _ => rfl

theorem EmitsRule.flows_parallel {targets values : List NodeId} {vs : List (Option Register)}
    {lines : List CodeLine} (hshape : e.context.tree.shape id = .parallel targets values)
    (h : EmitsStages e.context emits values l code vs l₁)
    (hp : l₁.storeAll e.context (targets.zip (values.zip vs)) = (lines, l')) :
    e.FlowsNode id l (code ++ lines) none l' := by
  intro n hhas hl
  have hfits := he.sound.tree.fits id hid
  simp only [Tree.fits, hshape, Bool.and_eq_true, List.all_eq_true] at hfits
  have hmem {x : NodeId} (hx : x ∈ values) : x ∈ e.context.tree.preorder e.context.root :=
    he.sound.tree.child hid (by simp [Tree.children_of_shape hshape, Shape.children, hx])
  have hcomputes {x : NodeId} (hx : x ∈ values) (l code v l') (h : emits x l code v l') :
      ComputesNode x l code v l' :=
    (below _ _ _ _ _ h).computes he.sound.tree (hmem hx) (hfits.2 x hx)
  have hstaged := h.flows he below (fun x hx => ⟨hmem hx, hfits.2 x hx, flows x⟩)
    hhas.append.1 hl
  have hstores := he.flows_storeAll (n := n) hid hshape (h.mono fun x _ => below x)
    (h.computes (fun x hx => hcomputes hx) hl).ordered
    (fun r hr => (h.free (fun x hx => hcomputes hx) hl r hr).2) []
    (targets.zip (values.zip vs)) rfl (by rwa [List.nil_append, hp])
  simp only [Layout.storeAll, List.append_nil] at hstores
  rw [hp] at hstores
  refine Activity.Flows.silent (hstaged.append (hstores.mono (fun κ h => ⟨h.1, fun t x r hr => ?_⟩)
    fun κ h => ⟨h, trivial⟩)) fun _ => rfl
  exact h.2 x r (mem_zip_zip hr).2

theorem EmitsRule.flows_return {r : Register}
    (hshape : e.context.tree.shape id = .ret (some x)) (h : emits x l code (some r) l₁) :
    e.FlowsNode id l
      (code ++ (l₁.convertResult r (e.context.typeOf x) (e.context.resultTy? id)
          (e.context.span id)).code
        ++ [(⟨.ret, .none, .register (l₁.convertResult r (e.context.typeOf x)
          (e.context.resultTy? id) (e.context.span id)).value, .none⟩, e.context.span id)])
      none (l₁.convertResult r (e.context.typeOf x) (e.context.resultTy? id)
        (e.context.span id)).layout := by
  intro n hhas hl
  have hflows := flows _ _ _ _ _ h n hhas.append.1.append.1 hl
  have hordered := ((below _ _ _ _ _ h).ordered hl).1
  have hconvert : e.Flows (n + code.length)
      (fun κ => Held e.context l₁ κ ∧ HeldValue e.context x (some r) κ)
      (l₁.convertResult r (e.context.typeOf x) (e.context.resultTy? id) (e.context.span id)).code
      (fun _ => True) := by
    cases hresult : e.context.resultTy? id with
    | none => exact .nil fun _ _ => trivial
    | some τ =>
      rw [hresult] at hhas
      refine (Activity.Flows.convert he.sound he.casts hid (.ret hshape hresult) hordered
        hhas.append.1.append.2 fun hτ => ?_).post fun _ _ => trivial
      exact (he.sound.resultTy?_ne_anyNumber hid (hτ ▸ hresult)).elim
  exact (hflows.append hconvert).append (.leaves hhas.append.2)

/-- Numbers are computed by an operator of numbers that are not negative, unless it subtracts. -/
theorem EmitsRule.flows_binary {left op right : NodeId}
    (hshape : e.context.tree.shape id = .binary left op right)
    {sym : BinaryOp} {kind : Kind} {l₂ : Layout} {code₁ code₂ : List CodeLine} {a b : Register}
    (hop : e.context.tree.shape op = .binaryOp sym)
    (hkind : Kind.ofTy? (e.context.typeOf id) = some kind)
    (hleft : EmitsAs e.context emits left (e.context.typeOf id) (e.context.span left) l code₁ a l₁)
    (hright : EmitsAs e.context emits right (e.context.typeOf id) (e.context.span right) l₁ code₂ b
      l₂) :
    e.FlowsNode id l
      (code₁ ++ code₂
        ++ [(⟨.binary sym kind, l₂.next, .register a, .register b⟩, e.context.span id)])
      (some l₂.next) (l₂.computed (e.context.typeOf id)) := by
  intro n hhas hl
  have hfits := he.sound.tree.fits id hid
  simp only [Tree.fits, hshape, Bool.and_eq_true] at hfits
  have hmem := he.sound.tree.child hid (x := right)
    (by simp [Tree.children_of_shape hshape, Shape.children])
  have hstore : (e.context.tree.shape id).isStore = false := by rw [hshape]; rfl
  have hordered : ∀ x l code v l', emits x l code v l' → OrderedNode x l code v l' :=
    fun x l code v l' h => (below x l code v l' h).ordered
  obtain ⟨hl₁, hgiven⟩ := hleft.ordered hordered hl
  obtain ⟨hl₂, -⟩ := hright.ordered hordered hl₁
  have hflows₁ := hleft.flows he below hid (.left hshape)
    ((LowerContext.Coerces.left hshape).anyNumber he.sound hid hstore) (flows left)
    hhas.append.1.append.1 hl
  have hflows₂ := hright.flows he below hid (.right hshape)
    ((LowerContext.Coerces.right hshape).anyNumber he.sound hid hstore) (flows right)
    hhas.append.1.append.2 hl₁
  -- The left operand waits in its register while the right one is evaluated.
  have hwrites :=
    hright.writes (fun l code v l' h => ⟨(below _ _ _ _ _ h).writes he.sound hmem hfits.2,
    (below _ _ _ _ _ h).computes he.sound.tree hmem hfits.2⟩) hl₁
  have hwaits := hflows₂.frame hhas.append.1.append.2
    (F := fun κ => e.context.typeOf id = .anyNumber → κ.NonNegative a)
    fun κ κ' hrun hvalue hty w hw => by
      rw [hrun.frame_eq fun line hline =>
        (hwrites line hline).ne he.sound.tree he.natives hmem hgiven] at hw
      exact hvalue hty w hw
  refine (hflows₁.append hwaits).append ((Activity.Flows.computes (e.context.typeOf id)
    (F := fun κ => (e.context.typeOf id = .anyNumber → κ.NonNegative b)
      ∧ (e.context.typeOf id = .anyNumber → κ.NonNegative a)) hl₂ hhas.append.2 rfl
    (fun _ _ _ _ h => by cases h) (fun _ _ _ hop => by cases hop) ?_).mono
      (fun κ h => ⟨h.1.1, h.1.2, h.2⟩) fun κ h => ⟨h.1, fun hty r hr => ?_⟩)
  · -- A subtraction may negate; all other operators keep the numbers from being negative.
    intro κ w s' hvalues hperforms hty hneg
    cases hperforms with
    | binary ha hb happly =>
      by_cases hsub : sym = .sub
      · cases hleft with
        | converted hleft hq =>
          exact .subtracts hid hshape (.code hl hop hkind (below _ _ _ _ _ hleft) hq
            (hright.mono (below _)) hhas) (hsub ▸ hop) hty
      · have hi64 : kind = .i64 := by
          rw [hty] at hkind
          exact (Option.some.inj hkind).symm
        rw [hi64] at happly
        exact (ArithOp.not_negative hsub happly (hvalues.2 hty _ (read_register_ok.1 ha))
          (hvalues.1 hty _ (read_register_ok.1 hb)) hneg).elim
  · -- The value is what the last instruction writes.
    obtain rfl := Option.some.inj hr
    exact h.2 hty

end

/-- A literal is loaded as it is spelled. -/
theorem Activity.Plain.flows_load (he : e.Plain) (hx : x ∈ e.context.tree.preorder e.context.root)
    {lit : Literal} {value : LiteralValue} {index : Nat}
    (hshape : e.context.tree.shape x = .literal lit)
    (hvalue : e.context.typing.literal? x = some value)
    (hindex : e.linkage.constants[index]? = some value.word)
    (hty : e.context.typeOf id = e.context.typeOf x) :
    e.FlowsNode id l (l.load index (e.context.typeOf x) span).code
      (some (l.load index (e.context.typeOf x) span).value)
      (l.load index (e.context.typeOf x) span).layout := by
  intro n hhas hl
  have hword : e.machine.program.constants[index]? = some value.word :=
    he.implements.constants ▸ hindex
  refine (Activity.Flows.load hl hhas hword fun hnumber =>
    he.sound.literal_not_negative he.literals hx hshape hnumber hvalue).post fun κ h => ⟨h.1, ?_⟩
  intro hnumber r hr
  obtain rfl := Option.some.inj hr
  exact h.2 (hty ▸ hnumber)

/-- A name has the value that its declaration has kept. -/
theorem Activity.Plain.flows_own (he : e.Plain) {decl : NodeId} {name : String}
    (hid : id ∈ e.context.tree.preorder e.context.root)
    (hshape : e.context.tree.shape id = .ident name)
    (hdecl : e.context.resolution.declaration? id = some decl)
    (hown : l.registers[decl]? = some r) : e.FlowsNode id l [] (some r) l := by
  intro n _ _
  refine .nil fun κ hheld => ⟨hheld, fun hty r' hr => ?_⟩
  obtain rfl := Option.some.inj hr
  exact hheld.homes _ _ hown ((he.sound.typeOf_ident hid hshape hdecl).symm.trans hty)

/-- A name that stands for a literal loads it. -/
theorem Activity.Plain.flows_constant (he : e.Plain) {decl : NodeId} {name : String} {lit : Literal}
    {value : LiteralValue} {index : Nat} (hid : id ∈ e.context.tree.preorder e.context.root)
    (hshape : e.context.tree.shape id = .ident name)
    (hdecl : e.context.resolution.declaration? id = some decl)
    (hlit : Lower.literalConstant? e.context.tree decl = some (x, lit))
    (hvalue : e.context.typing.literal? x = some value)
    (hindex : e.linkage.constants[index]? = some value.word) :
    e.FlowsNode id l (l.load index (e.context.typeOf x) span).code
      (some (l.load index (e.context.typeOf x) span).value)
      (l.load index (e.context.typeOf x) span).layout := by
  obtain ⟨decl', hdecl', hmem, -⟩ := he.sound.analysis.bound id _ hid hshape
  obtain rfl := Option.some.inj (hdecl.symm.trans hdecl')
  obtain ⟨hx, hxshape, hty⟩ := he.sound.literalConstant hmem hlit
  exact he.flows_load hx hxshape hvalue hindex
    ((he.sound.typeOf_ident hid hshape hdecl).trans hty.symm)

/-- **Code keeps decimal numbers from being negative**, up to subtractions and stores of other
types. -/
theorem Emits.flows (he : e.Plain) (hid : id ∈ e.context.tree.preorder e.context.root)
    (hitem : (e.context.tree.shape id).isItem = true)
    (h : Emits e.context e.linkage id l code v l') : e.FlowsNode id l code v l' := by
  have hc := he.sound
  refine Emits.item_induction hc.tree hid (motive := e.FlowsNode)
    (fun emits id hid hitem ih l code v l' _ hrule => ?_) hitem h
  have below (x l code v l') (h : emits x l code v l') : Emits e.context e.linkage x l code v l' :=
    (ih x l code v l' h).2.1
  have flows (x l code v l') (h : emits x l code v l') : e.FlowsNode x l code v l' :=
    (ih x l code v l' h).2.2
  clear ih
  have hcast := he.casts id hid
  have hnative := he.natives id hid
  generalize hshape : e.context.tree.shape id = shape at hrule hitem hcast hnative
  intro n hhas hl
  -- Code that is empty keeps what is held, if it gives no value.
  have stay (h : e.context.typeOf id = .anyNumber → v = none) :
      e.Flows n (Held e.context l) [] fun κ => Held e.context l κ ∧ HeldValue e.context id v κ :=
    .nil fun κ hheld => ⟨hheld, fun hty r hr => by rw [h hty] at hr; cases hr⟩
  cases hrule with
  | module h | block h =>
    exact Activity.Flows.silent ((h.flows below (fun x _ => flows x) hhas hl).post
      fun κ h => ⟨h, trivial⟩) fun _ => rfl
  | inert | procedure | identProcedure | identAbsent => exact stay fun _ => rfl
  | constant h =>
    exact h.flows he below hid (.constant hshape) (by rw [hshape]; rfl) (flows _) n hhas hl
  | var h => exact h.flows he below hid (.var hshape) (by rw [hshape]; rfl) (flows _) n hhas hl
  | varFresh hnew hp =>
    subst hp
    exact EmitsRule.flows_fresh he hid hshape n hhas hl
  | exprStmt h | assignMissing h | retMissing h =>
    exact Activity.Flows.silent (flows _ _ _ _ _ h n hhas hl) fun _ => rfl
  | assign h hp =>
    subst hp
    exact EmitsRule.flows_assign he below hid flows hshape h n hhas hl
  | parallel h hp =>
    exact EmitsRule.flows_parallel he below hid flows hshape h hp n hhas hl
  | retBare => exact .leaves hhas
  | ret h hp =>
    subst hp
    exact EmitsRule.flows_return he below hid flows hshape h n hhas hl
  | literal hvalue hindex hp =>
    subst hp
    exact he.flows_load hid hshape hvalue hindex rfl n hhas hl
  | identOwn hdecl _ hown => exact he.flows_own hid hshape hdecl hown n hhas hl
  | identLiteral hdecl _ _ hlit hvalue hindex hp =>
    subst hp
    exact he.flows_constant hid hshape hdecl hlit hvalue hindex n hhas hl
  | binary hop hkind hleft hright =>
    exact EmitsRule.flows_binary he below hid flows hshape hop hkind hleft hright n hhas hl
  -- A sign makes a type that is not that of decimal numbers.
  | plus _ h =>
    have hne := hc.typeOf_signed hid hshape
    exact Activity.Flows.silent (h.flows he below hid (.sign hshape) (fun hty => (hne hty).elim)
      (flows _) hhas hl) fun hty => (hne hty).elim
  | folded _ _ hindex hp =>
    subst hp
    have hne := hc.typeOf_signed hid hshape
    exact Activity.Flows.silent (Activity.Flows.load hl hhas (he.implements.constants ▸ hindex)
      fun hty => (hne hty).elim) fun hty => (hne hty).elim
  | minus _ _ _ h =>
    have hne := hc.typeOf_signed hid hshape
    have hordered := (h.ordered (fun x l code v l' h => (below x l code v l' h).ordered) hl).1
    have hvalue := h.flows he below hid (.sign hshape) (fun hty => (hne hty).elim) (flows _)
      hhas.append.1 hl
    exact hvalue.apart hne hordered hhas.append.2 rfl (fun _ _ _ _ h => by cases h)
      fun _ _ hop => by cases hop
  | group h =>
    have hty := hc.typeOf_group hid hshape
    exact (flows _ _ _ _ _ h n hhas hl).post
      fun κ h => ⟨h.1, fun hnumber => h.2 (hty.symm.trans hnumber)⟩
  | call h htarget hindex =>
    have hne := he.typeOf_call hid hshape htarget hindex
    have hordered := ((below _ _ _ _ _ h).ordered hl).1
    exact (flows _ _ _ _ _ h n hhas.append.1 hl).apart hne hordered hhas.append.2 rfl
      (fun _ _ _ _ h => by cases h) fun _ _ hop => by cases hop
  | castMissing | cast => cases hcast
  | nativeSilent | native => cases hnative
  | slot => cases hitem

/-! ### Procedures -/

variable {body : NodeId} {result : Option Ty}

/-- Where an activation begins nothing is negative. -/
theorem Activity.holdsAt_start (e : Activity σ) : e.HoldsAt 0 (Held e.context .initial) :=
  fun _ _ _ => .inr ⟨fun d r hr => by simp [Layout.initial] at hr, fun h => by cases h⟩

/-- **Signed integers that become unsigned are not negative**, up to what may make a number so.  The
value written last may have another signed type. -/
theorem Compiles.unsigns (he : e.Plain) (hbody : body ∈ e.context.tree.preorder e.context.root)
    (hitem : (e.context.tree.shape body).isItem = true)
    (h : Compiles e.context e.linkage body result e.procedure) :
    e.UnsignsAt n
      ∨ ∃ σ τ, ClosesAt e.context e.linkage e.procedure body result σ τ n ∧ σ ≠ .anyNumber := by
  obtain ⟨code, v, l, hemits, -, hhas, hcode, -⟩ := h.traced he.sound hbody hitem
  have hflows := hemits.flows he hbody hitem 0 hhas.append.1 .initial
  rcases Nat.lt_or_ge n code.length with hlt | hge
  · have hunsigns := hflows.unsigns e.holdsAt_start n hlt
    exact .inl (Nat.zero_add n ▸ hunsigns)
  -- What is left is the conversion of the value written last.
  by_cases hlast : ∃ τ, result = some τ ∧ n = code.length ∧ l.lastRegister ≠ .none
      ∧ l.lastTy ≠ .anyNumber
  · obtain ⟨τ, hresult, rfl, hnone, hne⟩ := hlast
    exact .inr ⟨l.lastTy, τ, .code hresult hemits hcode hnone rfl, hne⟩
  · left
    intro a b out r right hline ha hb
    rw [← Array.getElem?_toList, hcode, List.getElem?_map, Option.map_eq_some_iff] at hline
    obtain ⟨line, hget, heq⟩ := hline
    rw [List.getElem?_append_right hge] at hget
    obtain ⟨hn, hnone, τ, a', b', hresult, ha', -, -, rfl⟩ := getElem?_convertLast.1 hget
    obtain rfl := Nat.le_antisymm (Nat.le_of_sub_eq_zero hn) hge
    have hty : l.lastTy = .anyNumber := Classical.byContradiction fun hne =>
      hlast ⟨τ, hresult, rfl, hnone, hne⟩
    cases heq
    rw [hty] at ha'
    cases ha'
    have hend := hflows.holds e.holdsAt_start
    rw [Nat.zero_add] at hend
    exact hend.mono fun κ hheld w hw => Int.not_lt.1 (hheld.1.last hty w hw)

/-! ### Programs -/

/-- After `n` instructions some procedure of the program is at a conversion of a signed integer of
64 bits to an unsigned one, and the operand is `v`. -/
def Compiled.unsigns (compiled : Compiled) (n : Nat) (v : Int) : Bool :=
  compiled.program.procedures.any fun p =>
    (compiled.machine.advance (compiled.machine.calls 2) p n (.start p (.initial ()))).any fun κ =>
      (p.code[κ.pc]?).any fun i =>
        decide (i.op = .convert .i64 .u64)
          && (κ.frame.read i.left).toOption.any fun w => decide (IntKind.value ⟨true, .w64⟩ w = v)

/-- Whether the node is an expression with a sign in front. -/
def Shape.isSigned : Shape → Bool
  | .signed _ _ => true
  | _ => false

end MiddleEnd
