import MiddleEnd.Proofs.Lowering.Faithful
import MiddleEnd.Proofs.Resolution.Targets

/-!
# Lowering comes to its end

A sound tree is lowered to its end, or lowering stops at a limit.  Whatever it has to refuse on the
way, it never meets what its rules do not expect: the nodes that are still to be lowered determine
which procedures have been opened, and every declaration with an owner has a register there.

## Main definitions

* `Lowering.Awaits` — what is known where the subtrees of a list of nodes come next.
* `Lower.Arrives` — a computation that leads to such a state, or stops at a limit.

## Main results

* `Lowering.Awaits.target` — a procedure that is called has been opened.
* `Lower.rule_arrives` — one rule, over the nodes below.
* `Lower.node_arrives` — **a node of a sound tree is lowered to its end, unless a limit stops it**.
-/

namespace MiddleEnd

open Runs

/-- Whether lowering stopped because a resource ran out. -/
def Stop.IsLimit : Stop → Prop
  | .limit _ => True
  | .misuse _ => False

namespace Lowering

/-- What is known where the subtrees of `ids` come next in the listing of the tree.  There are `n`
procedures or more, those opened are the ones listed before, and owners have registers. -/
structure Awaits (c : LowerContext) (n : Nat) (ids : List NodeId) (s : Lowering) : Prop where
  /-- The subtrees follow each other in the listing of the tree, up to its end. -/
  listing : ∃ before, c.tree.preorder c.root = before ++ ids.flatMap c.tree.preorder
  /-- The procedure that instructions are appended to exists. -/
  frame : s.frame.index < s.program.procedures.size
  /-- There are at least `n` procedures. -/
  size : n ≤ s.program.procedures.size
  /-- A declaration with an owner has a register there. -/
  owned : ∀ (d : NodeId) (j : Nat), s.ownerOf[d]? = some j →
    ∃ p r, s.program.procedures[j]? = some p ∧ p.registers[d]? = some r
  /-- The procedures that have been opened are those listed before. -/
  opened : ∀ q ∈ c.tree.preorder c.root, (c.tree.shape q).isProcedure = true →
    (s.procedureOf[q]?.isSome = true ↔ q ∉ ids.flatMap c.tree.preorder)
  /-- Every procedure but the start is the code of one of them. -/
  indices : ∀ j, 0 < j → j < s.program.procedures.size → ∃ q ∈ c.tree.preorder c.root,
    (c.tree.shape q).isProcedure = true ∧ s.procedureOf[q]? = some j

namespace Awaits

variable {c : LowerContext} {n : Nat} {ids xs : List NodeId} {id x : NodeId} {s : Lowering}

/-! ### From node to node -/

theorem mem (h : s.Awaits c n (x :: ids)) : x ∈ c.tree.preorder c.root := by
  obtain ⟨before, hlisting⟩ := h.listing
  rw [hlisting, List.flatMap_cons, c.tree.preorder_eq]
  simp

/-- Nodes that are no procedures have been passed. -/
theorem pass {between : List NodeId} (h : s.Awaits c n ids)
    (hids : ids.flatMap c.tree.preorder = between ++ xs.flatMap c.tree.preorder)
    (hplain : ∀ y ∈ between, (c.tree.shape y).isProcedure = false) : s.Awaits c n xs := by
  obtain ⟨before, hlisting⟩ := h.listing
  rw [hids] at hlisting
  refine
    { listing := ⟨before ++ between, by rw [hlisting, List.append_assoc]⟩
      frame := h.frame
      size := h.size
      owned := h.owned
      opened := fun q hq hproc => ?_
      indices := h.indices }
  rw [h.opened q hq hproc, hids, List.mem_append, not_or]
  refine and_iff_right fun hmem => ?_
  rw [hplain q hmem] at hproc
  cases hproc

/-- Subtrees without a declaration are not lowered. -/
theorem skip (h : s.Awaits c n (x :: ids))
    (hplain : ∀ y ∈ c.tree.preorder x, c.tree.IsPlain y) : s.Awaits c n ids :=
  h.pass List.flatMap_cons fun y hy => (hplain y hy).2

theorem skipAll {plain : List NodeId} (h : s.Awaits c n (plain ++ ids))
    (hplain : ∀ x ∈ plain, ∀ y ∈ c.tree.preorder x, c.tree.IsPlain y) : s.Awaits c n ids := by
  induction plain with
  | nil => exact h
  | cons x plain ih => exact ih (h.skip (hplain x (.head _))) fun y hy => hplain y (.tail _ hy)

/-- From a node to its children, unless it is a procedure. -/
theorem children {shape : Shape} (h : s.Awaits c n (id :: ids)) (hshape : c.tree.shape id = shape)
    (hproc : shape.isProcedure = false) : s.Awaits c n (shape.children ++ ids) := by
  have hids : (id :: ids).flatMap c.tree.preorder
      = [id] ++ (shape.children ++ ids).flatMap c.tree.preorder := by
    rw [List.flatMap_cons, c.tree.preorder_eq, Tree.children_of_shape hshape, List.flatMap_append]
    rfl
  refine h.pass hids fun y hy => ?_
  obtain rfl := List.mem_singleton.1 hy
  rw [hshape, hproc]

/-- **A procedure that is called has been opened**, once the callee has been lowered. -/
theorem target {callee p : NodeId} {s₁ : Lowering} (h : s.Awaits c n (callee :: ids))
    (h₁ : s₁.Awaits c n ids) (hnodup : (c.tree.preorder c.root).Nodup)
    (hexact : Resolution.Exact c.tree c.root [] [] c.resolution)
    (hp : c.resolution.procedureTarget? c.tree callee = some p) :
    s₁.procedureOf[p]?.isSome = true := by
  obtain ⟨hmem, hproc, -⟩ := hexact.target_before hnodup h.mem hp
  obtain ⟨before, hlisting⟩ := h.listing
  rw [List.flatMap_cons] at hlisting
  rw [h₁.opened p hmem hproc]
  exact hexact.target_notMem_after hnodup hlisting hp

/-! ### Steps -/

/-- A change of the current procedure that loses no register of a declaration. -/
theorem onCurrent (h : s.Awaits c n ids) {f : Procedure → Procedure}
    (hf : ∀ p : Procedure, (f p).registers = p.registers) : (s.onCurrent f).Awaits c n ids where
  listing := h.listing
  frame := by simpa using h.frame
  size := by simpa using h.size
  owned d j hj := by
    obtain ⟨p, r, hp, hr⟩ := h.owned d j hj
    rw [getElem?_onCurrent]
    split
    · exact ⟨f p, r, by rw [hp]; rfl, by rw [hf, hr]⟩
    · exact ⟨p, r, hp, hr⟩
  opened := h.opened
  indices j hpos hj := h.indices j hpos (by simpa using hj)

theorem emitted (h : s.Awaits c n ids) (i : Instruction) (ty : Ty) (span : Span) :
    (s.emitted i ty span).Awaits c n ids :=
  h.onCurrent fun _ => Procedure.registers_extend _ _ _ _

theorem allocated (h : s.Awaits c n ids) : s.allocated.Awaits c n ids :=
  h.onCurrent fun _ => Procedure.registers_allocate _

theorem withConstant (h : s.Awaits c n ids) (w : Word) : (s.withConstant w).Awaits c n ids :=
  ⟨h.listing, h.frame, h.size, h.owned, h.opened, h.indices⟩

theorem withNative (h : s.Awaits c n ids) (call : NativeCall) :
    (s.withNative call).Awaits c n ids :=
  ⟨h.listing, h.frame, h.size, h.owned, h.opened, h.indices⟩

theorem withProblem (h : s.Awaits c n ids) (p : LoweringProblem) :
    (s.withProblem p).Awaits c n ids :=
  ⟨h.listing, h.frame, h.size, h.owned, h.opened, h.indices⟩

/-- A declaration that is given a register is owned by the current procedure. -/
theorem tie (h : s.Awaits c n ids) (d : NodeId) (r : Register) : (s.tie c d r).Awaits c n ids where
  listing := h.listing
  frame := by simpa [Lowering.tie] using h.frame
  size := by simpa [Lowering.tie] using h.size
  owned x j hj := by
    -- Only the current procedure and the owner of `d` have changed.
    have hget : (s.tie c d r).program.procedures[j]? = if s.frame.index = j
        then s.program.procedures[j]?.map fun p => { p with registers := p.registers.insert d r }
        else s.program.procedures[j]? := by
      unfold Lowering.tie
      rw [getElem?_onCurrent]
    have howner : (s.tie c d r).ownerOf[x]?
        = if d = x then some s.frame.index else s.ownerOf[x]? := by
      show (s.ownerOf.insert d s.frame.index)[x]? = _
      simp [Std.TreeMap.getElem?_insert]
    rw [howner] at hj
    rw [hget]
    by_cases hdx : d = x
    · rw [if_pos hdx] at hj
      obtain rfl := Option.some.inj hj
      rw [if_pos rfl, getElem?_current h.frame]
      exact ⟨_, r, rfl, by simp [hdx]⟩
    · rw [if_neg hdx] at hj
      obtain ⟨p, r', hp, hr'⟩ := h.owned x j hj
      split
      · exact ⟨_, r', by rw [hp]; rfl, by simp [Std.TreeMap.getElem?_insert, hdx, hr']⟩
      · exact ⟨p, r', hp, hr'⟩
  opened := h.opened
  indices j hpos hj := h.indices j hpos (by simpa [Lowering.tie] using hj)

/-- The procedure of `id` is opened and entered. -/
theorem opened_inFrame {shape : Shape} (h : s.Awaits c n (id :: ids))
    (hnodup : (c.tree.preorder c.root).Nodup) (hshape : c.tree.shape id = shape)
    (hproc : shape.isProcedure = true) (name : String) (isConstant : Bool) (result : Option Ty) :
    ((s.opened id name isConstant).inFrame ⟨s.program.procedures.size, result, ∅⟩).Awaits c
      (s.program.procedures.size + 1) (shape.children ++ ids) := by
  have hlist : (id :: ids).flatMap c.tree.preorder
      = id :: (shape.children ++ ids).flatMap c.tree.preorder := by
    rw [List.flatMap_cons, c.tree.preorder_eq, Tree.children_of_shape hshape, List.flatMap_append]
    rfl
  obtain ⟨before, hlisting⟩ := h.listing
  rw [hlist] at hlisting
  have hfresh : id ∉ (shape.children ++ ids).flatMap c.tree.preorder := by
    rw [hlisting, List.nodup_append] at hnodup
    exact (List.nodup_cons.1 hnodup.2.1).1
  refine
    { listing := ⟨before ++ [id], by rw [hlisting, List.append_assoc]; rfl⟩
      frame := by rw [Lower.size_opened]; exact Nat.lt_succ_self _
      size := Nat.le_of_eq (Lower.size_opened _ _ _ _ _).symm
      owned := fun d j hj => ?_
      opened := fun q hq hproc => ?_
      indices := fun j hpos hj => ?_ }
  · obtain ⟨p, r, hp, hr⟩ := h.owned d j hj
    refine ⟨p, r, ?_, hr⟩
    have hj := (Array.getElem?_eq_some_iff.1 hp).1
    simp only [Lowering.opened, inFrame]
    rw [Array.getElem?_push, if_neg (Nat.ne_of_lt hj), hp]
  · rw [Lower.procedureOf_opened]
    by_cases hne : id = q
    · rw [if_pos hne, ← hne]
      exact iff_of_true rfl hfresh
    · rw [if_neg hne, h.opened q hq hproc, hlist, List.mem_cons, not_or]
      exact and_iff_right (Ne.symm hne)
  · rw [Lower.size_opened] at hj
    by_cases hlast : j = s.program.procedures.size
    · refine ⟨id, h.mem, by rw [hshape, hproc], ?_⟩
      rw [Lower.procedureOf_opened, if_pos rfl, hlast]
    · obtain ⟨q, hq, hqproc, hindex⟩ := h.indices j hpos (by omega)
      refine ⟨q, hq, hqproc, ?_⟩
      rw [Lower.procedureOf_opened, if_neg ?_, hindex]
      -- The node has not been opened before.
      rintro rfl
      have hnot := (h.opened id hq hqproc).1 (by rw [hindex]; rfl)
      exact hnot (hlist ▸ .head _)

/-- Back in the procedure around. -/
theorem leave {outer : Frame} (h : s.Awaits c n ids) (houter : outer.index < n) :
    (s.inFrame outer).Awaits c n ids :=
  ⟨h.listing, Nat.lt_of_lt_of_le houter h.size, h.size, h.owned, h.opened, h.indices⟩

theorem lower {m : Nat} (h : s.Awaits c n ids) (hm : m ≤ n) : s.Awaits c m ids :=
  { h with size := Nat.le_trans hm h.size }

end Awaits

end Lowering

namespace Lower

open Lowering

/-- A computation that leads to where the subtrees of `ids` come next, or stops at a limit. -/
def Arrives {α : Type} (c : LowerContext) (n : Nat) (ids : List NodeId) (x : Lower α)
    (s : Lowering) : Prop :=
  Meets Stop.IsLimit x s fun _ s' => s'.Awaits c n ids

variable {c : LowerContext} {n : Nat} {ids ids' : List NodeId} {s : Lowering} {α β : Type}

theorem Arrives.bind {m : Nat} {x : Lower α} {f : α → Lower β} (hx : Arrives c m ids x s)
    (hf : ∀ a s', s'.Awaits c m ids → Arrives c n ids' (f a) s') : Arrives c n ids' (x >>= f) s :=
  Meets.bind hx hf

theorem arrives_pure {a : α} (h : s.Awaits c n ids) : Arrives c n ids (pure a : Lower α) s :=
  meets_pure.2 h

theorem arrives_get {f : Lowering → Lower α} (h : Arrives c n ids (f s) s) :
    Arrives c n ids (get >>= f) s :=
  meets_bind.2 (meets_get.2 h)

theorem arrives_modify {f : Lowering → Lowering} (h : (f s).Awaits c n ids) :
    Arrives c n ids (modify f) s :=
  meets_modify.2 h

/-- Nothing comes after a limit. -/
theorem arrives_exhausted {l : Limit} {f : α → Lower β} :
    Arrives c n ids (exhausted l >>= f) s :=
  meets_bind.2 (meets_throw.2 trivial)

/-! ### Steps -/

theorem report_arrives (h : s.Awaits c n ids) (p : LoweringProblem) :
    Arrives c n ids (report p) s :=
  arrives_modify (h.withProblem p)

/-- What is reported has no value. -/
theorem refused_arrives (h : s.Awaits c n ids) (p : LoweringProblem) (a : α) :
    Arrives c n ids (do report p; return a) s :=
  (report_arrives h p).bind fun _ _ h => arrives_pure h

theorem emit_arrives (h : s.Awaits c n ids) (i : Instruction) (ty : Ty) (span : Span) :
    Arrives c n ids (emit i ty span) s :=
  arrives_get (arrives_modify (h.emitted i ty span))

theorem fresh_arrives (h : s.Awaits c n ids) (span : Span) : Arrives c n ids (fresh c span) s := by
  apply arrives_get
  dsimp only
  split
  · exact arrives_exhausted
  · exact (arrives_get (arrives_modify h.allocated)).bind fun _ _ h => arrives_pure h

theorem constant_arrives (h : s.Awaits c n ids) (w : Word) (span : Span) :
    Arrives c n ids (constant w span) s := by
  apply arrives_get
  dsimp only
  split
  · exact arrives_exhausted
  · exact (arrives_modify (h.withConstant w)).bind fun _ _ h => arrives_pure h

theorem addNative_arrives (h : s.Awaits c n ids) (call : NativeCall) (span : Span) :
    Arrives c n ids (addNative call span) s := by
  apply arrives_get
  dsimp only
  split
  · exact arrives_exhausted
  · exact (arrives_modify (h.withNative call)).bind fun _ _ h => arrives_pure h

/-- A register is given out and written. -/
theorem computed_arrives (h : s.Awaits c n ids) (i : Register → Instruction) (ty : Ty)
    (span : Span) (f : Register → α) :
    Arrives c n ids (do let out ← fresh c span; emit (i out) ty span; return f out) s :=
  (fresh_arrives h span).bind fun _ _ h =>
    (emit_arrives h _ ty span).bind fun _ _ h => arrives_pure h

theorem load_arrives (h : s.Awaits c n ids) (w : Word) (ty : Ty) (span : Span) :
    Arrives c n ids (load c w ty span) s :=
  (constant_arrives h w span).bind fun index _ h =>
    computed_arrives h (fun out => ⟨.loadConstant, out, .constant index, .none⟩) ty span id

theorem convert_arrives (h : s.Awaits c n ids) (value : Register) (source dest : Ty) (span : Span) :
    Arrives c n ids (convert c value source dest span) s := by
  unfold convert
  split
  · next a b _ _ =>
    split
    · exact arrives_pure h
    · exact computed_arrives h (fun out => ⟨.convert a b, out, .register value, .none⟩) dest span id
  · exact arrives_pure h

/-- The last part of `bind`, once the register is chosen. -/
theorem tie_arrives (h : s.Awaits c n ids) (decl : NodeId) (register : Register) :
    Arrives c n ids (do
      modify fun s =>
        { s with
          frame := { s.frame with bound := s.frame.bound.insert register }
          ownerOf := s.ownerOf.insert decl s.frame.index }
      modifyCurrent fun p => { p with registers := p.registers.insert decl register }
      if (← get).frame.index = 0 ∧ c.links.enclosingScope? c.tree decl = some c.root then
        if let some name := (c.tree.shape decl).declaredName? then
          modifyProgram fun p => { p with dataSymbols := p.dataSymbols.insert name register }
      return register) s := by
  -- Whether or not there is a symbol to enter, the state is the one that `tie` describes.
  have htie := h.tie decl register
  refine meets_bind.2 (meets_modify.2 (meets_bind.2 (meets_bind.2 (meets_get.2 ?_))))
  refine meets_modify.2 (meets_bind.2 (meets_get.2 ?_))
  dsimp only
  split
  · next hroot =>
    have hroot : s.frame.index = 0 ∧ c.links.enclosingScope? c.tree decl = some c.root := hroot
    split
    · next name hname =>
      refine meets_bind.2 (meets_modify.2 (meets_pure.2 ?_))
      simpa [Lowering.tie, onCurrent, symbolsWith, hroot, hname] using htie
    · next hname =>
      refine meets_pure.2 ?_
      cases hname' : (c.tree.shape decl).declaredName? with
      | some name => exact (hname name hname').elim
      | none => simpa [Lowering.tie, onCurrent, symbolsWith, hname'] using htie
  · next hroot =>
    have hroot : ¬(s.frame.index = 0 ∧ c.links.enclosingScope? c.tree decl = some c.root) := hroot
    refine meets_pure.2 ?_
    simpa [Lowering.tie, onCurrent, symbolsWith, hroot] using htie

theorem isBound_arrives (h : s.Awaits c n ids) (r : Register) : Arrives c n ids (isBound r) s :=
  arrives_get (arrives_pure h)

theorem bind_arrives (h : s.Awaits c n ids) (decl : NodeId) (value : Register) (span : Span) :
    Arrives c n ids (Lower.bind c decl value span) s := by
  unfold Lower.bind
  refine (isBound_arrives h value).bind fun bound s₁ h₁ => ?_
  cases bound with
  | false => exact (arrives_pure h₁).bind fun register s₂ h₂ => tie_arrives h₂ decl register
  | true =>
    exact (fresh_arrives h₁ span).bind fun out s₂ h₂ =>
      (emit_arrives h₂ ⟨.copy, out, .register value, .none⟩ (c.typeOf decl) span).bind
        fun _ s₃ h₃ => (arrives_pure h₃).bind fun register s₄ h₄ => tie_arrives h₄ decl register

/-! ### Rules -/

/-- The nodes before `id` are lowered to their ends. -/
def ArrivesBelow (c : LowerContext) (lower : NodeId → Lower (Option Register)) (id : NodeId) :
    Prop :=
  ∀ (n : Nat) (x : NodeId) (ids : List NodeId) (s : Lowering), x < id → s.Awaits c n (x :: ids) →
    Arrives c n ids (lower x) s

section Rules

variable {lower : NodeId → Lower (Option Register)} {id x : NodeId} (hc : c.Sound)
  (ih : ArrivesBelow c lower id)

include ih

theorem operand_arrives (hx : x < id) (h : s.Awaits c n (x :: ids)) (ty : Ty) :
    Arrives c n ids (operand c lower x ty) s := by
  refine (ih n x ids s hx h).bind fun v s₁ h₁ => ?_
  cases v with
  | none => exact arrives_pure h₁
  | some r => exact (convert_arrives h₁ r _ _ _).bind fun _ _ h₂ => arrives_pure h₂

/-- An initial value is lowered, converted and tied. -/
theorem constantRule_arrives (hx : x < id) (h : s.Awaits c n (x :: ids)) :
    Arrives c n ids (constantRule c lower id x) s := by
  refine (ih n x ids s hx h).bind fun v s₁ h₁ => ?_
  cases v with
  | none => exact arrives_pure h₁
  | some r =>
    exact (convert_arrives h₁ r _ _ _).bind fun value s₂ h₂ =>
      (bind_arrives h₂ id value _).bind fun _ _ h₃ => arrives_pure h₃

theorem castRule_arrives (hx : x < id) (h : s.Awaits c n (x :: ids)) :
    Arrives c n ids (castRule c lower id x) s := by
  refine (ih n x ids s hx h).bind fun v s₁ h₁ => ?_
  cases v with
  | none => exact arrives_pure h₁
  | some r => exact (convert_arrives h₁ r _ _ _).bind fun _ _ h₂ => arrives_pure h₂

theorem items_arrives {items : List NodeId} (hitems : ∀ x ∈ items, x < id)
    (h : s.Awaits c n (items ++ ids)) :
    Arrives c n ids (items.forM fun item => discard (lower item)) s := by
  induction items generalizing s with
  | nil => exact meets_forM_nil.2 h
  | cons item items ihrest =>
    refine meets_forM_cons.2 (Meets.discard ?_)
    exact (ih n item _ s (hitems item (.head _)) h).mono fun _ s₁ h₁ =>
      ihrest (fun x hx => hitems x (.tail _ hx)) h₁

theorem stage_arrives (hx : x < id) (h : s.Awaits c n (x :: ids)) :
    Arrives c n ids (stage c lower x) s := by
  refine (ih n x ids s hx h).bind fun v s₁ h₁ => ?_
  cases v with
  | none => exact arrives_pure h₁
  | some r =>
    refine (isBound_arrives h₁ r).bind fun bound s₂ h₂ => ?_
    cases bound with
    | false => exact arrives_pure h₂
    | true =>
      exact computed_arrives h₂ (fun out => ⟨.copy, out, .register r, .none⟩) (c.typeOf x) _ some

theorem stages_arrives {values : List NodeId} (hvalues : ∀ x ∈ values, x < id)
    (h : s.Awaits c n (values ++ ids)) : Arrives c n ids (values.mapM (stage c lower)) s := by
  induction values generalizing s with
  | nil => exact meets_mapM_nil.2 h
  | cons value values ihrest =>
    refine meets_mapM_cons.2 ((stage_arrives ih (hvalues value (.head _)) h).mono fun _ s₁ h₁ => ?_)
    exact ihrest (fun x hx => hvalues x (.tail _ hx)) h₁

omit ih

/-! ### Stores -/

/-- A store to what has a declaration meets nothing unexpected. -/
theorem place_arrives {target decl : NodeId}
    (hdecl : c.resolution.declaration? (c.tree.ungroup target) = some decl)
    (h : s.Awaits c n ids) : Arrives c n ids (place c target) s := by
  unfold place
  simp only [hdecl]
  refine arrives_get ?_
  cases s.ownerOf[decl]? with
  | none => exact arrives_pure h
  | some owner =>
    dsimp only
    split
    · exact refused_arrives h _ _
    · exact arrives_pure h

theorem store_arrives {target : NodeId} (hvariable : c.typingContext.IsVariable target)
    (h : s.Awaits c n ids) (value : Register) (span : Span) :
    Arrives c n ids (store c target value span) s := by
  obtain ⟨decl, -, -, -, hdecl, -⟩ := hvariable
  refine (place_arrives hdecl h).bind fun v s₁ h₁ => ?_
  cases v with
  | none => exact arrives_pure h₁
  | some r => exact emit_arrives h₁ _ _ _

theorem stores_arrives {triples : List (NodeId × NodeId × Option Register)}
    (hvariable : ∀ triple ∈ triples, c.typingContext.IsVariable triple.1) (h : s.Awaits c n ids) :
    Arrives c n ids (triples.forM fun (target, value, register) => do
      match register with
      | none => return
      | some register =>
        let converted ← convert c register (c.typeOf value) (c.typeOf target) (c.span target)
        store c target converted (c.span target)) s := by
  induction triples generalizing s with
  | nil => exact meets_forM_nil.2 h
  | cons triple triples ihrest =>
    obtain ⟨target, value, register⟩ := triple
    refine meets_forM_cons.2 (Meets.mono (P := fun _ s' => s'.Awaits c n ids) ?_ fun _ s₁ h₁ =>
      ihrest (fun e he => hvariable e (.tail _ he)) h₁)
    cases register with
    | none => exact arrives_pure h
    | some r =>
      exact (convert_arrives h r _ _ _).bind fun converted _ h₁ =>
        store_arrives (hvariable _ (.head _)) h₁ converted _

/-! ### Expressions -/

/-- The value of a literal is loaded. -/
theorem loadValue_arrives (hvalue : ∃ v, c.typing.literal? x = some v) (span : Span)
    (h : s.Awaits c n ids) : Arrives c n ids
      (match c.typing.literal? x with
        | none => misuse (.noValue x)
        | some v => return some (← load c v.word (c.typeOf x) span)) s := by
  obtain ⟨v, hv⟩ := hvalue
  simp only [hv]
  exact (load_arrives h _ _ _).bind fun _ _ h₁ => arrives_pure h₁

include hc

theorem literalRule_arrives {lit : Literal} (hx : x ∈ c.tree.preorder c.root)
    (hshape : c.tree.shape x = .literal lit) (span : Span) (h : s.Awaits c n ids) :
    Arrives c n ids (literalRule c x span lit) s := by
  have hvalue := hc.literal_value hx hshape
  cases lit with
  | text contents => exact refused_arrives h _ _
  | number spelling =>
    exact loadValue_arrives (hvalue.resolve_left (by rintro ⟨_, h⟩; cases h)) span h
  | char ch => exact loadValue_arrives (hvalue.resolve_left (by rintro ⟨_, h⟩; cases h)) span h

theorem outerRule_arrives {decl : NodeId} (hdecl : decl ∈ c.tree.preorder c.root)
    (h : s.Awaits c n ids) : Arrives c n ids (outerRule c id decl) s := by
  unfold outerRule
  cases hlit : literalConstant? c.tree decl with
  | none => exact refused_arrives h _ _
  | some p =>
    obtain ⟨hmem, hshape, -⟩ := hc.literalConstant hdecl hlit
    exact literalRule_arrives hc hmem hshape _ h

/-- An identifier has a declaration, which has a register if the current procedure owns it. -/
theorem identRule_arrives {name : String} (hid : id ∈ c.tree.preorder c.root)
    (hshape : c.tree.shape id = .ident name) (h : s.Awaits c n ids) :
    Arrives c n ids (identRule c id) s := by
  obtain ⟨decl, hdecl, hmem, -⟩ := hc.analysis.bound id name hid hshape
  unfold identRule
  simp only [show c.resolution.declaration? id = some decl from hdecl]
  split
  · exact refused_arrives h _ _
  · split
    · exact arrives_pure h
    · refine arrives_get ?_
      cases howner : s.ownerOf[decl]? with
      | none => exact arrives_pure h
      | some owner =>
        dsimp only
        split
        · exact outerRule_arrives hc hmem h
        · next howned =>
          obtain rfl := Classical.not_not.1 howned
          obtain ⟨p, r, hp, hr⟩ := h.owned decl _ howner
          rw [getElem?_current h.frame] at hp
          obtain rfl := Option.some.inj hp
          simp only [hr]
          exact arrives_pure h

include ih

theorem binaryRule_arrives {left op right : NodeId}
    (hshape : c.tree.shape id = .binary left op right)
    (h : s.Awaits c n (id :: ids)) : Arrives c n ids (binaryRule c lower id left op right) s := by
  have hid := h.mem
  have hfits := hc.tree.fits id hid
  simp only [Tree.fits, hshape, Bool.and_eq_true] at hfits
  have hchild : ∀ y ∈ [left, op, right], y < id := fun y hy => c.tree.child_lt (by
    rwa [Tree.children_of_shape hshape])
  obtain ⟨sym, hop⟩ : ∃ sym, c.tree.shape op = .binaryOp sym := by
    cases hop : c.tree.shape op <;> rw [hop] at hfits <;> first | exact ⟨_, rfl⟩ | cases hfits.1.2
  obtain ⟨kind, hkind⟩ := Option.isSome_iff_exists.1 (hc.hasKind_operator hid hshape)
  have h₀ : s.Awaits c n (left :: op :: right :: ids) := h.children hshape rfl
  unfold binaryRule
  simp only [hop, hkind]
  -- The operator comes between the operands and is passed over.
  refine (operand_arrives ih (hchild left (by simp)) h₀ _).bind fun a s₁ h₁ => ?_
  have h₁ := h₁.skip (plain_of_leaf hop ⟨rfl, rfl⟩ rfl)
  refine (operand_arrives ih (hchild right (by simp)) h₁ _).bind fun b s₂ h₂ => ?_
  -- With a register for both, one more instruction is appended.
  cases a with
  | none => exact arrives_pure h₂
  | some a =>
    cases b with
    | none => exact arrives_pure h₂
    | some b =>
      exact computed_arrives h₂ (fun out => ⟨.binary sym kind, out, .register a, .register b⟩)
        _ _ some

theorem signedRule_arrives {op : NodeId} (hshape : c.tree.shape id = .signed op x)
    (h : s.Awaits c n (id :: ids)) : Arrives c n ids (signedRule c lower id op x) s := by
  have hid := h.mem
  have hfits := hc.tree.fits id hid
  simp only [Tree.fits, hshape, Bool.and_eq_true] at hfits
  have hx : x < id := c.tree.child_lt (by simp [Tree.children_of_shape hshape, Shape.children])
  obtain ⟨sign, hop⟩ : ∃ sign, c.tree.shape op = .signOp sign := by
    cases hop : c.tree.shape op <;> rw [hop] at hfits <;> first | exact ⟨_, rfl⟩ | cases hfits.1
  obtain ⟨kind, hkind⟩ := Option.isSome_iff_exists.1 (hc.hasKind_signed hid hshape).2
  have h₀ : s.Awaits c n (op :: x :: ids) := h.children hshape rfl
  have h₀ := h₀.skip (plain_of_leaf hop ⟨rfl, rfl⟩ rfl)
  unfold signedRule
  cases sign with
  | plus =>
    simp only [hop]
    exact operand_arrives ih hx h₀ _
  | minus =>
    simp only [hop]
    cases hword : negatedLiteral? c x (c.typeOf id) with
    | some w =>
      -- The literal under the sign is not lowered.
      obtain ⟨_, _, _, -, hliteral, -⟩ := negatedLiteral_some hword
      exact (load_arrives (h₀.skip (plain_of_ungroup hliteral ⟨rfl, rfl⟩ rfl)) w _ _).bind
        fun _ _ h₁ => arrives_pure h₁
    | none =>
      refine (operand_arrives ih hx h₀ _).bind fun v s₁ h₁ => ?_
      cases v with
      | none => exact arrives_pure h₁
      | some r =>
        simp only [hkind]
        exact computed_arrives h₁ (fun out => ⟨.negate kind, out, .register r, .none⟩) _ _ some

theorem callRule_arrives {callee : NodeId}
    (hexact : Resolution.Exact c.tree c.root [] [] c.resolution)
    (hshape : c.tree.shape id = .call callee) (h : s.Awaits c n (id :: ids)) :
    Arrives c n ids (callRule c lower id callee) s := by
  have hcallee : callee < id :=
    c.tree.child_lt (by simp [Tree.children_of_shape hshape, Shape.children])
  have h₀ : s.Awaits c n (callee :: ids) := h.children hshape rfl
  refine (ih n callee ids s hcallee h₀).bind fun _ s₁ h₁ => ?_
  cases htarget : c.resolution.procedureTarget? c.tree callee with
  | none => exact refused_arrives h₁ _ _
  | some target =>
    obtain ⟨index, hindex⟩ := Option.isSome_iff_exists.1 (h₀.target h₁ hc.tree.nodup hexact htarget)
    refine arrives_get ?_
    simp only [hindex]
    exact computed_arrives h₁ (fun out => ⟨.call, out, .procedure index, .none⟩) _ _ some

/-! ### Native code -/

omit ih in
/-- Nothing is declared below a slot. -/
theorem plain_of_isSlot (hx : x ∈ c.tree.preorder c.root) (hslot : (c.tree.shape x).isSlot = true) :
    ∃ target offset name, c.tree.shape x = .slot target offset
      ∧ c.tree.shape target = .ident name ∧ ∀ y ∈ c.tree.preorder x, c.tree.IsPlain y := by
  cases hshape : c.tree.shape x <;> rw [hshape] at hslot <;> first | (cases hslot; done) | skip
  next target offset =>
  obtain ⟨-, name, htarget⟩ := hc.tree.slot_ident hx hshape
  refine ⟨target, offset, name, rfl, htarget, fun y hy => ?_⟩
  rcases c.tree.mem_preorder.1 hy with rfl | ⟨z, hz, hy⟩
  · exact Tree.isPlain_of_shape hshape ⟨rfl, rfl⟩
  · rw [Tree.children_of_shape hshape] at hz
    obtain rfl := List.mem_singleton.1 hz
    exact plain_of_leaf htarget ⟨rfl, rfl⟩ rfl y hy

/-- The inputs are lowered up to one without a register; there is nothing to lower below the
rest. -/
theorem nativeInputs_arrives {inputs : List NodeId} (hinputs : ∀ x ∈ inputs, x < id
      ∧ x ∈ c.tree.preorder c.root ∧ (c.tree.shape x).isSlot = true)
    (h : s.Awaits c n (inputs ++ ids)) : Arrives c n ids (nativeInputs c lower inputs) s := by
  -- Input by input, each lowered where the one before has led.
  induction inputs generalizing s with
  | nil => exact arrives_pure h
  | cons input rest ihrest =>
    obtain ⟨hlt, hmem, hslot⟩ := hinputs input (.head _)
    obtain ⟨target, offset, name, hshape, -, -⟩ := plain_of_isSlot hc hmem hslot
    have htarget : target < id := Nat.lt_trans (c.tree.child_lt (by
      simp [Tree.children_of_shape hshape, Shape.children])) hlt
    have hrest : ∀ x ∈ rest, ∀ y ∈ c.tree.preorder x, c.tree.IsPlain y := by
      intro x hx
      obtain ⟨-, hmem, hslot⟩ := hinputs x (.tail _ hx)
      obtain ⟨-, -, -, -, -, hplain⟩ := plain_of_isSlot hc hmem hslot
      exact hplain
    unfold nativeInputs slotParts
    simp only [hshape]
    refine meets_bind.2 (meets_pure.2 ?_)
    have h₀ : s.Awaits c n (target :: (rest ++ ids)) := h.children hshape rfl
    refine (ih n target (rest ++ ids) s htarget h₀).bind fun v s₁ h₁ => ?_
    cases v with
    -- Slots have only names below them, so the rest is passed over.
    | none => exact arrives_pure (h₁.skipAll hrest)
    | some r =>
      refine (ihrest (fun x hx => hinputs x (.tail _ hx)) h₁).bind fun slots s₂ h₂ => ?_
      cases slots with
      | none => exact arrives_pure h₂
      | some slots => exact arrives_pure h₂

omit ih in
theorem nativeOutput_arrives {output : Option NodeId} (houtput : ∀ x ∈ output,
      x ∈ c.tree.preorder c.root ∧ (c.tree.shape x).isSlot = true) (h : s.Awaits c n ids) :
    Arrives c n ids (nativeOutput c output) s := by
  cases output with
  | none => exact arrives_pure h
  | some x =>
    obtain ⟨hmem, hslot⟩ := houtput x rfl
    obtain ⟨target, offset, name, hshape, htarget, -⟩ := plain_of_isSlot hc hmem hslot
    have hchild : target ∈ c.tree.children x := by
      simp [Tree.children_of_shape hshape, Shape.children]
    obtain ⟨decl, hdecl, -⟩ := hc.analysis.bound target name (hc.tree.child hmem hchild) htarget
    have hungroup : c.tree.ungroup target = target :=
      Tree.ungroup_of_not_group (by simp [htarget])
    unfold nativeOutput slotParts
    simp only [hshape]
    refine meets_bind.2 (meets_pure.2 ?_)
    refine (place_arrives (hungroup.symm ▸ hdecl) h).bind fun v s₁ h₁ => ?_
    cases v with
    | none => exact arrives_pure h₁
    | some r => exact arrives_pure h₁

theorem nativeRule_arrives {source : String} {inputs : List NodeId} {output : Option NodeId}
    (hshape : c.tree.shape id = .native source inputs output) (h : s.Awaits c n (id :: ids)) :
    Arrives c n ids (nativeRule c lower id source inputs output) s := by
  have hfits := hc.tree.fits id h.mem
  simp only [Tree.fits, hshape, Bool.and_eq_true, List.all_eq_true, Option.all_eq_true] at hfits
  have hchildren : c.tree.children id = inputs ++ output.toList := Tree.children_of_shape hshape
  have hinputs : ∀ x ∈ inputs, x < id ∧ x ∈ c.tree.preorder c.root
      ∧ (c.tree.shape x).isSlot = true := by
    intro x hx
    have hchild : x ∈ c.tree.children id := by simp [hchildren, hx]
    exact ⟨c.tree.child_lt hchild, hc.tree.child h.mem hchild, hfits.1 x hx⟩
  have houtput : ∀ x ∈ output, x ∈ c.tree.preorder c.root ∧ (c.tree.shape x).isSlot = true := by
    intro x hx
    have hchild : x ∈ c.tree.children id := by simp [hchildren, Option.mem_toList.2 hx]
    exact ⟨hc.tree.child h.mem hchild, hfits.2 x hx⟩
  have hplain : ∀ x ∈ output.toList, ∀ y ∈ c.tree.preorder x, c.tree.IsPlain y := by
    intro x hx
    obtain ⟨hmem, hslot⟩ := houtput x (Option.mem_toList.1 hx)
    obtain ⟨-, -, -, -, -, hplain⟩ := plain_of_isSlot hc hmem hslot
    exact hplain
  have h₀ : s.Awaits c n (inputs ++ (output.toList ++ ids)) := by
    rw [← List.append_assoc]
    exact h.children hshape rfl
  unfold nativeRule
  split
  · -- Nothing is lowered if there are too many inputs.
    refine refused_arrives ?_ _ _
    refine (h₀.skipAll fun x hx => ?_).skipAll hplain
    obtain ⟨-, hmem, hslot⟩ := hinputs x hx
    obtain ⟨-, -, -, -, -, hplain⟩ := plain_of_isSlot hc hmem hslot
    exact hplain
  · refine (nativeInputs_arrives hc ih hinputs h₀).bind fun slots s₁ h₁ => ?_
    have h₁ := h₁.skipAll hplain
    cases slots with
    | none => exact arrives_pure h₁
    | some slots =>
      refine (nativeOutput_arrives hc houtput h₁).bind fun slot s₂ h₂ => ?_
      cases slot with
      | none => exact arrives_pure h₂
      | some slot =>
        exact (addNative_arrives h₂ _ _).bind fun _ _ h₃ =>
          (emit_arrives h₃ _ _ _).bind fun _ _ h₄ => arrives_pure h₄

/-! ### Declarations and statements -/

theorem varRule_arrives {name : String} {ty init : Option NodeId}
    (hshape : c.tree.shape id = .var name ty init) (h : s.Awaits c n (id :: ids)) :
    Arrives c n ids (varRule c lower id init) s := by
  have hid := h.mem
  have hfits := hc.tree.fits id hid
  simp only [Tree.fits, hshape, Bool.and_eq_true, Option.all_eq_true] at hfits
  have hchildren : c.tree.children id = ty.toList ++ init.toList := Tree.children_of_shape hshape
  have h₀ : s.Awaits c n (ty.toList ++ (init.toList ++ ids)) := by
    rw [← List.append_assoc]
    exact h.children hshape rfl
  have h₀ := h₀.skipAll fun x hx => by
    have hmem : x ∈ c.tree.children id := by
      rw [hchildren]
      exact List.mem_append_left _ hx
    exact hc.plain_of_isType (hc.tree.child hid hmem) (hfits.1 x (Option.mem_toList.1 hx))
  cases init with
  | some init => exact constantRule_arrives ih (c.tree.child_lt (by simp [hchildren])) h₀
  | none =>
    unfold varRule
    dsimp only
    split
    · exact refused_arrives h₀ _ _
    · exact (fresh_arrives h₀ _).bind fun r _ h₁ =>
        (bind_arrives h₁ id r _).bind fun _ _ h₂ => arrives_pure h₂

theorem assignRule_arrives {target value : NodeId} (hshape : c.tree.shape id = .assign target value)
    (h : s.Awaits c n (id :: ids)) : Arrives c n ids (assignRule c lower id target value) s := by
  obtain ⟨hvariable, -⟩ := hc.hasKind_assign h.mem hshape
  have hvalue : value < id :=
    c.tree.child_lt (by simp [Tree.children_of_shape hshape, Shape.children])
  have h₀ : s.Awaits c n (target :: value :: ids) := h.children hshape rfl
  refine (ih n value ids s hvalue (h₀.skip (plain_of_isVariable hvariable))).bind fun v s₁ h₁ => ?_
  cases v with
  | none => exact arrives_pure h₁
  | some r =>
    exact (convert_arrives h₁ r _ _ _).bind fun converted _ h₂ =>
      store_arrives hvariable h₂ converted _

theorem parallelRule_arrives {targets values : List NodeId}
    (hshape : c.tree.shape id = .parallel targets values) (h : s.Awaits c n (id :: ids)) :
    Arrives c n ids (parallelRule c lower targets values) s := by
  have hvalues : ∀ x ∈ values, x < id := fun x hx =>
    c.tree.child_lt (by simp [Tree.children_of_shape hshape, Shape.children, hx])
  have h₀ : s.Awaits c n (targets ++ (values ++ ids)) := by
    rw [← List.append_assoc]
    exact h.children hshape rfl
  have h₀ := h₀.skipAll fun x hx => plain_of_isVariable (hc.isVariable_parallel h.mem hshape hx)
  refine (stages_arrives ih hvalues h₀).bind fun staged s₁ h₁ => ?_
  refine stores_arrives (fun triple htriple => ?_) h₁
  exact hc.isVariable_parallel h.mem hshape (List.of_mem_zip htriple).1

omit hc in
theorem returnRule_arrives {value : Option NodeId} (hshape : c.tree.shape id = .ret value)
    (h : s.Awaits c n (id :: ids)) : Arrives c n ids (returnRule c lower id value) s := by
  have h₀ : s.Awaits c n (value.toList ++ ids) := h.children hshape rfl
  cases value with
  | none => exact emit_arrives h₀ _ _ _
  | some value =>
    have hvalue : value < id :=
      c.tree.child_lt (by simp [Tree.children_of_shape hshape, Shape.children])
    refine (ih n value ids s hvalue h₀).bind fun v s₁ h₁ => ?_
    cases v with
    | none => exact arrives_pure h₁
    | some r =>
      refine arrives_get ?_
      cases s₁.frame.result with
      | none => exact (arrives_pure h₁).bind fun _ _ h₂ => emit_arrives h₂ _ _ _
      | some result =>
        exact (convert_arrives h₁ r _ _ _).bind fun _ _ h₂ => emit_arrives h₂ _ _ _

/-! ### Procedures -/

omit hc ih in
theorem convertLast_arrives (h : s.Awaits c n ids) (body : NodeId) (result : Ty) :
    Arrives c n ids (convertLast c body result) s := by
  refine arrives_get ?_
  dsimp only
  split
  · exact Meets.discard (convert_arrives h _ _ _ _)
  · exact arrives_pure h

omit hc ih in
theorem openProcedure_meets : Meets Stop.IsLimit (openProcedure c id) s fun index s' =>
    index = s.program.procedures.size
      ∧ s' = s.opened id (procedureName c id).1 (procedureName c id).2 := by
  refine meets_bind.2 (meets_get.2 ?_)
  dsimp only
  split
  · exact meets_bind.2 (meets_throw.2 trivial)
  · refine meets_bind.2 (meets_modify.2 (meets_bind.2 (meets_modify.2 (meets_pure.2 ?_))))
    exact ⟨rfl, rfl⟩

/-- The body of a procedure is lowered in a frame of its own, and the procedure around it goes
on. -/
theorem procedureRule_arrives {result : Option NodeId} {body : NodeId}
    (hshape : c.tree.shape id = .procedure result body) (h : s.Awaits c n (id :: ids)) :
    Arrives c n ids (procedureRule c lower id result body) s := by
  have hid := h.mem
  have hfits := hc.tree.fits id hid
  simp only [Tree.fits, hshape, Bool.and_eq_true, Option.all_eq_true] at hfits
  have hchildren : c.tree.children id = result.toList ++ [body] := Tree.children_of_shape hshape
  have hbody : body < id := c.tree.child_lt (by simp [hchildren])
  have hplain : ∀ x ∈ result.toList, ∀ y ∈ c.tree.preorder x, c.tree.IsPlain y := fun x hx => by
    have hmem : x ∈ c.tree.children id := by simp [hchildren, hx]
    exact hc.plain_of_isType (hc.tree.child hid hmem) (hfits.1 x (Option.mem_toList.1 hx))
  -- The result type declares nothing, so the body comes first.
  have h₀ := h.opened_inFrame hc.tree.nodup hshape rfl (procedureName c id).1 (procedureName c id).2
    (result.map c.typeOf)
  rw [show (Shape.procedure result body).children = result.toList ++ [body] from rfl,
    List.append_assoc] at h₀
  have h₀ := h₀.skipAll hplain
  -- Procedures have only been added, so the frame around is still one of them.
  have leave {s' : Lowering} (h' : s'.Awaits c (s.program.procedures.size + 1) ids) :
      (s'.inFrame s.frame).Awaits c n ids :=
    (h'.leave (Nat.lt_succ_of_lt h.frame)).lower (Nat.le_succ_of_le h.size)
  refine Meets.bind openProcedure_meets ?_
  rintro _ _ ⟨rfl, rfl⟩
  refine arrives_get (meets_bind.2 (meets_modify.2 ?_))
  refine (ih _ body ids _ hbody h₀).bind fun _ s₁ h₁ => ?_
  cases result with
  | none => exact arrives_modify (leave h₁)
  | some result =>
    exact (convertLast_arrives h₁ body (c.typeOf result)).bind fun _ _ h₂ =>
      arrives_modify (leave h₂)

/-! ### All shapes -/

/-- One rule, over the nodes below. -/
theorem rule_arrives (hexact : Resolution.Exact c.tree c.root [] [] c.resolution)
    (h : s.Awaits c n (id :: ids)) : Arrives c n ids (rule c lower id) s := by
  have hid := h.mem
  have hlt : ∀ y ∈ (c.tree.shape id).children, y < id := fun y hy => c.tree.child_lt hy
  have valueless {x : Lower Unit} (hx : Arrives c n ids x s) :
      Arrives c n ids (do x; return none : Lower (Option Register)) s :=
    hx.bind fun _ _ h₁ => arrives_pure h₁
  unfold rule
  cases hshape : c.tree.shape id <;> simp only [hshape, Shape.children] at hlt
  case module items | block items => exact valueless (items_arrives ih hlt (h.children hshape rfl))
  case constant name definition =>
    exact constantRule_arrives ih (hlt definition (.head _)) (h.children hshape rfl)
  case var name ty init => exact varRule_arrives hc ih hshape h
  case procedure result body => exact valueless (procedureRule_arrives hc ih hshape h)
  case exprStmt expr =>
    exact (ih n expr ids s (hlt expr (.head _)) (h.children hshape rfl)).bind fun _ _ h₁ =>
      arrives_pure h₁
  case assign target value => exact valueless (assignRule_arrives hc ih hshape h)
  case parallel targets values => exact valueless (parallelRule_arrives hc ih hshape h)
  case ret value => exact valueless (returnRule_arrives ih hshape h)
  case literal lit => exact literalRule_arrives hc hid hshape _ (h.children hshape rfl)
  case ident name => exact identRule_arrives hc hid hshape (h.children hshape rfl)
  case binary left op right => exact binaryRule_arrives hc ih hshape h
  case signed op operand => exact signedRule_arrives hc ih hshape h
  case group expr => exact ih n expr ids s (hlt expr (.head _)) (h.children hshape rfl)
  case call callee => exact callRule_arrives hc ih hexact hshape h
  case cast expr ty =>
    have hfits := hc.tree.fits id hid
    simp only [Tree.fits, hshape, Bool.and_eq_true] at hfits
    have hty : ty ∈ c.tree.children id := by simp [Tree.children_of_shape hshape, Shape.children]
    have h₀ : s.Awaits c n (expr :: ty :: ids) := h.children hshape rfl
    refine (castRule_arrives ih (hlt expr (.head _)) h₀).mono fun _ s₁ h₁ => ?_
    exact h₁.skip (hc.plain_of_isType (hc.tree.child hid hty) hfits.2)
  case native source inputs output => exact nativeRule_arrives hc ih hshape h
  case slot target offset =>
    exact ih n target ids s (hlt target (.head _)) (h.children hshape rfl)
  -- What is left declares nothing, and nothing below it does.
  all_goals exact arrives_pure (h.skip (hc.plain_of_isInert hid (by rw [hshape]; rfl)))

end Rules

/-- **A node of a sound tree is lowered to its end, unless a limit stops it.** -/
theorem node_arrives (hc : c.Sound) (hexact : Resolution.Exact c.tree c.root [] [] c.resolution)
    {id : NodeId} (h : s.Awaits c n (id :: ids)) : Arrives c n ids (node c id) s := by
  induction id using Nat.strongRecOn generalizing n ids s with
  | ind id ih =>
    rw [node_eq]
    refine rule_arrives hc (fun m x xs s' hx hs' => ?_) hexact h
    rw [if_pos hx]
    exact ih x hx hs'

end Lower

/-- Nothing has been lowered where the root comes next. -/
theorem Lowering.Awaits.start {c : LowerContext} : Lowering.start.Awaits c 1 [c.root] where
  listing := ⟨[], by simp⟩
  frame := Nat.one_pos
  size := Nat.le_refl _
  owned d j hj := by simp [Lowering.start] at hj
  opened q hq _ := by
    have hnone : Lowering.start.procedureOf[q]? = none := by simp [Lowering.start]
    rw [hnone]
    simpa using hq
  indices j hpos hj := absurd hj (Nat.not_lt.2 hpos)

end MiddleEnd
