import MiddleEnd.Proofs.Lowering.Faithful
import MiddleEnd.Proofs.Typing.Callees

/-!
# Procedures are opened before they are called

Lowering follows the listing of the tree and opens every procedure that it meets.  The procedure
that a callee denotes begins before the callee ends, so that it has been opened once the callee has
been lowered.  This needs types that nothing is reported about, but names may be missing: what is
not lowered is then no place where a procedure could be written.

## Main definitions

* `Stop.IsOther` — any reason to stop but a call of a procedure that has not been opened.
* `Lowering.Faces` — what is known where the subtrees of a list of nodes come next.
* `Lower.OpensNone` — a computation that opens no procedure.
* `Lower.Leaves` — a computation that leads to where other subtrees come next.

## Main results

* `Lowering.Faces.target` — **a procedure that is called has been opened.**
* `Lower.rule_leaves` — one rule, over the nodes below.
* `Generated.ofTree_opened` — **no call meets a procedure that has not been opened.**
-/

namespace MiddleEnd

open Runs

/-- Any reason to stop but a call of a procedure that has not been opened. -/
def Stop.IsOther (e : Stop) : Prop := ∀ p, e ≠ .misuse (.notLowered p)

/-! ### What is not lowered -/

section Plain

variable {c : Typing.Context} {root : NodeId} {f : NodeId → Ty}

/-- The target of a store is a name. -/
theorem Typing.Context.plain_of_storeReports {target value : NodeId}
    (h : c.storeReports f target value = []) : ∀ y ∈ c.tree.preorder target, c.tree.IsPlain y := by
  have hquiet := (List.append_eq_nil_iff.1 h).1
  unfold Typing.Context.targetReports at hquiet
  cases hshape : c.tree.shape (c.tree.ungroup target) <;> rw [hshape] at hquiet <;>
    first | exact plain_of_ungroup hshape ⟨rfl, rfl⟩ rfl | cases hquiet

variable (hc : c.Accepts root f)

include hc

/-- Nothing is written below types, operators, structures and enumerations but what is of this
kind. -/
theorem Typing.Context.Accepts.plain_of_isInert {x : NodeId} (hx : x ∈ c.tree.preorder root)
    (h : (c.tree.shape x).isInert = true) : ∀ y ∈ c.tree.preorder x, c.tree.IsPlain y :=
  fun y hy => MiddleEnd.plain_of_isInert
    (hc.tree.isInert_below (fun _ hz _ _ => hc.ne_array hz) hx h y hy)

theorem Typing.Context.Accepts.plain_of_isType {x : NodeId} (hx : x ∈ c.tree.preorder root)
    (h : (c.tree.shape x).isType = true) : ∀ y ∈ c.tree.preorder x, c.tree.IsPlain y := by
  refine hc.plain_of_isInert hx ?_
  cases hshape : c.tree.shape x <;> rw [hshape] at h <;> first | rfl | cases h

theorem Typing.Context.Accepts.plain_of_isSlot {x : NodeId} (hx : x ∈ c.tree.preorder root)
    (hslot : (c.tree.shape x).isSlot = true) :
    ∃ target offset, c.tree.shape x = .slot target offset
      ∧ ∀ y ∈ c.tree.preorder x, c.tree.IsPlain y := by
  cases hshape : c.tree.shape x <;> rw [hshape] at hslot <;> first | (cases hslot; done) | skip
  next target offset =>
  obtain ⟨-, name, htarget⟩ := hc.tree.slot_ident hx hshape
  refine ⟨target, offset, rfl, fun y hy => ?_⟩
  rcases c.tree.mem_preorder.1 hy with rfl | ⟨z, hz, hy⟩
  · exact Tree.isPlain_of_shape hshape ⟨rfl, rfl⟩
  · rw [Tree.children_of_shape hshape] at hz
    obtain rfl := List.mem_singleton.1 hz
    exact Lower.plain_of_leaf htarget ⟨rfl, rfl⟩ rfl y hy

end Plain

namespace Lowering

/-- What is known where the subtrees of `ids` come next in the listing of the tree: the procedures
listed before have been opened. -/
structure Faces (c : LowerContext) (ids : List NodeId) (s : Lowering) : Prop where
  /-- The subtrees follow each other in the listing of the tree, up to its end. -/
  listing : ∃ before, c.tree.preorder c.root = before ++ ids.flatMap c.tree.preorder
  /-- The procedures listed before have been opened. -/
  opened : ∀ q ∈ c.tree.preorder c.root, (c.tree.shape q).isProcedure = true →
    q ∉ ids.flatMap c.tree.preorder → s.procedureOf[q]?.isSome = true

namespace Faces

variable {c : LowerContext} {ids xs : List NodeId} {id x : NodeId} {s s' : Lowering}

theorem mem (h : s.Faces c (x :: ids)) : x ∈ c.tree.preorder c.root := by
  obtain ⟨before, hlisting⟩ := h.listing
  rw [hlisting, List.flatMap_cons, c.tree.preorder_eq]
  simp

/-- What has been opened stays open. -/
theorem mono (h : s.Faces c ids)
    (hopened : ∀ q : NodeId, s.procedureOf[q]?.isSome = true → s'.procedureOf[q]?.isSome = true) :
    s'.Faces c ids :=
  ⟨h.listing, fun q hq hproc hnot => hopened q (h.opened q hq hproc hnot)⟩

/-- Nodes that are no procedures have been passed. -/
theorem pass {between : List NodeId} (h : s.Faces c ids)
    (hids : ids.flatMap c.tree.preorder = between ++ xs.flatMap c.tree.preorder)
    (hopened : ∀ y ∈ between, (c.tree.shape y).isProcedure = true → s.procedureOf[y]?.isSome
      = true) :
    s.Faces c xs := by
  obtain ⟨before, hlisting⟩ := h.listing
  refine ⟨⟨before ++ between, by rw [hlisting, hids, List.append_assoc]⟩, fun q hq hproc hnot => ?_⟩
  by_cases hmem : q ∈ between
  · exact hopened q hmem hproc
  · exact h.opened q hq hproc (by simp [hids, hmem, hnot])

/-- Subtrees without a procedure are not lowered. -/
theorem skip (h : s.Faces c (x :: ids)) (hplain : ∀ y ∈ c.tree.preorder x, c.tree.IsPlain y) :
    s.Faces c ids :=
  h.pass List.flatMap_cons fun y hy hproc => by simp [(hplain y hy).2] at hproc

theorem skipAll {plain : List NodeId} (h : s.Faces c (plain ++ ids))
    (hplain : ∀ x ∈ plain, ∀ y ∈ c.tree.preorder x, c.tree.IsPlain y) : s.Faces c ids := by
  induction plain with
  | nil => exact h
  | cons x plain ih => exact ih (h.skip (hplain x (.head _))) fun y hy => hplain y (.tail _ hy)

/-- From a node to its children, once it has been opened if it is a procedure. -/
theorem children {shape : Shape} (h : s.Faces c (id :: ids)) (hshape : c.tree.shape id = shape)
    (hopened : shape.isProcedure = true → s.procedureOf[id]?.isSome = true) :
    s.Faces c (shape.children ++ ids) := by
  have hids : (id :: ids).flatMap c.tree.preorder
      = [id] ++ (shape.children ++ ids).flatMap c.tree.preorder := by
    rw [List.flatMap_cons, c.tree.preorder_eq, Tree.children_of_shape hshape, List.flatMap_append]
    rfl
  refine h.pass hids fun y hy hproc => ?_
  obtain rfl := List.mem_singleton.1 hy
  exact hopened (hshape ▸ hproc)

theorem below {shape : Shape} (h : s.Faces c (id :: ids)) (hshape : c.tree.shape id = shape)
    (hproc : shape.isProcedure = false) : s.Faces c (shape.children ++ ids) :=
  h.children hshape fun hopened => by simp [hproc] at hopened

/-- Nothing has been lowered where the root comes next. -/
theorem start : Lowering.start.Faces c [c.root] where
  listing := ⟨[], by simp⟩
  opened q hq _ hnot := by simp [hq] at hnot

/-- **A procedure that is called has been opened**, once the callee has been lowered. -/
theorem target {callee p : NodeId} (h : s.Faces c (callee :: ids)) (h' : s'.Faces c ids)
    (hnodup : (c.tree.preorder c.root).Nodup)
    (hexact : Resolution.Exact c.tree c.root [] [] c.resolution)
    (hp : c.resolution.procedureTarget? c.tree callee = some p) :
    s'.procedureOf[p]?.isSome = true := by
  obtain ⟨hmem, hproc, -⟩ := hexact.target_before hnodup h.mem hp
  obtain ⟨before, hlisting⟩ := h.listing
  rw [List.flatMap_cons] at hlisting
  exact h'.opened p hmem hproc (hexact.target_notMem_after hnodup hlisting hp)

end Faces

end Lowering

namespace Lower

variable {α β ι : Type} {x : Lower α}

/-! ### Steps -/

/-- A computation that opens no procedure. -/
def OpensNone (x : Lower α) : Prop :=
  ∀ s, Meets Stop.IsOther x s fun _ s' => s'.procedureOf = s.procedureOf

namespace OpensNone

protected theorem pure (a : α) : OpensNone (pure a) := fun _ => meets_pure.2 rfl

protected theorem bind {k : α → Lower β} (hx : OpensNone x) (hk : ∀ a, OpensNone (k a)) :
    OpensNone (x >>= k) := fun s =>
  (hx s).bind fun a s₁ h₁ => (hk a s₁).mono fun _ _ h₂ => h₂.trans h₁

/-- Steps that read the state may depend on all of it. -/
protected theorem get {k : Lowering → Lower β} (hk : ∀ s, OpensNone (k s)) :
    OpensNone (get >>= k) :=
  fun s => meets_bind.2 (meets_get.2 (hk s s))

protected theorem modify {g : Lowering → Lowering} (hg : ∀ s, (g s).procedureOf = s.procedureOf) :
    OpensNone (modify g) := fun s => meets_modify.2 (hg s)

protected theorem throw {e : Stop} (he : e.IsOther) : OpensNone (throw e : Lower α) :=
  fun _ => meets_throw.2 he

protected theorem ite {p : Prop} [Decidable p] {y : Lower α} (hx : OpensNone x) (hy : OpensNone y) :
    OpensNone (if p then x else y) := by
  split
  · exact hx
  · exact hy

protected theorem discard (hx : OpensNone x) : OpensNone (discard x) := fun s => (hx s).discard

protected theorem forM {g : ι → Lower PUnit} {l : List ι} (hg : ∀ i, OpensNone (g i)) :
    OpensNone (l.forM g) := by
  induction l with
  | nil => exact .pure _
  | cons i l ih => exact .bind (hg i) fun _ => ih

theorem exhausted (l : Limit) : OpensNone (exhausted l : Lower α) := .throw fun _ h => by cases h

end OpensNone

section Steps

variable (c : LowerContext)

theorem modifyCurrent_opensNone (g : Procedure → Procedure) : OpensNone (modifyCurrent g) :=
  .get fun _ => .modify fun _ => rfl

theorem report_opensNone (p : LoweringProblem) : OpensNone (report p) := .modify fun _ => rfl

theorem refused_opensNone (p : LoweringProblem) (a : α) :
    OpensNone (do report p; return a : Lower α) :=
  (report_opensNone p).bind fun _ => .pure a

theorem emit_opensNone (i : Instruction) (ty : Ty) (span : Span) : OpensNone (emit i ty span) :=
  modifyCurrent_opensNone _

theorem fresh_opensNone (span : Span) : OpensNone (fresh c span) := by
  refine .get fun s => ?_
  dsimp only
  split
  · exact .bind (.exhausted _) fun _ => (modifyCurrent_opensNone _).bind fun _ => .pure _
  · exact (modifyCurrent_opensNone _).bind fun _ => .pure _

theorem constant_opensNone (w : Word) (span : Span) : OpensNone (constant w span) := by
  refine .get fun s => ?_
  dsimp only
  split
  · exact .bind (.exhausted _) fun _ => .bind (.modify fun _ => rfl) fun _ => .pure _
  · exact .bind (.modify fun _ => rfl) fun _ => .pure _

theorem addNative_opensNone (call : NativeCall) (span : Span) :
    OpensNone (addNative call span) := by
  refine .get fun s => ?_
  dsimp only
  split
  · exact .bind (.exhausted _) fun _ => .bind (.modify fun _ => rfl) fun _ => .pure _
  · exact .bind (.modify fun _ => rfl) fun _ => .pure _

/-- A register is given out and written. -/
theorem computed_opensNone (i : Register → Instruction) (ty : Ty) (span : Span) (g : Register → α) :
    OpensNone (do let out ← fresh c span; emit (i out) ty span; return g out : Lower α) :=
  (fresh_opensNone c span).bind fun _ => (emit_opensNone _ ty span).bind fun _ => .pure _

theorem load_opensNone (w : Word) (ty : Ty) (span : Span) : OpensNone (load c w ty span) :=
  (constant_opensNone w span).bind fun index =>
    computed_opensNone c (fun out => ⟨.loadConstant, out, .constant index, .none⟩) ty span id

theorem convert_opensNone (value : Register) (source dest : Ty) (span : Span) :
    OpensNone (convert c value source dest span) := by
  unfold convert
  split
  · next a b _ _ =>
    exact .ite (.pure _)
      (computed_opensNone c (fun out => ⟨.convert a b, out, .register value, .none⟩) dest span id)
  · exact .pure _

theorem isBound_opensNone (r : Register) : OpensNone (isBound r) := .get fun _ => .pure _

theorem bind_opensNone (decl : NodeId) (value : Register) (span : Span) :
    OpensNone (Lower.bind c decl value span) := by
  unfold Lower.bind
  refine (isBound_opensNone value).bind fun bound => .ite
    ((fresh_opensNone c span).bind fun out => (emit_opensNone _ _ span).bind fun _ =>
      (OpensNone.pure _).bind fun register => ?_)
    ((OpensNone.pure _).bind fun register => ?_)
  -- With or without a copy, the rest ties the register that has been chosen.
  all_goals
    refine .bind (.modify fun _ => rfl) fun _ => (modifyCurrent_opensNone _).bind fun _ =>
      .get fun s => .ite ?_ (.pure _)
    dsimp only
    split
    · exact .bind (.modify fun _ => rfl) fun _ => .pure _
    · exact .pure _

theorem place_opensNone (target : NodeId) : OpensNone (place c target) := by
  unfold place
  dsimp only
  split
  · exact .throw fun _ h => by cases h
  · refine .get fun s => ?_
    split
    · exact .pure _
    · split
      · exact refused_opensNone _ _
      · exact .pure _

theorem store_opensNone (target : NodeId) (value : Register) (span : Span) :
    OpensNone (store c target value span) := by
  refine (place_opensNone c target).bind fun v => ?_
  cases v with
  | none => exact .pure _
  | some r => exact emit_opensNone _ _ _

theorem literalRule_opensNone (id : NodeId) (span : Span) (lit : Literal) :
    OpensNone (literalRule c id span lit) := by
  unfold literalRule
  cases lit with
  | text _ => exact refused_opensNone _ _
  | number _ | char _ =>
    dsimp only
    split
    · exact .throw fun _ h => by cases h
    · exact (load_opensNone c _ _ _).bind fun _ => .pure _

theorem identRule_opensNone (id : NodeId) : OpensNone (identRule c id) := by
  have houter (decl : NodeId) : OpensNone (outerRule c id decl) := by
    unfold outerRule
    split
    · exact literalRule_opensNone c _ _ _
    · exact refused_opensNone _ _
  unfold identRule
  split
  · exact .throw fun _ h => by cases h
  · split
    · exact refused_opensNone _ _
    · split
      · exact .pure _
      · refine .get fun s => ?_
        split
        · exact .pure _
        · split
          · exact houter _
          · split
            · exact .pure _
            · exact .throw fun _ h => by cases h

theorem convertLast_opensNone (body : NodeId) (result : Ty) :
    OpensNone (convertLast c body result) :=
  .get fun _ => .ite (.discard (convert_opensNone c _ _ _ _)) (.pure _)

theorem slotParts_opensNone (x : NodeId) : OpensNone (slotParts c x) := by
  unfold slotParts
  split
  · exact .pure _
  · exact .throw fun _ h => by cases h

theorem nativeOutput_opensNone (output : Option NodeId) : OpensNone (nativeOutput c output) := by
  cases output with
  | none => exact .pure _
  | some x =>
    refine (slotParts_opensNone c x).bind fun parts => (place_opensNone c parts.1).bind fun v => ?_
    cases v <;> exact .pure _

end Steps

/-! ### Rules -/

/-- A computation after which the subtrees of `ids` come next. -/
def Leaves (c : LowerContext) (ids : List NodeId) (x : Lower α) (s : Lowering) : Prop :=
  Meets Stop.IsOther x s fun _ s' => s'.Faces c ids

section Leaves

variable {c : LowerContext} {ids ids' : List NodeId} {s : Lowering}

theorem OpensNone.leaves (hx : OpensNone x) (h : s.Faces c ids) : Leaves c ids x s :=
  (hx s).mono fun _ _ heq => h.mono fun _ => by rw [heq]; exact id

theorem Leaves.bind {k : α → Lower β} (hx : Leaves c ids x s)
    (hk : ∀ a s', s'.Faces c ids → Leaves c ids' (k a) s') : Leaves c ids' (x >>= k) s :=
  Meets.bind hx hk

/-- What comes after the nodes below opens no procedure. -/
theorem Leaves.then {k : α → Lower β} (hx : Leaves c ids x s) (hk : ∀ a, OpensNone (k a)) :
    Leaves c ids (x >>= k) s :=
  hx.bind fun a _ h => (hk a).leaves h

end Leaves

/-- The nodes before `id` are lowered as they come. -/
def LeavesBelow (c : LowerContext) (lower : NodeId → Lower (Option Register)) (id : NodeId) :
    Prop :=
  ∀ (x : NodeId) (ids : List NodeId) (s : Lowering), x < id → s.Faces c (x :: ids) →
    Leaves c ids (lower x) s

section Rules

variable {c : LowerContext} {lower : NodeId → Lower (Option Register)} {id : NodeId}
  {ids : List NodeId} {s : Lowering} (ih : LeavesBelow c lower id)

include ih

/-- A value that is lowered and used. -/
theorem value_leaves {y : NodeId} (hy : y < id) (h : s.Faces c (y :: ids))
    {k : Option Register → Lower β} (hk : ∀ v, OpensNone (k v)) : Leaves c ids (lower y >>= k) s :=
  (ih y ids s hy h).then hk

theorem operand_leaves {y : NodeId} (hy : y < id) (h : s.Faces c (y :: ids)) (ty : Ty) :
    Leaves c ids (operand c lower y ty) s := by
  refine value_leaves ih hy h fun v => ?_
  cases v with
  | none => exact .pure _
  | some r => exact (convert_opensNone c r _ _ _).bind fun _ => .pure _

theorem constantRule_leaves {y : NodeId} (hy : y < id) (h : s.Faces c (y :: ids)) :
    Leaves c ids (constantRule c lower id y) s := by
  refine value_leaves ih hy h fun v => ?_
  cases v with
  | none => exact .pure _
  | some r =>
    exact (convert_opensNone c r _ _ _).bind fun value =>
      (bind_opensNone c id value _).bind fun _ => .pure _

theorem items_leaves {items : List NodeId} (hitems : ∀ y ∈ items, y < id)
    (h : s.Faces c (items ++ ids)) :
    Leaves c ids (items.forM fun item => discard (lower item)) s := by
  induction items generalizing s with
  | nil => exact meets_forM_nil.2 h
  | cons item items ihrest =>
    refine meets_forM_cons.2 (Meets.discard ?_)
    exact (ih item _ s (hitems item (.head _)) h).mono fun _ s₁ h₁ =>
      ihrest (fun y hy => hitems y (.tail _ hy)) h₁

theorem stages_leaves {values : List NodeId} (hvalues : ∀ y ∈ values, y < id)
    (h : s.Faces c (values ++ ids)) : Leaves c ids (values.mapM (stage c lower)) s := by
  induction values generalizing s with
  | nil => exact meets_mapM_nil.2 h
  | cons value values ihrest =>
    have hstage : Leaves c (values ++ ids) (stage c lower value) s := by
      refine value_leaves ih (hvalues value (.head _)) h fun v => ?_
      cases v with
      | none => exact .pure _
      | some r =>
        exact (isBound_opensNone r).bind fun bound => .ite
          (computed_opensNone c (fun out => ⟨.copy, out, .register r, .none⟩) _ _ some) (.pure _)
    exact meets_mapM_cons.2 (hstage.mono fun _ s₁ h₁ =>
      ihrest (fun y hy => hvalues y (.tail _ hy)) h₁)

theorem nativeInputs_leaves {inputs : List NodeId} (hinputs : ∀ y ∈ inputs, y < id)
    (hslots : ∀ y ∈ inputs, ∃ target offset, c.tree.shape y = .slot target offset
      ∧ ∀ z ∈ c.tree.preorder y, c.tree.IsPlain z) (h : s.Faces c (inputs ++ ids)) :
    Leaves c ids (nativeInputs c lower inputs) s := by
  induction inputs generalizing s with
  | nil => exact meets_pure.2 h
  | cons input rest ihrest =>
    obtain ⟨target, offset, hshape, -⟩ := hslots input (.head _)
    have hchild : target ∈ c.tree.children input := by
      simp [Tree.children_of_shape hshape, Shape.children]
    have htarget : target < id := Nat.lt_trans (c.tree.child_lt hchild) (hinputs input (.head _))
    unfold nativeInputs slotParts
    simp only [hshape]
    refine meets_bind.2 (meets_pure.2 ?_)
    have h₀ : s.Faces c (target :: (rest ++ ids)) := h.below hshape rfl
    refine (ih target (rest ++ ids) s htarget h₀).bind fun v s₁ h₁ => ?_
    cases v with
    | none =>
      -- The rest is not looked at; there is nothing to lower below it.
      refine meets_pure.2 (h₁.skipAll fun y hy => ?_)
      obtain ⟨-, -, -, hplain⟩ := hslots y (.tail _ hy)
      exact hplain
    | some r =>
      refine Leaves.then (ihrest (fun y hy => hinputs y (.tail _ hy))
        (fun y hy => hslots y (.tail _ hy)) h₁) fun slots => ?_
      cases slots <;> exact .pure _

theorem callRule_leaves {callee : NodeId} (hnodup : (c.tree.preorder c.root).Nodup)
    (hexact : Resolution.Exact c.tree c.root [] [] c.resolution) (hcallee : callee < id)
    (h : s.Faces c (callee :: ids)) : Leaves c ids (callRule c lower id callee) s := by
  refine (ih callee ids s hcallee h).bind fun _ s₁ h₁ => ?_
  cases htarget : c.resolution.procedureTarget? c.tree callee with
  | none => exact (refused_opensNone _ _).leaves h₁
  | some target =>
    obtain ⟨index, hindex⟩ := Option.isSome_iff_exists.1 (h.target h₁ hnodup hexact htarget)
    refine meets_bind.2 (meets_get.2 ?_)
    simp only [hindex]
    exact (computed_opensNone c (fun out => ⟨.call, out, .procedure index, .none⟩) _ _ some).leaves
      h₁

omit ih in
/-- A procedure is opened before its parts are lowered. -/
theorem openProcedure_leaves {shape : Shape} (hshape : c.tree.shape id = shape)
    (h : s.Faces c (id :: ids)) : Leaves c (shape.children ++ ids) (openProcedure c id) s := by
  refine meets_bind.2 (meets_get.2 ?_)
  dsimp only
  split
  · exact meets_bind.2 (meets_throw.2 fun _ h => by cases h)
  · refine meets_bind.2 (meets_modify.2 (meets_bind.2 (meets_modify.2 (meets_pure.2 ?_))))
    have hopened (q : NodeId) : (s.procedureOf.insert id s.program.procedures.size)[q]?
        = if id = q then some s.program.procedures.size else s.procedureOf[q]? := by
      simp [Std.TreeMap.getElem?_insert]
    refine Lowering.Faces.children (h.mono fun q hq => ?_) hshape fun _ => ?_
    · simp only [hopened]
      split
      · rfl
      · exact hq
    · simp

/-- The body of a procedure is lowered in a frame of its own, and the procedure around it goes
on. -/
theorem procedureRule_leaves {result : Option NodeId} {body : NodeId}
    (hshape : c.tree.shape id = .procedure result body) (hbody : body < id)
    (hplain : ∀ y ∈ result.toList, ∀ z ∈ c.tree.preorder y, c.tree.IsPlain z)
    (h : s.Faces c (id :: ids)) : Leaves c ids (procedureRule c lower id result body) s := by
  refine (openProcedure_leaves hshape h).bind fun index s₁ h₁ => ?_
  rw [show (Shape.procedure result body).children = result.toList ++ [body] from rfl,
    List.append_assoc] at h₁
  refine meets_bind.2 (meets_get.2 (meets_bind.2 (meets_modify.2 ?_)))
  have h₂ : ({ s₁ with frame := ⟨index, result.map c.typeOf, ∅⟩ } : Lowering).Faces c
    (body :: ids) :=
    (h₁.skipAll hplain).mono fun _ hq => hq
  refine value_leaves ih hbody h₂ fun _ => ?_
  cases result with
  | none => exact .modify fun _ => rfl
  | some result => exact (convertLast_opensNone c _ _).bind fun _ => .modify fun _ => rfl

section

variable (hc : c.typingContext.Accepts c.root c.typeOf)

include hc

theorem binaryRule_leaves {left op right : NodeId}
    (hshape : c.tree.shape id = .binary left op right)
    (h : s.Faces c (id :: ids)) : Leaves c ids (binaryRule c lower id left op right) s := by
  have hfits := hc.tree.fits id h.mem
  simp only [Tree.fits, LowerContext.typingContext, hshape, Bool.and_eq_true] at hfits
  have hlt : ∀ y ∈ [left, op, right], y < id := fun y hy => c.tree.child_lt (by
    rwa [Tree.children_of_shape hshape])
  obtain ⟨sym, hop⟩ : ∃ sym, c.tree.shape op = .binaryOp sym := by
    cases hop : c.tree.shape op <;> rw [hop] at hfits <;> first | exact ⟨_, rfl⟩ | cases hfits.1.2
  have h₀ : s.Faces c (left :: op :: right :: ids) := h.below hshape rfl
  unfold binaryRule
  simp only [hop]
  -- Without a kind there is a misuse, but none about a procedure.
  split
  · exact meets_throw.2 fun _ h => by cases h
  · next kind _ =>
    refine (operand_leaves ih (hlt left (by simp)) h₀ _).bind fun a s₁ h₁ => ?_
    -- The operator comes between the operands and is passed over.
    have h₁ := h₁.skip (plain_of_leaf hop ⟨rfl, rfl⟩ rfl)
    refine (operand_leaves ih (hlt right (by simp)) h₁ _).then fun b => ?_
    cases a with
    | none => exact .pure _
    | some a =>
      cases b with
      | none => exact .pure _
      | some b =>
        exact computed_opensNone c (fun out => ⟨.binary sym kind, out, .register a, .register b⟩)
          _ _ some

theorem signedRule_leaves {op operand : NodeId} (hshape : c.tree.shape id = .signed op operand)
    (h : s.Faces c (id :: ids)) : Leaves c ids (signedRule c lower id op operand) s := by
  have hfits := hc.tree.fits id h.mem
  simp only [Tree.fits, LowerContext.typingContext, hshape, Bool.and_eq_true] at hfits
  have hoperand : operand < id :=
    c.tree.child_lt (by simp [Tree.children_of_shape hshape, Shape.children])
  obtain ⟨sign, hop⟩ : ∃ sign, c.tree.shape op = .signOp sign := by
    cases hop : c.tree.shape op <;> rw [hop] at hfits <;> first | exact ⟨_, rfl⟩ | cases hfits.1
  have h₀ : s.Faces c (op :: operand :: ids) := h.below hshape rfl
  have h₀ := h₀.skip (plain_of_leaf hop ⟨rfl, rfl⟩ rfl)
  unfold signedRule
  cases sign with
  | plus =>
    simp only [hop]
    exact operand_leaves ih hoperand h₀ _
  | minus =>
    simp only [hop]
    cases hword : negatedLiteral? c operand (c.typeOf id) with
    | some w =>
      -- The literal under the sign is not lowered.
      obtain ⟨_, _, _, -, hliteral, -⟩ := negatedLiteral_some hword
      exact OpensNone.leaves ((load_opensNone c w _ _).bind fun _ => .pure _)
        (h₀.skip (plain_of_ungroup hliteral ⟨rfl, rfl⟩ rfl))
    | none =>
      refine (operand_leaves ih hoperand h₀ _).then fun v => ?_
      cases v with
      | none => exact .pure _
      | some r =>
        dsimp only
        split
        · exact .throw fun _ h => by cases h
        · next kind _ =>
          exact computed_opensNone c (fun out => ⟨.negate kind, out, .register r, .none⟩) _ _ some

theorem nativeRule_leaves {source : String} {inputs : List NodeId} {output : Option NodeId}
    (hshape : c.tree.shape id = .native source inputs output) (h : s.Faces c (id :: ids)) :
    Leaves c ids (nativeRule c lower id source inputs output) s := by
  have hfits := hc.tree.fits id h.mem
  simp only [Tree.fits, LowerContext.typingContext, hshape, Bool.and_eq_true, List.all_eq_true,
    Option.all_eq_true] at hfits
  have hchildren : c.tree.children id = inputs ++ output.toList := Tree.children_of_shape hshape
  have hslots : ∀ y ∈ inputs ++ output.toList, ∃ target offset, c.tree.shape y = .slot target offset
      ∧ ∀ z ∈ c.tree.preorder y, c.tree.IsPlain z := fun y hy => by
    refine hc.plain_of_isSlot (hc.tree.child h.mem (hchildren ▸ hy)) ?_
    rcases List.mem_append.1 hy with hy | hy
    · exact hfits.1 y hy
    · exact hfits.2 y (Option.mem_toList.1 hy)
  have hplain : ∀ y ∈ inputs ++ output.toList, ∀ z ∈ c.tree.preorder y, c.tree.IsPlain z :=
    fun y hy => by
      obtain ⟨-, -, -, hplain⟩ := hslots y hy
      exact hplain
  have h₀ : s.Faces c (inputs ++ (output.toList ++ ids)) := by
    rw [← List.append_assoc]
    exact h.below hshape rfl
  unfold nativeRule
  split
  · -- Nothing is lowered if there are too many inputs.
    exact (refused_opensNone _ _).leaves ((List.append_assoc _ _ ids ▸ h₀).skipAll hplain)
  · refine (nativeInputs_leaves ih (fun y hy => c.tree.child_lt (by simp [hchildren, hy]))
      (fun y hy => hslots y (List.mem_append_left _ hy)) h₀).bind fun slots s₁ h₁ =>
        OpensNone.leaves ?_ (h₁.skipAll fun y hy => hplain y (List.mem_append_right _ hy))
    cases slots with
    | none => exact .pure _
    | some slots =>
      refine (nativeOutput_opensNone c output).bind fun slot => ?_
      cases slot with
      | none => exact .pure _
      | some slot =>
        exact (addNative_opensNone _ _).bind fun _ => (emit_opensNone _ _ _).bind fun _ => .pure _

theorem varRule_leaves {name : String} {ty init : Option NodeId}
    (hshape : c.tree.shape id = .var name ty init) (h : s.Faces c (id :: ids)) :
    Leaves c ids (varRule c lower id init) s := by
  have hfits := hc.tree.fits id h.mem
  simp only [Tree.fits, LowerContext.typingContext, hshape, Bool.and_eq_true,
    Option.all_eq_true] at hfits
  have hchildren : c.tree.children id = ty.toList ++ init.toList := Tree.children_of_shape hshape
  have h₀ : s.Faces c (ty.toList ++ (init.toList ++ ids)) := by
    rw [← List.append_assoc]
    exact h.below hshape rfl
  have h₀ := h₀.skipAll fun y hy => hc.plain_of_isType (hc.tree.child h.mem
    (by rw [show c.typingContext.tree = c.tree from rfl, hchildren]; simp [hy]))
    (hfits.1 y (Option.mem_toList.1 hy))
  cases init with
  | some init => exact constantRule_leaves ih (c.tree.child_lt (by simp [hchildren])) h₀
  | none =>
    refine OpensNone.leaves ?_ h₀
    exact .ite (refused_opensNone _ _) ((fresh_opensNone c _).bind fun r =>
      (bind_opensNone c id r _).bind fun _ => .pure _)

theorem assignRule_leaves {target value : NodeId} (hshape : c.tree.shape id = .assign target value)
    (h : s.Faces c (id :: ids)) : Leaves c ids (assignRule c lower id target value) s := by
  have hquiet := hc.quiet id h.mem
  simp only [Typing.Context.reports, LowerContext.typingContext, hshape] at hquiet
  have h₀ : s.Faces c (target :: value :: ids) := h.below hshape rfl
  refine value_leaves ih (c.tree.child_lt (by simp [Tree.children_of_shape hshape, Shape.children]))
    (h₀.skip (Typing.Context.plain_of_storeReports hquiet)) fun v => ?_
  cases v with
  | none => exact .pure _
  | some r => exact (convert_opensNone c _ _ _ _).bind fun _ => store_opensNone c _ _ _

theorem parallelRule_leaves {targets values : List NodeId}
    (hshape : c.tree.shape id = .parallel targets values) (h : s.Faces c (id :: ids)) :
    Leaves c ids (parallelRule c lower targets values) s := by
  have hplain : ∀ y ∈ targets, ∀ z ∈ c.tree.preorder y, c.tree.IsPlain z := fun y hy => by
    obtain ⟨value, -, hquiet⟩ := hc.storeReports_of_parallel h.mem hshape hy
    exact Typing.Context.plain_of_storeReports hquiet
  have h₀ : s.Faces c (targets ++ (values ++ ids)) := by
    rw [← List.append_assoc]
    exact h.below hshape rfl
  refine (stages_leaves ih (fun y hy => c.tree.child_lt (by
    simp [Tree.children_of_shape hshape, Shape.children, hy])) (h₀.skipAll hplain)).then
      fun staged =>
      .forM fun triple => ?_
  obtain ⟨target, value, register⟩ := triple
  cases register with
  | none => exact .pure _
  | some r => exact (convert_opensNone c _ _ _ _).bind fun _ => store_opensNone c _ _ _

omit hc

theorem returnRule_leaves {value : Option NodeId} (hshape : c.tree.shape id = .ret value)
    (h : s.Faces c (id :: ids)) : Leaves c ids (returnRule c lower id value) s := by
  have h₀ : s.Faces c (value.toList ++ ids) := h.below hshape rfl
  cases value with
  | none => exact (emit_opensNone _ _ _).leaves h₀
  | some value =>
    refine value_leaves ih (c.tree.child_lt (by
      simp [Tree.children_of_shape hshape, Shape.children])) h₀ fun v => ?_
    cases v with
    | none => exact .pure _
    | some r =>
      refine .get fun s₁ => ?_
      cases s₁.frame.result with
      | none => exact .bind (.pure _) fun _ => emit_opensNone _ _ _
      | some result => exact (convert_opensNone c _ _ _ _).bind fun _ => emit_opensNone _ _ _

end

/-! ### All shapes -/

/-- One rule, over the nodes below. -/
theorem rule_leaves (hc : c.typingContext.Accepts c.root c.typeOf) (h : s.Faces c (id :: ids)) :
    Leaves c ids (rule c lower id) s := by
  have hid := h.mem
  have hfits := hc.tree.fits id hid
  have hlt : ∀ y ∈ (c.tree.shape id).children, y < id := fun y hy => c.tree.child_lt hy
  have htype {y : NodeId} (hy : y ∈ (c.tree.shape id).children)
    (htype : (c.tree.shape y).isType = true) :
      ∀ z ∈ c.tree.preorder y, c.tree.IsPlain z := hc.plain_of_isType (hc.tree.child hid hy) htype
  -- Rules that return no value are their statements.
  have valueless {x : Lower Unit} (hx : Leaves c ids x s) :
      Leaves c ids (do x; return none : Lower (Option Register)) s :=
    hx.then fun _ => .pure _
  unfold Tree.fits at hfits
  unfold rule
  -- Each rule lowers the children in the order of the listing.
  cases hshape : c.tree.shape id <;>
    simp only [LowerContext.typingContext, hshape, Shape.children] at hlt hfits htype
  case module items | block items => exact valueless (items_leaves ih hlt (h.below hshape rfl))
  case constant name definition =>
    exact constantRule_leaves ih (hlt definition (.head _)) (h.below hshape rfl)
  case var name ty init => exact varRule_leaves ih hc hshape h
  case procedure result body =>
    simp only [Bool.and_eq_true, Option.all_eq_true] at hfits
    exact valueless (procedureRule_leaves ih hshape (hlt body (by simp))
      (fun y hy => htype (List.mem_append_left _ hy) (hfits.1 y (Option.mem_toList.1 hy))) h)
  case exprStmt expr =>
    exact value_leaves ih (hlt expr (.head _)) (h.below hshape rfl) fun _ => .pure _
  case assign target value => exact valueless (assignRule_leaves ih hc hshape h)
  case parallel targets values => exact valueless (parallelRule_leaves ih hc hshape h)
  case ret value => exact valueless (returnRule_leaves ih hshape h)
  case literal lit => exact (literalRule_opensNone c _ _ _).leaves (h.below hshape rfl)
  case ident name => exact (identRule_opensNone c _).leaves (h.below hshape rfl)
  case binary left op right => exact binaryRule_leaves ih hc hshape h
  case signed op operand => exact signedRule_leaves ih hc hshape h
  case group expr => exact ih expr ids s (hlt expr (.head _)) (h.below hshape rfl)
  case call callee =>
    exact callRule_leaves ih hc.tree.nodup hc.exact (hlt callee (.head _)) (h.below hshape rfl)
  case cast expr ty =>
    simp only [Bool.and_eq_true] at hfits
    have h₀ : s.Faces c (expr :: ty :: ids) := h.below hshape rfl
    have hcast : Leaves c (ty :: ids) (castRule c lower id expr) s := by
      refine value_leaves ih (hlt expr (.head _)) h₀ fun v => ?_
      cases v with
      | none => exact .pure _
      | some r => exact (convert_opensNone c _ _ _ _).bind fun _ => .pure _
    exact hcast.mono fun _ s₁ h₁ => h₁.skip (htype (by simp) hfits.2)
  case native source inputs output => exact nativeRule_leaves ih hc hshape h
  case slot target offset => exact ih target ids s (hlt target (.head _)) (h.below hshape rfl)
  -- What is left is not looked into.
  all_goals
    exact meets_pure.2 (h.skip (hc.plain_of_isInert hid (by
      simp [LowerContext.typingContext, hshape, Shape.isInert])))

end Rules

/-- **Nodes are lowered as they come**, and no call meets a procedure that has not been opened. -/
theorem node_leaves {c : LowerContext} {id : NodeId} {ids : List NodeId} {s : Lowering}
    (hc : c.typingContext.Accepts c.root c.typeOf) (h : s.Faces c (id :: ids)) :
    Leaves c ids (node c id) s := by
  induction id using Nat.strongRecOn generalizing ids s with
  | ind id ih =>
    rw [node_eq]
    refine rule_leaves (fun y ys s' hy hs' => ?_) hc h
    rw [if_pos hy]
    exact ih y hy hs'

end Lower

/-- **No call meets a procedure that has not been opened**, whatever else stops lowering. -/
theorem Generated.ofTree_opened {t : Tree} {links : Links} {root : NodeId} {r : Resolution}
    {ty : Typing} (hc : Typing.Context.Accepts ⟨t, links, r⟩ root ty.typeOf) (limit : Nat)
    (p : NodeId) :
    Generated.ofTree t links root r ty limit ≠ .error (.misuse (.notLowered p)) := by
  intro hstop
  have h := Lower.node_leaves (c := ⟨t, links, root, r, ty, min limit Register.maximum⟩) hc
    Lowering.Faces.start
  unfold Lower.Leaves Runs.Meets at h
  unfold Generated.ofTree at hstop
  simp only [StateT.run, bind, Except.bind] at hstop
  split at h
  · next v s hnode =>
    rw [hnode] at hstop
    cases hstop
  · next e hnode =>
    rw [hnode] at hstop
    exact h p (Except.error.inj hstop)

end MiddleEnd
