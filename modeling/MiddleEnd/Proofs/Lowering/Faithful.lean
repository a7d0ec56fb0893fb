import MiddleEnd.Proofs.Lowering.Faithful.Natives
import MiddleEnd.Proofs.Lowering.Faithful.Statements

/-!
# Faithful lowering

A node that is lowered without a problem has the code that its rule says, and every procedure below
it has the code of its body.

## Main results

* `Lower.procedure_lowered` — a procedure is lowered in a frame of its own, which is left
  afterwards.
* `Lower.rule_lowered` — one rule, over the nodes below.
* `Lower.node_lowered` — **a node that is lowered without a problem has the code of its rule**.
-/

namespace MiddleEnd.Lower

open Lowering

section Rules

variable {c : LowerContext} {ℓ : Linkage} {lower : NodeId → Lower (Option Register)} {id : NodeId}
  {s s' : Lowering} {v : Option Register} {done : NodeId → Prop}

variable (hc : c.Sound) (ih : LowersBelow c ℓ lower id)

include hc ih

/-! ### Procedures -/

omit ih in
/-- The body of a procedure begins in a frame of its own. -/
theorem body_before {result : Option NodeId} {body : NodeId}
    (hshape : c.tree.shape id = .procedure result body) (h : Before c done [id] s)
    (name : String) (isConstant : Bool) :
    ∃ done', Before c done' [body] ((s.opened id name isConstant).inFrame
      ⟨s.program.procedures.size, result.map c.typeOf, ∅⟩) := by
  have hid := h.inTree id (.head _)
  have hfits := hc.tree.fits id hid
  simp only [Tree.fits, hshape, Bool.and_eq_true] at hfits
  let s₀ := (s.opened id name isConstant).inFrame
    ⟨s.program.procedures.size, result.map c.typeOf, ∅⟩
  -- The new procedure has no registers yet, and nothing that is remembered belongs to it.
  have htracked : s₀.Tracked := by
    refine ⟨entered_sound h.tracked.toSound, fun d => ?_, fun d j hj => ?_⟩
    · have hregisters : s₀.current.registers = ∅ := by
        simp [s₀, current, opened, inFrame, Procedure.empty]
      have howner : s₀.ownerOf[d]? ≠ some s₀.frame.index := fun hj =>
        Nat.lt_irrefl _ (h.tracked.owners_lt d _ hj)
      simp [hregisters, howner]
    · have hsize : s₀.program.procedures.size = s.program.procedures.size + 1 := by
        simp [s₀, opened, inFrame]
      rw [hsize]
      exact Nat.lt_succ_of_lt (h.tracked.owners_lt d j hj)
  have hresult : ∀ x ∈ (Shape.procedure result body).children,
      s₀.frame.result = c.resultTy? x := by
    intro x hx
    rw [← Tree.children_of_shape hshape] at hx
    exact (Before.resultTy?_of_procedure hc hid hshape hx).symm
  -- The result type has no code, so the body is all that is left to be lowered.
  have hchildren := h.descend hc hshape htracked (fun x hx => ⟨rfl, ?_⟩) hresult
  · refine hchildren.skipAll fun x hx => ?_
    obtain rfl := Option.mem_toList.1 hx
    exact hc.plain_of_isType (hchildren.inTree x (by simp [Shape.children]))
      (by simpa using hfits.1)
  · show (s.procedureOf.insert id s.program.procedures.size)[x]? = _
    simp [Std.TreeMap.getElem?_insert, Ne.symm hx]

omit hc ih in
/-- The procedure that has been lowered has the code of its body. -/
theorem enclosed_compiles {body : NodeId} {result : Option Ty} {s₁ : Lowering}
    (hinitial : s.layout = .initial) (hcode : s.current.code = #[]) (hspans : s.current.spans = #[])
    (hbody : Lowered c ℓ body s v s₁) (hkeeps : s₁.Keeps s')
    (hlayout : s'.layout = (s₁.layout.convertLast result (c.span body)).layout)
    (happends : s₁.Appends (s₁.layout.convertLast result (c.span body)).code s')
    (hℓ : s'.Linked ℓ) : Compiles c ℓ body result s'.current := by
  obtain ⟨code, hbodycode, hemits⟩ := hbody.emits
  have hall := hbodycode.trans happends
  refine .body (hinitial ▸ hemits (hkeeps.linked hℓ)) rfl ?_ ?_ ?_ ?_ ?_ ?_
  · rw [hall.code, hcode]
    rfl
  · rw [hall.spans, hspans]
    rfl
  · exact congrArg Layout.registers hlayout
  · exact congrArg Layout.next hlayout
  · exact congrArg Layout.lastRegister hlayout
  · exact congrArg Layout.lastTy hlayout

omit ih in
/-- Below a procedure there are its body and nodes that declare nothing. -/
theorem below_procedure {result : Option NodeId} {body x : NodeId}
    (hshape : c.tree.shape id = .procedure result body) (hid : id ∈ c.tree.preorder c.root)
    (hx : x ∈ c.tree.preorder id) : x = id ∨ c.tree.IsPlain x ∨ x ∈ c.tree.preorder body := by
  rcases c.tree.mem_preorder.1 hx with rfl | ⟨y, hy, hx⟩
  · exact .inl rfl
  · have hmem := hc.tree.child hid hy
    rw [Tree.children_of_shape hshape] at hy
    rcases List.mem_append.1 hy with hy | hy
    · have hfits := hc.tree.fits id hid
      simp only [Tree.fits, hshape, Bool.and_eq_true] at hfits
      obtain rfl := Option.mem_toList.1 hy
      exact .inr (.inl (hc.plain_of_isType hmem (by simpa using hfits.1) x hx))
    · obtain rfl := List.mem_singleton.1 hy
      exact .inr (.inr hx)

omit hc ih in
/-- The procedure that is opened is called by the next index; all others are called as before. -/
theorem procedureOf_opened (s : Lowering) (id : NodeId) (name : String) (isConstant : Bool)
    (frame : Frame) (x : NodeId) :
    ((s.opened id name isConstant).inFrame frame).procedureOf[x]?
      = if id = x then some s.program.procedures.size else s.procedureOf[x]? := by
  show (s.procedureOf.insert id s.program.procedures.size)[x]? = _
  simp [Std.TreeMap.getElem?_insert]

omit hc ih in
theorem size_opened (s : Lowering) (id : NodeId) (name : String) (isConstant : Bool)
    (frame : Frame) :
    ((s.opened id name isConstant).inFrame frame).program.procedures.size
      = s.program.procedures.size + 1 := by
  simp [opened, inFrame]

omit hc ih in
/-- The registers of the procedure around are those of declarations that have been lowered
before. -/
theorem enclosed_tracked {result : Option NodeId} {body : NodeId} {name : String}
    {isConstant : Bool} {s₁ : Lowering} (hshape : c.tree.shape id = .procedure result body)
    (h : Before c done [id] s)
    (hbody : Passed c ℓ (· ∈ c.tree.preorder body) ((s.opened id name isConstant).inFrame
      ⟨s.program.procedures.size, result.map c.typeOf, ∅⟩) s₁) :
    (s₁.inFrame s.frame).Tracked := by
  have hs := h.tracked.toSound
  have hadv : ((s.opened id name isConstant).inFrame ⟨s.program.procedures.size,
      result.map c.typeOf, ∅⟩).Advances none s₁ :=
    ⟨hbody.tracked.toSound, hbody.grows, fun _ h => by cases h⟩
  refine ⟨(around_advances hs hadv).sound, fun d => ?_, hbody.tracked.owners_lt⟩
  rw [around_current hs hbody.grows, h.tracked.owned d]
  show s.ownerOf[d]? = some s.frame.index ↔ s₁.ownerOf[d]? = some s.frame.index
  constructor
  · intro howner
    -- Below the body no declaration has an owner yet.
    have hd : d ∉ c.tree.preorder body := fun hmem => by
      have hbelow : d ∈ c.tree.preorder id :=
        c.tree.mem_preorder_of_child (by simp [Tree.children_of_shape hshape, Shape.children]) hmem
      rw [(h.fresh d (by simpa using hbelow)).1] at howner
      cases howner
    exact (hbody.owners d hd).trans howner
  · intro howner
    rcases hbody.newOwners d _ howner with hj | hj | hj
    · exact hj
    · exact (Nat.ne_of_lt hs.frame hj).elim
    · rw [size_opened] at hj
      exact (Nat.not_le_of_lt (Nat.lt_succ_of_lt hs.frame) hj).elim

omit ih in
/-- A procedure has been passed once its body has. -/
theorem enclosed_passed {result : Option NodeId} {body : NodeId} {name : String}
    {isConstant : Bool} {s₁ : Lowering} (hshape : c.tree.shape id = .procedure result body)
    (h : Before c done [id] s)
    (hbody : Passed c ℓ (· ∈ c.tree.preorder body) ((s.opened id name isConstant).inFrame
      ⟨s.program.procedures.size, result.map c.typeOf, ∅⟩) s₁)
    (hcompiles : s₁.Linked ℓ → Compiles c ℓ body (result.map c.typeOf) s₁.current) :
    Passed c ℓ (· ∈ c.tree.preorder id) s (s₁.inFrame s.frame) := by
  have hs := h.tracked.toSound
  have hid := h.inTree id (.head _)
  -- What is below the body is below the procedure.
  have hsub : ∀ x ∈ c.tree.preorder body, x ∈ c.tree.preorder id := fun x hx =>
    c.tree.mem_preorder_of_child (by simp [Tree.children_of_shape hshape, Shape.children]) hx
  have hadv : ((s.opened id name isConstant).inFrame ⟨s.program.procedures.size,
      result.map c.typeOf, ∅⟩).Advances none s₁ :=
    ⟨hbody.tracked.toSound, hbody.grows, fun _ h => by cases h⟩
  refine
    { tracked := enclosed_tracked hshape h hbody
      grows := (around_advances hs hadv).grows
      owners := fun x hx => hbody.owners x fun hx' => hx (hsub x hx')
      procedures := fun x hx => ?_
      targets := fun q j hj => ?_
      newOwners := fun x j hj => ?_
      knows := fun d hd hdecl => ?_
      finished := fun q hq hprocedure => ?_ }
  · -- Outside of the procedure only the procedure itself has been opened.
    have hne : id ≠ x := fun heq => hx (heq ▸ c.tree.self_mem_preorder id)
    refine (hbody.procedures x fun hx' => hx (hsub x hx')).trans ?_
    rw [procedureOf_opened, if_neg hne]
  · -- A procedure that was opened before is another one.
    have hne : id ≠ q := fun heq => by
      rw [← heq, (h.fresh id (by simp [c.tree.self_mem_preorder])).2] at hj
      cases hj
    refine hbody.targets q j ?_
    rw [procedureOf_opened, if_neg hne, hj]
  · -- New owners are procedures opened with the body, or the new procedure itself.
    rcases hbody.newOwners x j hj with hj | hj | hj
    · exact .inl hj
    · exact .inr (.inr (Nat.le_of_eq hj.symm))
    · rw [size_opened] at hj
      exact .inr (.inr (Nat.le_of_succ_le hj))
  · rcases below_procedure hc hshape hid hd with rfl | hplain | hd
    · rw [hshape] at hdecl
      cases hdecl
    · rw [hplain.1] at hdecl
      cases hdecl
    · have hknows := hbody.knows d hd hdecl
      exact ⟨hknows.valued, hknows.kinded⟩
  · -- What has been lowered: the procedure itself, its result type, and what is below the body.
    have hlinked : (s₁.inFrame s.frame).Linked ℓ → s₁.Linked ℓ := fun h =>
      ⟨h.constants, h.natives, h.targets⟩
    rcases below_procedure hc hshape hid hq with rfl | hplain | hq
    · -- The procedure itself is the one that the frame of its body belongs to.
      have hindex : s₁.frame.index = s.program.procedures.size := hbody.grows.index
      refine ⟨s.program.procedures.size, s₁.current, Nat.le_refl _, ?_, ?_, fun hℓ =>
        ⟨result, body, hshape, hcompiles (hlinked hℓ)⟩⟩
      · exact hbody.targets q _ (by rw [procedureOf_opened, if_pos rfl])
      · rw [← hindex]
        exact getElem?_current hbody.tracked.frame
    · rw [hplain.2] at hprocedure
      cases hprocedure
    · obtain ⟨j, p, hj, htarget, hp, hrest⟩ := hbody.finished q hq hprocedure
      rw [size_opened] at hj
      exact ⟨j, p, Nat.le_of_succ_le hj, htarget, hp, fun hℓ => hrest (hlinked hℓ)⟩

theorem procedure_lowered {result : Option NodeId} {body : NodeId}
    (hshape : c.tree.shape id = .procedure result body) (h : Before c done [id] s)
    (houtcome : ProcedureOutcome c lower id body s result s') (hp : s'.problems = #[]) :
    Lowered c ℓ id s none s' := by
  have hid := h.inTree id (.head _)
  have hitem := hc.tree.isItem_body hid hshape
  obtain ⟨done', hbefore⟩ := body_before hc hshape h (procedureName c id).1 (procedureName c id).2
  have hsound := hbefore.tracked.toSound
  -- The code of the body begins with an empty procedure.
  have hcurrent : ((s.opened id (procedureName c id).1 (procedureName c id).2).inFrame
      ⟨s.program.procedures.size, result.map c.typeOf, ∅⟩).current
        = .empty (procedureName c id).1 := by
    simp [current, opened, inFrame]
  have hinitial : ((s.opened id (procedureName c id).1 (procedureName c id).2).inFrame
      ⟨s.program.procedures.size, result.map c.typeOf, ∅⟩).layout = .initial := by
    unfold layout
    rw [hcurrent]
    rfl
  -- The frame of the procedure is left after its last instruction.
  have finish {s₁ s₂ : Lowering} {v : Option Register}
      (hbody : Lowered c ℓ body ((s.opened id (procedureName c id).1 (procedureName c id).2).inFrame
        ⟨s.program.procedures.size, result.map c.typeOf, ∅⟩) v s₁) (hkeeps : s₁.Keeps s₂)
      (hlayout : s₂.layout = (s₁.layout.convertLast (result.map c.typeOf) (c.span body)).layout)
      (happends : s₁.Appends (s₁.layout.convertLast (result.map c.typeOf) (c.span body)).code s₂) :
      Lowered c ℓ id s none (s₂.inFrame s.frame) := by
    have hpassed := hbody.passed.keeps hsound hkeeps
    have hpassed := enclosed_passed hc hshape h hpassed
      (enclosed_compiles hinitial (by rw [hcurrent]; rfl) (by rw [hcurrent]; rfl) hbody hkeeps
        hlayout happends)
    have hsame := around_current h.tracked.toSound
      (hbody.passed.grows.trans hkeeps.grows)
    refine statement_lowered hc hshape h rfl (fun τ hτ => by cases hτ; rfl) hpassed
      (.of_current hsame) fun _ => ?_
    have hlayout : (s₂.inFrame s.frame).layout = s.layout := by
      unfold layout
      rw [hsame]
      rfl
    rw [hlayout]
    exact .procedure
  cases houtcome with
  -- No result type is declared, so nothing is converted at the end.
  | @untyped v s₁ hbody =>
    obtain ⟨hlowered, -⟩ := ih.step hbefore hitem hbody hp
    obtain ⟨hcode, hlayout⟩ := s₁.layout.convertLast_none (c.span body)
    refine finish hlowered (.refl hlowered.passed.tracked.toSound) hlayout.symm ?_
    rw [Option.map_none, hcode]
    exact .refl s₁
  -- The value written last is converted to the declared result type.
  | @typed result v s₁ s₂ hbody hlast =>
    have hadv := ih.advances _ _ _ _ hbody hsound
    obtain ⟨hkeeps, hlayout, happends⟩ := convertLast_lowered hadv.sound hlast
    obtain ⟨hlowered, -⟩ := ih.step hbefore hitem hbody (hkeeps.grows.problems_eq hp)
    exact finish hlowered hkeeps hlayout happends

/-! ### All shapes -/

/-- One rule, over the nodes below. -/
theorem rule_lowered (h : Before c done [id] s) (hitem : (c.tree.shape id).isItem = true)
    (houtcome : RuleOutcome c lower id s (c.tree.shape id) v s') (hp : s'.problems = #[]) :
    Lowered c ℓ id s v s' := by
  -- One lemma for each shape.
  generalize hshape : c.tree.shape id = shape at houtcome
  cases houtcome with
  | module houtcome => exact scope_lowered hc ih hshape (.inl rfl) h houtcome hp
  | block houtcome => exact scope_lowered hc ih hshape (.inr rfl) h houtcome hp
  | constant houtcome => exact constant_lowered hc ih hshape h houtcome hp
  | @var name ty init _ _ houtcome =>
    rcases varRule_ok houtcome with ⟨x, rfl, hdeclare⟩ | ⟨rfl, -, -, rfl⟩ | ⟨r, rfl, -, rfl, hbind⟩
    · exact var_lowered hc ih hshape h hdeclare hp
    · simp [withProblem] at hp
    · exact varFresh_lowered hc hshape h hbind
  | procedure houtcome => exact procedure_lowered hc ih hshape h houtcome hp
  | struct | field | enum | variant | binaryOp | signOp | typeName | array =>
    exact inert_lowered hc h hitem (by rw [hshape]; rfl)
  | exprStmt hx => exact exprStmt_lowered hc ih hshape h hx hp
  | assign houtcome => exact assign_lowered hc ih hshape h houtcome hp
  | parallel hstages hstores => exact parallel_lowered hc ih hshape h hstages hstores hp
  | ret houtcome => exact return_lowered hc ih hshape h houtcome hp
  | literal hlit => exact literal_lowered hshape h hlit hp
  | ident hdecl houtcome => exact ident_lowered hc hshape h hdecl houtcome hp
  | binary hop hkind houtcome => exact binary_lowered hc ih hshape hop hkind h houtcome hp
  | signed hop houtcome => exact signed_lowered hc ih hshape hop h houtcome hp
  | group hx => exact group_lowered hc ih hshape h hx hp
  | call hcallee houtcome => exact call_lowered hc ih hshape h hcallee houtcome hp
  | cast hcast => exact cast_lowered hc ih hshape h hcast hp
  | native houtcome => exact native_lowered hc ih hshape h houtcome hp
  -- A slot is lowered with the native code around it, never on its own.
  | slot _ =>
    rw [hshape] at hitem
    cases hitem

end Rules

/-- **A node that is lowered without a problem has the code of its rule.** -/
theorem node_lowered {c : LowerContext} {ℓ : Linkage} (hc : c.Sound) {id : NodeId}
    {s s' : Lowering} {v : Option Register} {done : NodeId → Prop} (h : Before c done [id] s)
    (hitem : (c.tree.shape id).isItem = true) (hnode : node c id s = .ok (v, s'))
    (hp : s'.problems = #[]) : Lowered c ℓ id s v s' :=
  node_induction
    (motive := fun x s v s' => ∀ done, (c.tree.shape x).isItem = true → Before c done [x] s →
      s'.problems = #[] → Lowered c ℓ x s v s')
    (fun _ _ ih _ _ _ houtcome _ hitem h hp => rule_lowered hc ih h hitem houtcome hp)
    hnode done hitem h hp

end MiddleEnd.Lower
