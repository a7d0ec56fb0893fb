import MiddleEnd.Proofs.Lowering.Arrives

/-!
# Turns of lowering

The rules of lowering as one walk.  A node has the nodes below it lowered, stores to its targets,
and gives itself a register; between these steps there is nothing but code.  What depends only on
who is lowered where, in which procedure and in which order, is proved from the steps of a walk, not
rule by rule.

## Main definitions

* `Tree.written` — the targets of a node.
* `Lowering.Quiet` — a step that adds code, or a problem that is no capture.
* `Lower.Walks` — the nodes below a node are lowered, its targets are written, it is tied.
* `Lower.Turn` — all that happens between two states when a node is lowered.

## Main results

* `Lower.rule_turn` — **every rule takes a turn**.
* `Lower.node_turn_induction` — what every turn passes on from the nodes below holds of every node.
-/

namespace MiddleEnd

open Runs Lowering

/-- The nodes that a node of this shape stores to, in order. -/
def Shape.written (t : Tree) : Shape → List NodeId
  | assign target _ => [target]
  | parallel targets _ => targets
  | native _ _ (some output) =>
    match t.shape output with
    | slot target _ => [target]
    | _ => []
  | _ => []

/-- The nodes that a node stores to. -/
def Tree.written (t : Tree) (id : NodeId) : List NodeId := (t.shape id).written t

namespace Lowering

/-! ### Steps between the nodes -/

/-- A step that adds code, or a problem that is no capture. -/
structure Quiet (s s' : Lowering) : Prop extends s.Keeps s' where
  /-- No procedure has been opened. -/
  size : s'.program.procedures.size = s.program.procedures.size
  /-- Names lead to the same procedures. -/
  texts : s'.program.textSymbols = s.program.textSymbols
  /-- Variables are found in the same registers. -/
  data : s'.program.dataSymbols = s.program.dataSymbols
  /-- Nothing more has been refused as a value of another procedure. -/
  captures : ∀ ident decl, .capture ident decl ∈ s'.problems → .capture ident decl ∈ s.problems

namespace Quiet

variable {c : LowerContext} {s s₁ s' : Lowering} {v : Option Register}

theorem refl (hs : s.Sound) : s.Quiet s := ⟨.refl hs, rfl, rfl, rfl, fun _ _ h => h⟩

theorem trans (h : s.Quiet s₁) (h' : s₁.Quiet s') : s.Quiet s' :=
  ⟨h.toKeeps.trans h'.toKeeps, h'.size.trans h.size, h'.texts.trans h.texts,
    h'.data.trans h.data, fun ident decl hmem =>
    h.captures ident decl (h'.captures ident decl hmem)⟩

theorem advances (h : s.Quiet s') : s.Advances none s' := ⟨h.sound, h.grows, fun _ h => by cases h⟩

theorem emitted (hs : s.Sound) {i : Instruction} (hi : i.Fits s.program s.current.nextRegister)
    (ty : Ty) (span : Span) : s.Quiet (s.emitted i ty span) :=
  ⟨.emitted hs hi ty span, size_onCurrent _ _, rfl, rfl, fun _ _ h => h⟩

theorem allocated (hs : s.Sound) : s.Quiet s.allocated :=
  ⟨.allocated hs, size_onCurrent _ _, rfl, rfl, fun _ _ h => h⟩

theorem computed (hs : s.Sound) {i : Instruction}
    (hi : i.Fits s.program (s.current.nextRegister + 1)) (ty : Ty) (span : Span) :
    s.Quiet (s.allocated.emitted i ty span) :=
  ⟨.computed hs hi ty span, (size_onCurrent _ _).trans (size_onCurrent _ _), rfl, rfl,
    fun _ _ h => h⟩

theorem withConstant (hs : s.Sound) (w : Word) : s.Quiet (s.withConstant w) :=
  ⟨.withConstant hs w, rfl, rfl, rfl, fun _ _ h => h⟩

theorem withProblem (hs : s.Sound) {p : LoweringProblem}
    (hp : ∀ ident decl, p ≠ .capture ident decl) : s.Quiet (s.withProblem p) where
  sound := hs.withProblem p
  grows := .withProblem p
  owners := rfl
  procedures := rfl
  registers := rfl
  size := rfl
  texts := rfl
  data := rfl
  captures ident decl hmem := by
    rcases Array.mem_push.1 hmem with hmem | hmem
    · exact hmem
    · exact (hp ident decl hmem.symm).elim

theorem load (hs : s.Sound) {w : Word} {ty : Ty} {span : Span} {r : Register}
    (h : Lower.load c w ty span s = .ok (r, s')) : s.Quiet s' := by
  obtain ⟨rfl, rfl⟩ := Lower.load_ok h
  have hs₁ := hs.withConstant w
  refine (withConstant hs w).trans (.computed hs₁ ?_ ty span)
  exact .loadConstant (Advances.fresh_inFrame hs₁) (by simp [Lowering.withConstant])

theorem convert (hs : s.Sound) {value r : Register} (hvalue : s.Holds value) {source dest : Ty}
    {span : Span} (h : Lower.convert c value source dest span s = .ok (r, s')) : s.Quiet s' := by
  rcases Lower.convert_ok h with ⟨a, b, -, -, -, rfl, rfl⟩ | ⟨-, rfl, rfl⟩
  · exact .computed hs
      (.convert (Advances.fresh_inFrame hs) (hvalue.mono (Nat.le_succ _))) dest span
  · exact .refl hs

theorem literalRule (hs : s.Sound) {id : NodeId} {span : Span} {lit : Literal}
    (h : Lower.literalRule c id span lit s = .ok (v, s')) : s.Quiet s' := by
  rcases Lower.literalRule_ok h with ⟨-, -, rfl⟩ | ⟨value, r, -, hload, -⟩
  · exact .withProblem hs (by simp)
  · exact .load hs hload

theorem convertLast (hs : s.Sound) {body : NodeId} {result : Ty} {u : Unit}
    (h : Lower.convertLast c body result s = .ok (u, s')) : s.Quiet s' := by
  rcases Lower.convertLast_ok h with ⟨-, rfl⟩ | ⟨r, hlast, h⟩
  · exact .refl hs
  · exact .convert hs (hs.current.last hlast) h

/-- A call adds an instruction, or is refused. -/
theorem call (hs : s.Sound) {id callee : NodeId} (h : Lower.CallOutcome c id callee s v s') :
    s.Quiet s' := by
  cases h with
  | indirect _ => exact .withProblem hs (by simp)
  | direct _ h =>
    exact .computed hs (.call (Advances.fresh_inFrame hs) (hs.targets _ _ h)) _ _

end Quiet

end Lowering

namespace Lower

/-! ### Walks and turns -/

section Walks

variable (c : LowerContext) (lower : NodeId → Lower (Option Register)) (id : NodeId)

/-- Something has been refused, or a value is missing although its type has a kind. -/
def Gap (vs : List (NodeId × Option Register)) (s : Lowering) : Prop :=
  s.problems ≠ #[] ∨ ∃ x, (x, none) ∈ vs ∧ (c.typeOf x).hasKind = true

/-- The nodes `xs` below `id` are lowered, with the values `vs` so far.  Then the targets `ws` are
written, and in the end `id` may be tied to a register. -/
inductive Walks : List NodeId → List NodeId → List (NodeId × Option Register) →
    Lowering → Lowering → Prop
  /-- All nodes have been lowered and all targets written. -/
  | finish {vs : List (NodeId × Option Register)} {s : Lowering} : Walks [] [] vs s s
  /-- Something is done that changes nothing that is remembered about declarations. -/
  | quiet {xs ws : List NodeId} {vs : List (NodeId × Option Register)} {s s₁ s' : Lowering}
      (h : s.Quiet s₁) (hrest : Walks xs ws vs s₁ s') : Walks xs ws vs s s'
  /-- The first node is passed over: nothing below it is declared or opened, and the names below it
  are targets, unless a value has been missing. -/
  | skip {x : NodeId} {xs ws : List NodeId} {vs : List (NodeId × Option Register)}
      {s s' : Lowering} (hplain : ∀ y ∈ c.tree.preorder x, c.tree.IsPlain y)
      (hidents : ∀ y ∈ c.tree.preorder x, (c.tree.shape y).isIdent = true →
        (∃ target ∈ c.tree.written id, y = c.tree.ungroup target) ∨ Gap c vs s)
      (hrest : Walks xs ws vs s s') : Walks (x :: xs) ws vs s s'
  /-- The first node is lowered. -/
  | visit {x : NodeId} {v : Option Register} {xs ws : List NodeId}
      {vs : List (NodeId × Option Register)} {s s₁ s' : Lowering}
      (hitem : (c.tree.shape x).isItem = true) (hx : lower x s = .ok (v, s₁))
      (hrest : Walks xs ws ((x, v) :: vs) s₁ s') : Walks (x :: xs) ws vs s s'
  /-- The first node is a slot, and what it is tied to is lowered. -/
  | slot {x target : NodeId} {offset : Nat} {v : Option Register} {xs ws : List NodeId}
      {vs : List (NodeId × Option Register)} {s s₁ s' : Lowering}
      (hslot : c.tree.shape x = .slot target offset) (hx : lower target s = .ok (v, s₁))
      (hrest : Walks xs ws ((target, v) :: vs) s₁ s') : Walks (x :: xs) ws vs s s'
  /-- The first target is written. -/
  | write {target decl : NodeId} {v : Option Register} {ws : List NodeId}
      {vs : List (NodeId × Option Register)} {s s₁ s' : Lowering}
      (hdecl : c.resolution.declaration? (c.tree.ungroup target) = some decl)
      (h : PlaceOutcome c (c.tree.ungroup target) decl s v s₁)
      (hrest : Walks [] ws vs s₁ s') : Walks [] (target :: ws) vs s s'
  /-- The first target is not written, which it should be only if a value has been missing. -/
  | miss {target : NodeId} {ws : List NodeId} {vs : List (NodeId × Option Register)}
      {s s' : Lowering} (h : (c.typeOf target).hasKind = true → Gap c vs s)
      (hrest : Walks [] ws vs s s') : Walks [] (target :: ws) vs s s'
  /-- The node is tied to the register of its value. -/
  | tie {r : Register} {vs : List (NodeId × Option Register)} {s : Lowering}
      (hdecl : (c.tree.shape id).isDeclaration = true) (hr : s.Holds r) :
      Walks [] [] vs s (s.tie c id r)

/-- What happens when `id` is lowered: a name is read, a procedure has its body lowered in a frame
of its own, and any other node walks over what is below it. -/
inductive Turn (s : Lowering) : Lowering → Prop
  /-- A name is read. -/
  | ident {name : String} {decl : NodeId} {v : Option Register} {s' : Lowering}
      (hshape : c.tree.shape id = .ident name)
      (hdecl : c.resolution.declaration? id = some decl) (h : IdentOutcome c id decl s v s') :
      Turn s s'
  /-- A procedure is opened, and its body lowered. -/
  | procedure {result : Option NodeId} {body : NodeId} {v : Option Register} {s₁ s₂ : Lowering}
      (hshape : c.tree.shape id = .procedure result body)
      (hbody : lower body ((s.opened id (procedureName c id).1 (procedureName c id).2).inFrame
        ⟨s.program.procedures.size, result.map c.typeOf, ∅⟩) = .ok (v, s₁))
      (hlast : s₁.Quiet s₂) : Turn s (s₂.inFrame s.frame)
  /-- What is below the node is lowered in order, and then its targets are written. -/
  | node {s' : Lowering} (hident : (c.tree.shape id).isIdent = false)
      (hprocedure : (c.tree.shape id).isProcedure = false)
      (h : Walks c lower id (c.tree.children id) (c.tree.written id) [] s s') : Turn s s'

end Walks

theorem Gap.grows {c : LowerContext} {vs : List (NodeId × Option Register)} {s s' : Lowering}
    (h : Gap c vs s) (hs : s.Grows s') : Gap c vs s' :=
  h.imp_left fun hne hp => hne (hs.problems_eq hp)

namespace Walks

variable {c : LowerContext} {lower : NodeId → Lower (Option Register)} {id : NodeId}
  {xs ws : List NodeId} {vs : List (NodeId × Option Register)} {s s' : Lowering}

theorem skipAll {plain : List NodeId}
    (hplain : ∀ x ∈ plain, ∀ y ∈ c.tree.preorder x, c.tree.IsPlain y)
    (hidents : ∀ x ∈ plain, ∀ y ∈ c.tree.preorder x, (c.tree.shape y).isIdent = true →
      (∃ target ∈ c.tree.written id, y = c.tree.ungroup target) ∨ Gap c vs s)
    (h : Walks c lower id xs ws vs s s') : Walks c lower id (plain ++ xs) ws vs s s' := by
  induction plain with
  | nil => exact h
  | cons x plain ih =>
    exact .skip (hplain x (.head _)) (hidents x (.head _))
      (ih (fun y hy => hplain y (.tail _ hy)) fun y hy => hidents y (.tail _ hy))

theorem missAll (hws : ∀ target ∈ ws, (c.typeOf target).hasKind = true → Gap c vs s)
    (h : Walks c lower id [] [] vs s s') : Walks c lower id [] ws vs s s' := by
  induction ws with
  | nil => exact h
  | cons target ws ih => exact .miss (hws target (.head _)) (ih fun y hy => hws y (.tail _ hy))

/-- A walk only adds to what there is. -/
theorem advances (h : Walks c lower id xs ws vs s s') (hs : s.Sound)
    (ih : ∀ (x : NodeId) (s s' : Lowering) (v : Option Register),
      lower x s = .ok (v, s') → s.Sound → s.Advances v s') : s.Advances none s' := by
  induction h with
  | finish => exact .refl hs
  | quiet h _ ihrest => exact h.advances.trans (ihrest h.sound)
  | skip _ _ _ ihrest => exact ihrest hs
  | visit _ hx _ ihrest | slot _ hx _ ihrest =>
    have hadv := ih _ _ _ _ hx hs
    exact hadv.forget.trans (ihrest hadv.sound)
  | write _ h _ ihrest =>
    cases h with
    | unowned _ | own _ => exact ihrest hs
    | outer _ _ => exact (Advances.withProblem hs _).trans (ihrest (hs.withProblem _))
  | miss _ _ ihrest => exact ihrest hs
  | tie _ hr => exact (Advances.tied hs hr c id).forget

end Walks

/-- A name is read in silence, or it is refused as one of another procedure. -/
theorem IdentOutcome.quiet_or {c : LowerContext} {id decl : NodeId} {s s' : Lowering}
    {v : Option Register} (hs : s.Sound) (h : IdentOutcome c id decl s v s') :
    s.Quiet s' ∨ s' = s.withProblem (.capture id decl) ∧ literalConstant? c.tree decl = none
      ∧ ∃ owner, s.ownerOf[decl]? = some owner ∧ owner ≠ s.frame.index := by
  cases h with
  | shape _ => exact .inl (.withProblem hs (by simp))
  | procedure _ _ | unowned _ _ _ | own _ _ _ _ => exact .inl (.refl hs)
  | outer _ _ howner hne h =>
    rcases outerRule_ok h with ⟨x, lit, -, h⟩ | ⟨hlit, -, rfl⟩
    · exact .inl (.literalRule hs h)
    · exact .inr ⟨rfl, hlit, _, howner, hne⟩

/-! ### Rules -/

section Rules

variable {c : LowerContext} {lower : NodeId → Lower (Option Register)} {id : NodeId}
  {xs ws : List NodeId} {vs : List (NodeId × Option Register)} {s s₁ s' : Lowering}
  {v : Option Register}

/-- There is one name at most below a leaf in parentheses. -/
theorem ident_of_ungroup {t : Tree} {x : NodeId} {shape : Shape}
    (hshape : t.shape (t.ungroup x) = shape) (hleaf : shape.children = []) :
    ∀ y ∈ t.preorder x, (t.shape y).isIdent = true → y = t.ungroup x := fun y hy hident =>
  Tree.eq_ungroup_of_leaf (hshape ▸ hleaf) hy fun e hgroup => by
    rw [hgroup] at hident
    cases hident

/-- Below a target there is its name, and nothing else to lower. -/
theorem Walks.skipTarget {x : NodeId} (hvariable : c.typingContext.IsVariable x)
    (hmem : x ∈ c.tree.written id) (h : Walks c lower id xs ws vs s s') :
    Walks c lower id (x :: xs) ws vs s s' := by
  have hplain := plain_of_isVariable hvariable
  obtain ⟨-, -, -, -, -, -, name, hname⟩ := hvariable
  exact .skip hplain
    (fun y hy hident => .inl ⟨x, hmem, ident_of_ungroup hname rfl y hy hident⟩) h

theorem Walks.skipTargets {targets : List NodeId}
    (hvariable : ∀ x ∈ targets, c.typingContext.IsVariable x)
    (hmem : ∀ x ∈ targets, x ∈ c.tree.written id) (h : Walks c lower id xs ws vs s s') :
    Walks c lower id (targets ++ xs) ws vs s s' := by
  induction targets with
  | nil => exact h
  | cons x targets ih =>
    exact .skipTarget (hvariable x (.head _)) (hmem x (.head _))
      (ih (fun y hy => hvariable y (.tail _ hy)) fun y hy => hmem y (.tail _ hy))

variable (hc : c.Sound)
include hc

/-- Below types, operators, structures and enumerations there is nothing to lower. -/
theorem Walks.skipInert {x : NodeId} (hx : x ∈ c.tree.preorder c.root)
    (hinert : (c.tree.shape x).isInert = true) (h : Walks c lower id xs ws vs s s') :
    Walks c lower id (x :: xs) ws vs s s' := by
  refine .skip (hc.plain_of_isInert hx hinert) (fun y hy hident => ?_) h
  have hy := hc.isInert_below hx hinert y hy
  cases hshape : c.tree.shape y <;> rw [hshape] at hy hident <;>
    first | (cases hy; done) | cases hident

theorem Walks.skipTypes {types : List NodeId}
    (htypes : ∀ x ∈ types, x ∈ c.tree.preorder c.root ∧ (c.tree.shape x).isType = true)
    (h : Walks c lower id xs ws vs s s') : Walks c lower id (types ++ xs) ws vs s s' := by
  induction types with
  | nil => exact h
  | cons x types ih =>
    obtain ⟨hx, htype⟩ := htypes x (.head _)
    refine .skipInert hc hx ?_ (ih fun y hy => htypes y (.tail _ hy))
    cases hshape : c.tree.shape x <;> rw [hshape] at htype <;> first | rfl | cases htype

omit hc
variable (ih : ∀ (x : NodeId) (s s' : Lowering) (v : Option Register),
  lower x s = .ok (v, s') → s.Sound → s.Advances v s')
include ih

/-- A node is lowered and its value, if it has one, is converted. -/
theorem Walks.converted {x : NodeId} {source dest : Ty} {span : Span} (hs : s.Sound)
    (hitem : (c.tree.shape x).isItem = true)
    (h : (lower x s = .ok (none, s₁) ∧ v = none)
      ∨ ∃ value s₀ r, lower x s = .ok (some value, s₀)
          ∧ convert c value source dest span s₀ = .ok (r, s₁) ∧ v = some r)
    (hrest : ∀ u : Option Register, (u = none ↔ v = none) →
      Walks c lower id xs ws ((x, u) :: vs) s₁ s') :
    Walks c lower id (x :: xs) ws vs s s' := by
  rcases h with ⟨hx, rfl⟩ | ⟨value, s₀, r, hx, hconvert, rfl⟩
  · exact .visit hitem hx (hrest none Iff.rfl)
  · have hadv := ih _ _ _ _ hx hs
    exact .visit hitem hx (.quiet (.convert hadv.sound (hadv.holds value rfl) hconvert)
      (hrest (some value) (by simp)))

omit ih in
/-- A declaration is tied to a register that is not tied yet. -/
theorem bind_walk {value r : Register} {span : Span} (hs : s.Sound) (hvalue : s.Holds value)
    (hdecl : (c.tree.shape id).isDeclaration = true)
    (h : bind c id value span s = .ok (r, s')) : Walks c lower id [] [] vs s s' := by
  rcases bind_tie h with ⟨-, rfl, rfl⟩ | ⟨-, rfl, rfl⟩
  · exact .tie hdecl hvalue
  · have hfits := Instruction.Fits.copy (p := s.program) (Advances.fresh_inFrame hs)
      (hvalue.mono (Nat.le_succ _))
    exact .quiet (.computed hs hfits (c.typeOf id) span)
      (.tie hdecl ((Advances.computed hs hfits (c.typeOf id) span).holds _ rfl))

theorem declare_walk {init : NodeId} (hs : s.Sound) (hitem : (c.tree.shape init).isItem = true)
    (hdecl : (c.tree.shape id).isDeclaration = true)
    (h : DeclareOutcome c lower id init s v s') : Walks c lower id [init] [] vs s s' := by
  cases h with
  | missing h => exact .visit hitem h .finish
  | tied hinit hconvert h =>
    have hadv := ih _ _ _ _ hinit hs
    have hconverted := convert_advances hadv.sound (hadv.holds _ rfl) hconvert
    exact .visit hitem hinit (.quiet (.convert hadv.sound (hadv.holds _ rfl) hconvert)
      (bind_walk hconverted.sound (hconverted.holds _ rfl) hdecl h))

omit ih in
theorem store_walk {target : NodeId} {value : Register} {span : Span} {u : Unit} (hs : s.Sound)
    (hvalue : s.Holds value) (h : store c target value span s = .ok (u, s₁))
    (hrest : Walks c lower id [] ws vs s₁ s') : Walks c lower id [] (target :: ws) vs s s' := by
  rcases store_ok h with hplace | ⟨r, s₀, hplace, rfl⟩
  · obtain ⟨decl, hdecl, houtcome⟩ := place_ok hplace
    exact .write hdecl houtcome hrest
  · have hadv := place_advances hs hplace
    obtain ⟨decl, hdecl, houtcome⟩ := place_ok hplace
    exact .write hdecl houtcome
      (.quiet (.emitted hadv.sound (.copy (hadv.holds r rfl) (hadv.keeps hvalue)) _ span) hrest)

theorem items_walk {items : List NodeId} (hs : s.Sound)
    (hitems : ∀ x ∈ items, (c.tree.shape x).isItem = true) (h : ItemsOutcome lower items s s') :
    Walks c lower id items [] vs s s' := by
  induction h generalizing vs with
  | nil => exact .finish
  | cons hx _ ihrest =>
    exact .visit (hitems _ (.head _)) hx
      (ihrest (ih _ _ _ _ hx hs).sound fun y hy => hitems y (.tail _ hy))

omit ih in
theorem StagesOutcome.length {values : List NodeId} {staged : List (Option Register)}
    (h : StagesOutcome c lower values s staged s') : staged.length = values.length := by
  induction h with
  | nil => rfl
  | cons _ _ ih => simp [ih]

/-- The values of a parallel assignment are lowered; those that are missing are remembered. -/
theorem stages_walk {values : List NodeId} {staged : List (Option Register)} (hs : s.Sound)
    (hitems : ∀ x ∈ values, (c.tree.shape x).isItem = true)
    (h : StagesOutcome c lower values s staged s₁)
    (hrest : ∀ vs', (∀ x, (x, none) ∈ values.zip staged → (x, none) ∈ vs') →
      (∀ p ∈ vs, p ∈ vs') → Walks c lower id [] ws vs' s₁ s') :
    Walks c lower id values ws vs s s' := by
  induction h generalizing vs with
  | nil => exact hrest vs (fun x hx => by simp at hx) fun _ hp => hp
  | @cons value values s s₀ s₁ u us hone _ ihrest =>
    have hadv := stage_advances ih hs hone
    have hitem := hitems value (.head _)
    -- The rest of the values, once this one has been remembered.
    have hnext : ∀ w : Option Register, (u = none → w = none) →
        Walks c lower id values ws ((value, w) :: vs) s₀ s' := fun w hw =>
      ihrest hadv.sound (fun y hy => hitems y (.tail _ hy)) fun vs' hmissing hvs' =>
        hrest vs' (fun x hx => by
          rw [List.zip_cons_cons, List.mem_cons] at hx
          rcases hx with hx | hx
          · obtain ⟨rfl, hu⟩ := Prod.mk.inj hx
            exact hvs' _ (hw hu.symm ▸ .head _)
          · exact hmissing x hx) fun p hp => hvs' p (.tail _ hp)
    cases hone with
    | missing hx => exact .visit hitem hx (hnext none fun _ => rfl)
    | @copied r s₂ hx _ =>
      have hvalue := ih _ _ _ _ hx hs
      have hr : s₂.Holds r := hvalue.holds r rfl
      exact .visit hitem hx (.quiet (.computed hvalue.sound
        (.copy (Advances.fresh_inFrame hvalue.sound) (hr.mono (Nat.le_succ _))) _ _)
        (hnext (some r) fun h => by cases h))
    | @kept r _ hx _ => exact .visit hitem hx (hnext (some r) fun h => by cases h)

omit ih in
/-- What has been staged is stored; where nothing has been, a value is missing. -/
theorem stores_walk {triples : List (NodeId × NodeId × Option Register)} (hs : s.Sound)
    (hholds : ∀ triple ∈ triples, ∀ r, triple.2.2 = some r → s.Holds r)
    (hmissing : ∀ triple ∈ triples, triple.2.2 = none → (c.typeOf triple.1).hasKind = true →
      Gap c vs s) (h : StoresOutcome c triples s s') :
    Walks c lower id [] (triples.map Prod.fst) vs s s' := by
  induction h with
  | nil => exact .finish
  | missing _ ihrest =>
    exact .miss (hmissing _ (.head _) rfl) (ihrest hs
      (fun triple hmem => hholds triple (.tail _ hmem))
      fun triple hmem => hmissing triple (.tail _ hmem))
  | @stored target value rest r converted s s₁ s₂ s' hconvert hstore _ ihrest =>
    have hconverted := convert_advances hs (hholds _ (.head _) r rfl) hconvert
    have hstored := hconverted.trans
      (store_advances hconverted.sound (hconverted.holds _ rfl) hstore)
    refine .quiet (.convert hs (hholds _ (.head _) r rfl) hconvert)
      (store_walk hconverted.sound (hconverted.holds _ rfl) hstore (ihrest hstored.sound ?_ ?_))
    · exact fun triple hmem r hr => hstored.keeps (hholds triple (.tail _ hmem) r hr)
    · exact fun triple hmem hnone hkind => (hmissing triple (.tail _ hmem) hnone hkind).grows
        hstored.grows

include hc

omit ih in
/-- The slot of an output is not lowered: it names a target. -/
theorem Walks.skipOutput {x target : NodeId} {offset : Nat} (hx : x ∈ c.tree.preorder c.root)
    (hslot : c.tree.shape x = .slot target offset) (hmem : target ∈ c.tree.written id)
    (h : Walks c lower id xs ws vs s s') : Walks c lower id (x :: xs) ws vs s s' := by
  obtain ⟨target', offset', name, hslot', hname, hplain⟩ :=
    plain_of_isSlot hc hx (by rw [hslot]; rfl)
  obtain ⟨rfl, rfl⟩ := Shape.slot.inj (hslot'.symm.trans hslot)
  have hungroup : c.tree.ungroup target' = target' :=
    Tree.ungroup_of_not_group (by simp [hname])
  refine .skip hplain (fun y hy hident => .inl ⟨target', hmem, ?_⟩) h
  rcases c.tree.mem_preorder.1 hy with rfl | ⟨z, hz, hy⟩
  · rw [hslot] at hident
    cases hident
  · rw [Tree.children_of_shape hslot] at hz
    obtain rfl := List.mem_singleton.1 hz
    exact ident_of_ungroup (hungroup.symm ▸ hname) rfl y hy hident

omit ih in
/-- Slots that are not lowered, because native code has been refused before. -/
theorem Walks.skipSlots {slots : List NodeId}
    (hslots : ∀ x ∈ slots, x ∈ c.tree.preorder c.root ∧ (c.tree.shape x).isSlot = true)
    (hgap : Gap c vs s) (h : Walks c lower id xs ws vs s s') :
    Walks c lower id (slots ++ xs) ws vs s s' := by
  refine .skipAll (fun x hx => ?_) (fun _ _ _ _ _ => .inr hgap) h
  obtain ⟨hmem, hslot⟩ := hslots x hx
  obtain ⟨-, -, -, -, -, hplain⟩ := plain_of_isSlot hc hmem hslot
  exact hplain

/-- The inputs of native code are lowered, up to one that has no value. -/
theorem inputs_walk {inputs : List NodeId} {slots : Option (List NativeSlot)} (hs : s.Sound)
    (hinputs : ∀ x ∈ inputs, x ∈ c.tree.preorder c.root ∧ (c.tree.shape x).isSlot = true)
    (h : InputsOutcome c lower inputs s slots s₁)
    (hrest : ∀ vs', (slots = none → Gap c vs' s₁) → Walks c lower id xs ws vs' s₁ s') :
    Walks c lower id (inputs ++ xs) ws vs s s' := by
  induction h generalizing vs with
  | nil => exact hrest vs fun h => by cases h
  | @missing input target offset rest s s₁ hslot hx =>
    have hgap : Gap c ((target, none) :: vs) s₁ :=
      .inr ⟨target, .head _, (slot_fits hc (hinputs input (.head _)).1 hslot).2⟩
    exact .slot hslot hx (.skipSlots hc (fun y hy => hinputs y (.tail _ hy)) hgap
      (hrest _ fun _ => hgap))
  | cut hslot hx _ ihrest =>
    exact .slot hslot hx (ihrest (ih _ _ _ _ hx hs).sound (fun y hy => hinputs y (.tail _ hy))
      fun vs' hgap => hrest vs' fun _ => hgap rfl)
  | cons hslot hx _ ihrest =>
    exact .slot hslot hx (ihrest (ih _ _ _ _ hx hs).sound (fun y hy => hinputs y (.tail _ hy))
      fun vs' _ => hrest vs' fun h => by cases h)

omit ih in
/-- The output of native code is a target. -/
theorem output_walk {output : Option NodeId} {slot : Option (Option NativeSlot)}
    (houtput : ∀ x ∈ output, x ∈ c.tree.preorder c.root)
    (hwritten : ∀ x ∈ output, ∀ target offset, c.tree.shape x = .slot target offset →
      c.tree.written id = [target])
    (hnone : output = none → c.tree.written id = [])
    (h : nativeOutput c output s = .ok (slot, s₁)) (hrest : Walks c lower id [] [] vs s₁ s') :
    Walks c lower id output.toList (c.tree.written id) vs s s' := by
  rcases nativeOutput_ok h with ⟨rfl, -, rfl⟩ | ⟨x, target, offset, v, rfl, hslot, hplace, -⟩
  · rw [hnone rfl]
    exact hrest
  · obtain ⟨decl, hdecl, houtcome⟩ := place_ok hplace
    have hws := hwritten x rfl target offset hslot
    refine .skipOutput hc (houtput x rfl) hslot (by simp [hws]) ?_
    rw [hws]
    exact .write hdecl houtcome hrest

theorem native_walk {source : String} {inputs : List NodeId} {output : Option NodeId}
    (hid : id ∈ c.tree.preorder c.root) (hshape : c.tree.shape id = .native source inputs output)
    (hs : s.Sound) (h : NativeOutcome c lower id source inputs output s v s') :
    Walks c lower id (inputs ++ output.toList) (c.tree.written id) [] s s' := by
  have hfits := hc.tree.fits id hid
  simp only [Tree.fits, hshape, Bool.and_eq_true, List.all_eq_true, Option.all_eq_true] at hfits
  have hchildren : c.tree.children id = inputs ++ output.toList := Tree.children_of_shape hshape
  have hinputs : ∀ x ∈ inputs, x ∈ c.tree.preorder c.root ∧ (c.tree.shape x).isSlot = true :=
    fun x hx => ⟨hc.tree.child hid (by simp [hchildren, hx]), hfits.1 x hx⟩
  have houtput : ∀ x ∈ output.toList,
      x ∈ c.tree.preorder c.root ∧ (c.tree.shape x).isSlot = true := fun x hx =>
    ⟨hc.tree.child hid (by rw [hchildren]; exact List.mem_append_right _ hx),
      hfits.2 x (Option.mem_toList.1 hx)⟩
  have hwritten : ∀ x ∈ output, ∀ target offset, c.tree.shape x = .slot target offset →
      c.tree.written id = [target] := by
    rintro x hx target offset hslot
    obtain rfl : output = some x := hx
    simp [Tree.written, Shape.written, hshape, hslot]
  have hnone : output = none → c.tree.written id = [] := by
    rintro rfl
    simp [Tree.written, Shape.written, hshape]
  have hmem : ∀ x ∈ output, x ∈ c.tree.preorder c.root := fun x hx =>
    (houtput x (Option.mem_toList.2 hx)).1
  -- Where native code is refused, its output is left alone.
  have refused {vs : List (NodeId × Option Register)} {s : Lowering} (hgap : Gap c vs s) :
      Walks c lower id output.toList (c.tree.written id) vs s s := by
    rw [← List.append_nil output.toList]
    exact .skipSlots hc houtput hgap (.missAll (fun _ _ _ => hgap) .finish)
  cases h with
  | tooMany _ =>
    have hgap : Gap c [] (s.withProblem (.nativeInputs id inputs.length)) := .inl (by
      simp [withProblem])
    exact .quiet (.withProblem hs (by simp)) (.skipSlots hc hinputs hgap (refused hgap))
  | noInput h => exact inputs_walk hc ih hs hinputs h fun vs hgap => refused (hgap rfl)
  | noOutput hin hout =>
    exact inputs_walk hc ih hs hinputs hin fun vs _ =>
      output_walk hc hmem hwritten hnone hout .finish
  | @emitted slots slot s₁ s₂ out _ hin hout h =>
    obtain ⟨hadv₁, hslots⟩ := inputs_advances ih hs hin
    obtain ⟨hadv, hslot⟩ := output_advances hadv₁.sound h
    obtain ⟨hkeeps, -, -⟩ := nativeCall_lowered (ℓ := ⟨#[], #[], ∅⟩) hadv.sound
      ⟨source, slots, slot⟩ hout (fun slot hmem => hadv.keeps (hslots slots rfl slot hmem))
      (fun o ho => hslot o (congrArg some ho)) ((output.map c.typeOf).getD .empty) (c.span id)
    refine inputs_walk hc ih hs hinputs hin fun vs _ =>
      output_walk hc hmem hwritten hnone h (.quiet ?_ .finish)
    exact ⟨hkeeps, size_onCurrent _ _, rfl, rfl, fun _ _ h => h⟩

omit hc in
theorem return_walk {value : Option NodeId} (hs : s.Sound)
    (hitem : ∀ x ∈ value, (c.tree.shape x).isItem = true)
    (h : ReturnOutcome c lower id s value s') :
    Walks c lower id value.toList [] vs s s' := by
  cases h with
  | bare => exact .quiet (.emitted hs .retNone _ _) .finish
  | missing h => exact .visit (hitem _ rfl) h .finish
  | raw h _ =>
    have hvalue := ih _ _ _ _ h hs
    exact .visit (hitem _ rfl) h
      (.quiet (.emitted hvalue.sound (.ret (hvalue.holds _ rfl)) _ _) .finish)
  | converted h _ hconvert =>
    have hvalue := ih _ _ _ _ h hs
    have hconverted := convert_advances hvalue.sound (hvalue.holds _ rfl) hconvert
    exact .visit (hitem _ rfl) h (.quiet (.convert hvalue.sound (hvalue.holds _ rfl) hconvert)
      (.quiet (.emitted hconverted.sound (.ret (hconverted.holds _ rfl)) _ _) .finish))

theorem binary_walk {left op right : NodeId} {sym : BinaryOp} {kind : Kind} (hs : s.Sound)
    (hop : op ∈ c.tree.preorder c.root) (hinert : (c.tree.shape op).isInert = true)
    (hleft : (c.tree.shape left).isItem = true) (hright : (c.tree.shape right).isItem = true)
    (h : BinaryOutcome c lower id left right sym kind s v s') :
    Walks c lower id [left, op, right] [] vs s s' := by
  -- The operands are lowered in their order, whatever becomes of them.
  have operands {a b : Option Register} {s₁ s₂ : Lowering}
      (ha : operand c lower left (c.typeOf id) s = .ok (a, s₁))
      (hb : operand c lower right (c.typeOf id) s₁ = .ok (b, s₂))
      (hrest : ∀ vs, Walks c lower id [] [] vs s₂ s') :
      Walks c lower id [left, op, right] [] vs s s' :=
    .converted ih hs hleft (operand_ok ha) fun _ _ => .skipInert hc hop hinert
      (.converted ih (operand_advances ih hs ha).sound hright (operand_ok hb) fun _ _ => hrest _)
  cases h with
  | missing ha hb _ => exact operands ha hb fun _ => .finish
  | @emitted a b s₁ s₂ ha hb =>
    have hadv := operand_advances ih hs ha
    have hadv' := operand_advances ih hadv.sound hb
    have hra : s₂.Holds a := hadv'.keeps (hadv.holds a rfl)
    have hrb : s₂.Holds b := hadv'.holds b rfl
    exact operands ha hb fun _ => .quiet (.computed hadv'.sound
      (.binary (Advances.fresh_inFrame hadv'.sound) (hra.mono (Nat.le_succ _))
        (hrb.mono (Nat.le_succ _))) _ _) .finish

theorem signed_walk {op x : NodeId} {sign : Sign} (hs : s.Sound)
    (hop : op ∈ c.tree.preorder c.root) (hinert : (c.tree.shape op).isInert = true)
    (hx : (c.tree.shape x).isItem = true) (h : SignedOutcome c lower id x s sign v s') :
    Walks c lower id [op, x] [] vs s s' := by
  refine .skipInert hc hop hinert ?_
  cases h with
  | plus h => exact .converted ih hs hx (operand_ok h) fun _ _ => .finish
  | folded hword h =>
    -- The literal under the sign is not lowered.
    obtain ⟨_, _, _, -, hliteral, -⟩ := negatedLiteral_some hword
    refine .skip (plain_of_ungroup hliteral ⟨rfl, rfl⟩ rfl) (fun y hy hident => ?_)
      (.quiet (.load hs h) .finish)
    rw [ident_of_ungroup hliteral rfl y hy hident, hliteral] at hident
    cases hident
  | missing _ h => exact .converted ih hs hx (operand_ok h) fun _ _ => .finish
  | @emitted a kind s₁ _ h hkind =>
    have hadv := operand_advances ih hs h
    have hra : s₁.Holds a := hadv.holds a rfl
    exact .converted ih hs hx (operand_ok h) fun _ _ => .quiet (.computed hadv.sound
      (.negate (Advances.fresh_inFrame hadv.sound) (hra.mono (Nat.le_succ _))) _ _) .finish

theorem var_walk {name : String} {ty init : Option NodeId} (hid : id ∈ c.tree.preorder c.root)
    (hshape : c.tree.shape id = .var name ty init) (hs : s.Sound)
    (h : varRule c lower id init s = .ok (v, s')) :
    Walks c lower id (ty.toList ++ init.toList) [] vs s s' := by
  have hfits := hc.tree.fits id hid
  simp only [Tree.fits, hshape, Bool.and_eq_true, Option.all_eq_true] at hfits
  have hdecl : (c.tree.shape id).isDeclaration = true := by rw [hshape]; rfl
  refine .skipTypes hc (fun x hx => ⟨hc.tree.child hid ?_, hfits.1 x (Option.mem_toList.1 hx)⟩) ?_
  · rw [Tree.children_of_shape hshape]
    exact List.mem_append_left _ hx
  rcases varRule_ok h with ⟨i, rfl, hdeclare⟩ | ⟨rfl, -, -, rfl⟩ | ⟨r, rfl, -, -, hbind⟩
  · exact declare_walk ih hs (Shape.isItem_of_isExpr (hfits.2 i rfl)) hdecl hdeclare
  · exact .quiet (.withProblem hs (by simp)) .finish
  · have hfresh := Advances.allocated hs
    exact .quiet (.allocated hs) (bind_walk hfresh.sound (hfresh.holds _ rfl) hdecl hbind)

theorem assign_walk {target value : NodeId} (hid : id ∈ c.tree.preorder c.root)
    (hshape : c.tree.shape id = .assign target value) (hs : s.Sound)
    (h : AssignOutcome c lower id target value s s') :
    Walks c lower id [target, value] [target] vs s s' := by
  have hfits := hc.tree.fits id hid
  simp only [Tree.fits, hshape, Bool.and_eq_true] at hfits
  have hitem := Shape.isItem_of_isExpr hfits.2
  obtain ⟨hvariable, hkind⟩ := hc.hasKind_assign hid hshape
  refine .skipTarget hvariable (by simp [Tree.written, Shape.written, hshape]) ?_
  cases h with
  | missing h =>
    exact .visit hitem h
      (.miss (fun htarget => .inr ⟨value, .head _, hkind.trans htarget⟩) .finish)
  | stored hvalue hconvert h =>
    have hadv := ih _ _ _ _ hvalue hs
    have hconverted := convert_advances hadv.sound (hadv.holds _ rfl) hconvert
    exact .visit hitem hvalue (.quiet (.convert hadv.sound (hadv.holds _ rfl) hconvert)
      (store_walk hconverted.sound (hconverted.holds _ rfl) h .finish))

theorem parallel_walk {targets values : List NodeId} {staged : List (Option Register)}
    (hid : id ∈ c.tree.preorder c.root) (hshape : c.tree.shape id = .parallel targets values)
    (hs : s.Sound) (hstages : StagesOutcome c lower values s staged s₁)
    (hstores : StoresOutcome c (targets.zip (values.zip staged)) s₁ s') :
    Walks c lower id (targets ++ values) targets [] s s' := by
  have hfits := hc.tree.fits id hid
  simp only [Tree.fits, hshape, Bool.and_eq_true, List.all_eq_true] at hfits
  have hpairs := hc.hasKind_parallel hid hshape
  have hlength : targets.length = values.length := hc.length_parallel hid hshape
  obtain ⟨hadv, hholds⟩ := stages_advances ih hs hstages
  -- Targets and values go in pairs, none is left over.
  have htargets : (targets.zip (values.zip staged)).map Prod.fst = targets :=
    List.map_fst_zip (by rw [List.length_zip, hstages.length]; omega)
  -- The targets are names: they are written, and nothing below them is lowered.
  refine .skipTargets (fun x hx => hc.isVariable_parallel hid hshape hx)
    (fun x hx => by simpa [Tree.written, Shape.written, hshape] using hx) ?_
  refine stages_walk ih hs (fun x hx => Shape.isItem_of_isExpr (hfits.2 x hx)) hstages
    fun vs hmissing _ => ?_
  have hwalk : Walks c lower id [] ((targets.zip (values.zip staged)).map Prod.fst) vs s₁ s' :=
    stores_walk hadv.sound
      (fun triple hmem r hr => hholds r (hr ▸ (List.of_mem_zip (List.of_mem_zip hmem).2).2))
      (fun triple hmem hnone hkind => ?_) hstores
  · rwa [htargets] at hwalk
  · -- A target is left out only where its value has no register, and the walk remembers that one.
    obtain ⟨target, value, u⟩ := triple
    obtain rfl : u = none := hnone
    refine .inr ⟨value, hmissing value (List.of_mem_zip hmem).2, ?_⟩
    obtain ⟨n, hn, hget⟩ := List.getElem_of_mem hmem
    simp only [List.length_zip, Nat.lt_min] at hn
    simp only [List.getElem_zip, Prod.mk.injEq] at hget
    have hpair : (target, value) ∈ targets.zip values :=
      List.mem_iff_getElem.2 ⟨n, by rw [List.length_zip]; omega, by simp [hget]⟩
    exact (hpairs _ hpair).2.trans hkind

omit ih in
/-- Nothing is lowered below what has no code. -/
theorem inert_walk (hid : id ∈ c.tree.preorder c.root) (hinert : (c.tree.shape id).isInert = true)
    (hxs : ∀ x ∈ xs, x ∈ c.tree.children id) : Walks c lower id xs [] vs s s := by
  have hbelow := hc.isInert_below hid hinert
  induction xs with
  | nil => exact .finish
  | cons x xs ihxs =>
    have hx := hxs x (.head _)
    exact .skipInert hc (hc.tree.child hid hx) (hbelow x (c.tree.child_mem_preorder hx))
      (ihxs fun y hy => hxs y (.tail _ hy))

/-! ### All shapes -/

/-- **Every rule takes a turn.** -/
theorem rule_turn (hid : id ∈ c.tree.preorder c.root) (hs : s.Sound)
    (h : RuleOutcome c lower id s (c.tree.shape id) v s') : Turn c lower id s s' := by
  have hfits := hc.tree.fits id hid
  have hchild : ∀ x ∈ (c.tree.shape id).children, x ∈ c.tree.preorder c.root :=
    fun x hx => hc.tree.child hid hx
  unfold Tree.fits at hfits
  generalize hshape : c.tree.shape id = shape at h hfits hchild
  -- All but names and procedures take a walk over their children.
  have turn (hident : shape.isIdent = false) (hprocedure : shape.isProcedure = false)
      (hwalk : Walks c lower id shape.children (shape.written c.tree) [] s s') :
      Turn c lower id s s' := by
    subst hshape
    exact .node hident hprocedure hwalk
  cases h with
  | module h | block h => exact turn rfl rfl (items_walk ih hs (List.all_eq_true.1 hfits) h)
  | constant h =>
    exact turn rfl rfl
      (declare_walk ih hs (Shape.isItem_of_isExpr hfits) (by rw [hshape]; rfl) h)
  | var h => exact turn rfl rfl (var_walk hc ih hid hshape hs h)
  | procedure h =>
    cases h with
    | untyped hbody =>
      exact .procedure hshape hbody (.refl (ih _ _ _ _ hbody (entered_sound hs)).sound)
    | typed hbody hlast =>
      exact .procedure hshape hbody
        (.convertLast (ih _ _ _ _ hbody (entered_sound hs)).sound hlast)
  | exprStmt h | group h =>
    exact turn rfl rfl (.visit (Shape.isItem_of_isExpr hfits) h .finish)
  | assign h => exact turn rfl rfl (assign_walk hc ih hid hshape hs h)
  | parallel hstages hstores =>
    exact turn rfl rfl (parallel_walk hc ih hid hshape hs hstages hstores)
  | ret h =>
    exact turn rfl rfl (return_walk ih hs
      (fun x hx => Shape.isItem_of_isExpr ((Option.all_eq_true _ _).1 hfits x hx)) h)
  | literal h => exact turn rfl rfl (.quiet (.literalRule hs h) .finish)
  | ident hdecl h => exact .ident hshape hdecl h
  | binary hop _ h =>
    simp only [Bool.and_eq_true] at hfits
    exact turn rfl rfl (binary_walk hc ih hs (hchild _ (by simp [Shape.children]))
      (by rw [hop]; rfl) (Shape.isItem_of_isExpr hfits.1.1) (Shape.isItem_of_isExpr hfits.2) h)
  | signed hop h =>
    simp only [Bool.and_eq_true] at hfits
    exact turn rfl rfl (signed_walk hc ih hs (hchild _ (by simp [Shape.children]))
      (by rw [hop]; rfl) (Shape.isItem_of_isExpr hfits.2) h)
  | call hcallee h =>
    have hadv := ih _ _ _ _ hcallee hs
    exact turn rfl rfl (.visit (Shape.isItem_of_isExpr hfits) hcallee
      (.quiet (.call hadv.sound h) .finish))
  | @cast expr ty _ _ h =>
    simp only [Bool.and_eq_true] at hfits
    -- The type that is named stands beside the operand, and it is skipped.
    have hskip {vs : List (NodeId × Option Register)} : Walks c lower id ([ty] ++ []) [] vs s' s' :=
      .skipTypes hc (fun x hx => by
        obtain rfl := List.mem_singleton.1 hx
        exact ⟨hchild x (by simp [Shape.children]), hfits.2⟩) .finish
    exact turn rfl rfl (.converted ih hs (Shape.isItem_of_isExpr hfits.1) (castRule_ok h)
      fun _ _ => hskip)
  | native h =>
    have hwalk := native_walk hc ih hid hshape hs h
    unfold Tree.written at hwalk
    rw [hshape] at hwalk
    exact turn rfl rfl hwalk
  | @slot target _ _ _ h =>
    have hident : (c.tree.shape target).isIdent = true := hfits
    have hitem : (c.tree.shape target).isItem = true := by
      cases htarget : c.tree.shape target <;> rw [htarget] at hident <;>
        first | rfl | cases hident
    exact turn rfl rfl (.visit hitem h .finish)
  -- What is left has nothing to lower below it.
  | struct | field | enum | variant | binaryOp | signOp | typeName | array =>
    refine turn rfl rfl (inert_walk hc hid (by rw [hshape]; rfl) fun x hx => ?_)
    rwa [Tree.children_of_shape hshape]

end Rules

/-- Induction along lowering, turn by turn. -/
theorem node_turn_induction {c : LowerContext} (hc : c.Sound)
    {motive : NodeId → Lowering → Option Register → Lowering → Prop}
    (step : ∀ (lower : NodeId → Lower (Option Register)) (id : NodeId),
      (∀ (x : NodeId) (s s' : Lowering) (v : Option Register), lower x s = .ok (v, s') →
        node c x s = .ok (v, s')
          ∧ (x ∈ c.tree.preorder c.root → s.Sound → motive x s v s')) →
      ∀ (s s' : Lowering) (v : Option Register), id ∈ c.tree.preorder c.root → s.Sound →
        Turn c lower id s s' → motive id s v s')
    {id : NodeId} {s s' : Lowering} {v : Option Register} (hid : id ∈ c.tree.preorder c.root)
    (hs : s.Sound) (h : node c id s = .ok (v, s')) : motive id s v s' :=
  node_induction (motive := fun x s v s' => x ∈ c.tree.preorder c.root → s.Sound → motive x s v s')
    (fun lower id ih s s' v houtcome hid hs =>
      step lower id (fun x s s' v hx => (ih x s s' v hx).2) s s' v hid hs
        (rule_turn hc (fun x s s' v hx hs => node_advances hs (ih x s s' v hx).2.1) hid hs
        houtcome))
    h hid hs

end Lower

end MiddleEnd
