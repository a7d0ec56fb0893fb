import MiddleEnd.Proofs.Lowering.Hosts
import MiddleEnd.Proofs.Lowering.Respects

/-!
# Isolated frames

The registers of a procedure are its own.  In a program that was generated without problems every
name whose type has a kind refers to a declaration of its own procedure, or to a constant that is a
literal, which is loaded again.  A declaration without an owner is passed over in silence where it
is used; that nothing is lost thereby is what is proved here.

## Main definitions

* `Tree.IsWritten` — a name that something is stored to.
* `Lowering.Settles` — a name has been found to belong to the procedure of its declaration, or to
  stand for a literal.

## Main results

* `Lower.node_settles` — all names below a node that is lowered without a problem are settled.
* `Generated.isolated` — **frames are isolated**, and only names of other procedures are refused as
  such.
-/

namespace MiddleEnd

open Runs Lowering

/-- A name that some node stores to. -/
def Tree.IsWritten (t : Tree) (root ident : NodeId) : Prop :=
  ∃ x ∈ t.preorder root, ∃ target ∈ t.written x, t.ungroup target = ident

/-! ### Names and what is known of them -/

section Served

variable {t : Tree} {r : Resolution} {done : NodeId → Prop} {x y : NodeId} {xs : List NodeId}
  {name : String}

/-- The names below siblings, if those below each of them are known. -/
theorem Resolution.ServedAll.ident_of
    (ih : ∀ x ∈ xs, ∀ done, Served t r done x → ∀ y ∈ t.preorder x, t.shape y = .ident name →
      ∃ d, r.declaration? y = some d
        ∧ (done d ∨ t.namesProcedure d = true ∨ d ∈ t.preorder x))
    (h : ServedAll t r done xs) (hy : y ∈ xs.flatMap t.preorder) (hname : t.shape y = .ident name) :
    ∃ d, r.declaration? y = some d
      ∧ (done d ∨ t.namesProcedure d = true ∨ d ∈ xs.flatMap t.preorder) := by
  induction xs generalizing done with
  | nil => cases hy
  | cons x xs ihxs =>
    cases h with
    | cons h hrest =>
      rw [List.flatMap_cons, List.mem_append] at hy
      rcases hy with hy | hy
      · obtain ⟨d, hd, hdone⟩ := ih x (.head _) _ h y hy hname
        exact ⟨d, hd, hdone.imp_right (.imp_right (List.mem_append_left _))⟩
      · obtain ⟨d, hd, hdone⟩ := ihxs (fun x hx => ih x (.tail _ hx)) hrest hy
        refine ⟨d, hd, ?_⟩
        rcases hdone with (hdone | hmem) | hprocedure | hmem
        · exact .inl hdone
        · exact .inr (.inr (List.mem_append_left _ hmem))
        · exact .inr (.inl hprocedure)
        · exact .inr (.inr (List.mem_append_right _ hmem))

/-- A name is bound to a declaration that is done, to a procedure, or to what is below as well. -/
theorem Resolution.Served.ident (h : Served t r done x) (hy : y ∈ t.preorder x)
    (hname : t.shape y = .ident name) : ∃ d, r.declaration? y = some d
      ∧ (done d ∨ t.namesProcedure d = true ∨ d ∈ t.preorder x) := by
  induction x using Nat.strongRecOn generalizing done y with
  | ind x ih =>
    cases h with
    | node hident hchildren =>
      rcases t.mem_preorder.1 hy with rfl | ⟨z, hz, hy⟩
      · obtain ⟨d, hd, hdone⟩ := hident name hname
        exact ⟨d, hd, hdone.imp_right .inl⟩
      · obtain ⟨d, hd, hdone⟩ := hchildren.ident_of
          (fun z hz _ h y hy hname => ih z (t.child_lt hz) h hy hname)
          (List.mem_flatMap.2 ⟨z, hz, hy⟩) hname
        refine ⟨d, hd, hdone.imp_right (.imp_right fun hmem => ?_)⟩
        obtain ⟨w, hw, hmem⟩ := List.mem_flatMap.1 hmem
        exact t.mem_preorder_of_child hw hmem

end Served

theorem Resolution.ServedAll.left {t : Tree} {r : Resolution} {done : NodeId → Prop}
    {xs ys : List NodeId} (h : ServedAll t r done (xs ++ ys)) : ServedAll t r done xs := by
  induction xs generalizing done with
  | nil => exact .nil
  | cons x xs ih =>
    cases h with
    | cons h hrest => exact .cons h (ih hrest)

section Known

variable {c : LowerContext} (hc : c.Sound) {id target d : NodeId} {s : Lowering}
  {done : NodeId → Prop}
include hc

/-- The targets of a node are listed before anything below it that declares something. -/
theorem LowerContext.Sound.written_prefix (hid : id ∈ c.tree.preorder c.root)
    (htarget : target ∈ c.tree.written id) : ∃ before after,
      c.tree.children id = before ++ after
        ∧ (∀ y ∈ before.flatMap c.tree.preorder, c.tree.IsPlain y)
        ∧ c.tree.ungroup target ∈ before.flatMap c.tree.preorder := by
  have hvariable := (hc.written hid htarget).1
  unfold Tree.written at htarget
  -- Only assignments and native code write to anything.
  cases hshape : c.tree.shape id <;> rw [hshape] at htarget <;>
    first | (cases htarget; done) | skip
  case assign target' value =>
    obtain rfl := List.mem_singleton.1 htarget
    refine ⟨[target], [value], Tree.children_of_shape hshape, ?_, ?_⟩
    · simpa using plain_of_isVariable hvariable
    · simpa using c.tree.ungroup_mem_preorder target
  case parallel targets values =>
    refine ⟨targets, values, Tree.children_of_shape hshape, fun y hy => ?_,
      List.mem_flatMap.2 ⟨target, htarget, c.tree.ungroup_mem_preorder target⟩⟩
    obtain ⟨x, hx, hy⟩ := List.mem_flatMap.1 hy
    exact plain_of_isVariable (hc.isVariable_parallel hid hshape hx) y hy
  case native source inputs output =>
    cases output with
    | none => cases htarget
    | some output =>
      have hchildren : c.tree.children id = inputs ++ [output] := Tree.children_of_shape hshape
      have hfits := hc.tree.fits id hid
      simp only [Tree.fits, hshape, Bool.and_eq_true, List.all_eq_true, Option.all_some] at hfits
      -- The output comes last, but slots declare nothing, so all of them count as targets.
      refine ⟨inputs ++ [output], [], by simpa using hchildren, fun y hy => ?_, ?_⟩
      · obtain ⟨x, hx, hy⟩ := List.mem_flatMap.1 hy
        have hslot : (c.tree.shape x).isSlot = true := by
          rcases List.mem_append.1 hx with hx | hx
          · exact hfits.1 x hx
          · exact List.mem_singleton.1 hx ▸ hfits.2
        obtain ⟨_, _, _, -, -, hplain⟩ :=
          Lower.plain_of_isSlot hc (hc.tree.child hid (hchildren ▸ hx)) hslot
        exact hplain y hy
      · cases hslot : c.tree.shape output <;> simp only [Shape.written, hslot] at htarget <;>
          first | (cases htarget; done) | skip
        next target' offset =>
        obtain rfl := List.mem_singleton.1 htarget
        refine List.mem_flatMap.2 ⟨output, by simp, ?_⟩
        exact c.tree.mem_preorder_of_child
          (by simp [Tree.children_of_shape hslot, Shape.children])
          (c.tree.ungroup_mem_preorder target)

/-- A variable that is stored to has been declared before. -/
theorem Lowering.Before.target_done (h : Before c done [id] s)
    (htarget : target ∈ c.tree.written id)
    (hd : c.resolution.declaration? (c.tree.ungroup target) = some d) : done d := by
  have hid := h.inTree id (.head _)
  obtain ⟨before, after, hchildren, hplain, hmem⟩ := hc.written_prefix hid htarget
  obtain ⟨d', _, _, _, hd', hvar, name, hname⟩ := (hc.written hid htarget).1
  obtain rfl := Option.some.inj (hd.symm.trans hd')
  have hvar : c.tree.shape d = _ := hvar
  cases h.served with
  | cons hserved _ =>
    cases hserved with
    | node _ hserved =>
      rw [hchildren] at hserved
      obtain ⟨d', hd', hdone⟩ := hserved.left.ident_of
        (fun _ _ _ h _ hy hname => h.ident hy hname) hmem hname
      obtain rfl := Option.some.inj (hd.symm.trans hd')
      rcases hdone with hdone | hprocedure | hbelow
      · exact hdone
      · simp [Tree.namesProcedure, hvar] at hprocedure
      · have hdeclares := (hplain d hbelow).1
        rw [hvar] at hdeclares
        cases hdeclares

end Known

/-! ### Settled names -/

namespace Lowering

/-- A name has been found to belong to the procedure that owns its declaration, or to stand for a
literal, if its type has a kind. -/
def Settles (c : LowerContext) (s : Lowering) (y : NodeId) : Prop :=
  (c.tree.shape y).isIdent = true → (c.typeOf y).hasKind = true →
    ∃ d, c.resolution.declaration? y = some d
      ∧ ((Lower.literalConstant? c.tree d).isSome = true
        ∨ ∃ j, s.ownerOf[d]? = some j ∧ c.host? s.procedureOf y = some j)

variable {c : LowerContext} {s s' : Lowering} {y : NodeId}

/-- What is settled stays so while owners and procedures are kept. -/
theorem Settles.mono (h : s.Settles c y)
    (howners : ∀ (d : NodeId) (j : Nat), s.ownerOf[d]? = some j → s'.ownerOf[d]? = some j)
    (htargets : ∀ (q : NodeId) (j : Nat), s.procedureOf[q]? = some j →
      s'.procedureOf[q]? = some j) : s'.Settles c y := by
  intro hident hkind
  obtain ⟨d, hd, hsettled⟩ := h hident hkind
  refine ⟨d, hd, hsettled.imp_right ?_⟩
  rintro ⟨j, hj, hhost⟩
  exact ⟨j, howners d j hj, c.host?_congr hhost htargets⟩

theorem Settles.keeps (h : s.Settles c y) (hs : s.Keeps s') : s'.Settles c y :=
  h.mono (fun d j hj => by rw [hs.owners, hj]) fun q j hj => by rw [hs.procedures, hj]

/-- A subtree that comes later has no owners yet. -/
theorem Settles.passed {ℓ : Linkage} {done : NodeId → Prop} {x : NodeId} {xs : List NodeId}
    (h : s.Settles c y) (hx : Before c done (x :: xs) s)
    (hpassed : Passed c ℓ (· ∈ c.tree.preorder x) s s') : s'.Settles c y := by
  refine h.mono (fun d j hj => ?_) hpassed.targets
  rw [hpassed.owners d fun hmem => ?_, hj]
  rw [(hx.fresh d (List.mem_append_left _ hmem)).1] at hj
  cases hj

end Lowering

namespace Lower

/-! ### Turns -/

section Turns

variable {c : LowerContext} {lower : NodeId → Lower (Option Register)} {id : NodeId}
  {xs ws : List NodeId} {vs : List (NodeId × Option Register)} {s s' : Lowering}
  {done : NodeId → Prop} (hc : c.Sound)

/-- What is known where a walk goes on: the declarations of all targets are done, and no value has
been missing so far. -/
structure Walking (c : LowerContext) (id : NodeId) (done : NodeId → Prop) (xs ws : List NodeId)
    (vs : List (NodeId × Option Register)) (s : Lowering) : Prop extends
    Hosting c id xs ws s where
  /-- What is bound before the subtrees that come next is done. -/
  before : Before c done xs s
  /-- The node has no owner yet. -/
  unowned : s.ownerOf[id]? = none
  /-- The node is not below the subtrees that come next. -/
  apart : id ∉ xs.flatMap c.tree.preorder
  /-- What the node writes to has been declared before. -/
  known : ∀ target ∈ c.tree.written id, ∀ d,
    c.resolution.declaration? (c.tree.ungroup target) = some d → done d
  /-- No value has been missing so far. -/
  values : ∀ x v, (x, v) ∈ vs → (c.typeOf x).hasKind = true → v.isSome = true

/-- The names below `xs` are settled, except for targets of `id`, and so are the targets `ws`. -/
structure SettlesAll (c : LowerContext) (id : NodeId) (xs ws : List NodeId) (s s' : Lowering) :
    Prop where
  /-- What was settled still is. -/
  keeps : ∀ y, s.Settles c y → s'.Settles c y
  /-- The names below are settled, unless they are targets. -/
  below : ∀ y ∈ xs.flatMap c.tree.preorder, s'.Settles c y
    ∨ ∃ target ∈ c.tree.written id, y = c.tree.ungroup target
  /-- The names of the targets are settled. -/
  written : ∀ target ∈ ws, s'.Settles c (c.tree.ungroup target)

namespace Walking

variable {x y target decl : NodeId} {s₁ : Lowering} {v : Option Register} {ℓ : Linkage}

omit hc in
theorem not_gap (h : Walking c id done xs ws vs s) (hp : s.problems = #[]) : ¬Gap c vs s := by
  rintro (hne | ⟨x, hx, hkind⟩)
  · exact hne hp
  · exact absurd (h.values x none hx hkind) (by simp)

omit hc in
theorem quiet (h : Walking c id done xs ws vs s) (hs : s.Quiet s₁) :
    Walking c id done xs ws vs s₁ where
  toHosting := h.toHosting.quiet hs
  before := h.before.keeps hs.toKeeps
  unowned := by rw [hs.owners, h.unowned]
  apart := h.apart
  known := h.known
  values := h.values

omit hc in
theorem skip (h : Walking c id done (x :: xs) ws vs s)
    (hplain : ∀ y ∈ c.tree.preorder x, c.tree.IsPlain y) :
    Walking c id (fun d => done d ∨ d ∈ c.tree.preorder x) xs ws vs s where
  toHosting := h.toHosting.skip
  before := h.before.skip hplain
  unowned := h.unowned
  apart hmem := h.apart (List.mem_append_right _ hmem)
  known target htarget d hd := .inl (h.known target htarget d hd)
  values := h.values

omit hc in
/-- The first part has been lowered, or what stands in it. -/
theorem next (h : Walking c id done (x :: xs) ws vs s)
    (hpassed : Passed c ℓ (· ∈ c.tree.preorder x) s s₁) (hpasses : Passes c [x] s s₁)
    (hv : (c.typeOf y).hasKind = true → v.isSome = true) :
    Walking c id (fun d => done d ∨ d ∈ c.tree.preorder x) xs ws ((y, v) :: vs) s₁ where
  toHosting := h.toHosting.next hpasses
  before := h.before.next hpassed
  unowned := by
    rw [hpassed.owners id fun hmem => h.apart (List.mem_append_left _ hmem), h.unowned]
  apart hmem := h.apart (List.mem_append_right _ hmem)
  known target htarget d hd := .inl (h.known target htarget d hd)
  values z w hmem hkind := by
    rcases List.mem_cons.1 hmem with heq | hmem
    · obtain ⟨rfl, rfl⟩ := Prod.mk.inj heq
      exact hv hkind
    · exact h.values z w hmem hkind

omit hc in
theorem miss (h : Walking c id done xs (target :: ws) vs s) : Walking c id done xs ws vs s :=
  { h with toHosting := h.toHosting.miss }

include hc in
/-- A target whose type has a kind is owned, and it is settled unless it is refused. -/
theorem settles (h : Walking c id done [] (target :: ws) vs s)
    (hid : id ∈ c.tree.preorder c.root)
    (hdecl : c.resolution.declaration? (c.tree.ungroup target) = some decl)
    (hown : ∀ j, s.ownerOf[decl]? = some j → j = s.frame.index) :
    s.Settles c (c.tree.ungroup target) := by
  have htarget := h.targets target (.head _)
  obtain ⟨⟨decl', _, _, _, hdecl', hvar, name, hname⟩, hmem, haround⟩ := hc.written hid htarget
  obtain rfl := Option.some.inj (hdecl.symm.trans hdecl')
  intro _ hkind
  have hdeclares : (c.tree.shape decl).isDeclaration = true := by
    rw [show c.tree.shape decl = _ from hvar]
    rfl
  have hknows := h.before.knows decl (h.known target htarget decl hdecl) hdeclares
  have hmem := c.tree.mem_preorder_trans hmem (c.tree.ungroup_mem_preorder target)
  have howned := hknows.kinded (by rwa [← hc.typeOf_ident hmem hname hdecl])
  obtain ⟨j, hj⟩ := Option.isSome_iff_exists.1 howned
  refine ⟨decl, hdecl, .inr ⟨j, hj, ?_⟩⟩
  obtain rfl := hown j hj
  exact (c.host?_eq haround).trans h.self

end Walking

/-- What is known of the names below a part that has been lowered. -/
def SettlesBelow (c : LowerContext) (lower : NodeId → Lower (Option Register)) : Prop :=
  ∀ (x : NodeId) (s s' : Lowering) (v : Option Register), lower x s = .ok (v, s') →
    node c x s = .ok (v, s')
      ∧ ∀ done, (c.tree.shape x).isItem = true → Before c done [x] s → s.Hosts c [x] →
        s.Housed c → s'.problems = #[] → ∀ y ∈ c.tree.preorder x, s'.Settles c y

variable (ih : SettlesBelow c lower)
include hc ih

/-- A part is lowered as it stands, or a slot as the name in it; then the rest is settled. -/
theorem Walking.cons {x y : NodeId} {s₁ : Lowering} {v : Option Register}
    (h : Walking c id done (x :: xs) ws vs s)
    (hpart : y = x ∨ ∃ offset, c.tree.shape x = .slot y offset)
    (hitem : (c.tree.shape y).isItem = true) (hy : lower y s = .ok (v, s₁))
    (hwalk : Walks c lower id xs ws ((y, v) :: vs) s₁ s')
    (hrest : Walking c id (fun d => done d ∨ d ∈ c.tree.preorder x) xs ws ((y, v) :: vs) s₁ →
      SettlesAll c id xs ws s₁ s')
    (hp : s'.problems = #[]) : SettlesAll c id (x :: xs) ws s s' := by
  have hbefore : Before c done [y] s := by
    obtain rfl | ⟨_, hshape⟩ := hpart
    · exact h.before.head
    · exact h.before.head.children hc hshape rfl
  have hhosts : s.Hosts c [y] := by
    obtain rfl | ⟨_, hshape⟩ := hpart
    · exact h.hosts.head
    · exact (h.target hc hshape).2
  have hsub : ∀ q ∈ c.tree.preorder y, q ∈ c.tree.preorder x := by
    obtain rfl | ⟨_, hshape⟩ := hpart
    · exact fun _ hq => hq
    · exact fun _ hq => c.tree.mem_preorder_of_child (h.target hc hshape).1 hq
  obtain ⟨hnode, hsettles⟩ := ih y s s₁ v hy
  -- What is lowered later adds problems only.
  have hpasses : Passes c [x] s s₁ :=
    (node_passes hc h.sound hhosts h.housed hnode).mono (by simpa using hsub)
  have hp₁ := (hwalk.advances hpasses.advances.sound fun z s s' v hz hs =>
    node_advances hs (ih z s s' v hz).1).grows.problems_eq hp
  have hlowered := node_lowered (ℓ := ⟨#[], #[], ∅⟩) hc hbefore hitem hnode hp₁
  have hpassed : Passed c ⟨#[], #[], ∅⟩ (· ∈ c.tree.preorder x) s s₁ := by
    obtain rfl | ⟨_, hshape⟩ := hpart
    · exact hlowered.passed
    · exact hlowered.passed.aroundOnly hshape ⟨rfl, rfl⟩ rfl
  have hall := hrest (h.next hpassed hpasses hlowered.kinded)
  refine ⟨fun z hz => hall.keeps z (hz.passed h.before hpassed), fun z hz => ?_, hall.written⟩
  rw [List.flatMap_cons, List.mem_append] at hz
  rcases hz with hz | hz
  · refine .inl (hall.keeps z ?_)
    obtain rfl | ⟨_, hshape⟩ := hpart
    · exact hsettles done hitem hbefore hhosts h.housed hp₁ z hz
    · rcases c.tree.mem_preorder.1 hz with rfl | ⟨w, hw, hz⟩
      · intro hident
        rw [hshape] at hident
        cases hident
      · rw [Tree.children_of_shape hshape] at hw
        obtain rfl := List.mem_singleton.1 hw
        exact hsettles done hitem hbefore hhosts h.housed hp₁ z hz
  · exact hall.below z hz

/-- **A walk without a problem settles the names that it comes across.** -/
theorem Walks.settles (hid : id ∈ c.tree.preorder c.root) (hwalk : Walks c lower id xs ws vs s s')
    (h : Walking c id done xs ws vs s) (hp : s'.problems = #[]) : SettlesAll c id xs ws s s' := by
  -- Nothing is refused on the way, or it would be a problem in the end.
  have problems {xs ws : List NodeId} {vs : List (NodeId × Option Register)} {s : Lowering}
      (hwalk : Walks c lower id xs ws vs s s') (hs : s.Sound) : s.problems = #[] :=
    (hwalk.advances hs fun z s s' v hz hs =>
      node_advances hs (ih z s s' v hz).1).grows.problems_eq hp
  induction hwalk generalizing done with
  | finish => exact ⟨fun _ h => h, fun y hy => (by cases hy), fun y hy => (by cases hy)⟩
  | quiet hquiet _ ihrest =>
    have hrest := ihrest (h.quiet hquiet) hp problems
    exact ⟨fun y hy => hrest.keeps y (hy.keeps hquiet.toKeeps), hrest.below, hrest.written⟩
  -- What is passed over has no names but targets, since no value has been missing.
  | @skip x xs _ _ s _ hplain hidents hwalk ihrest =>
    have hnext := h.skip hplain
    have hrest := ihrest hnext hp problems
    refine ⟨hrest.keeps, fun y hy => ?_, hrest.written⟩
    rw [List.flatMap_cons, List.mem_append] at hy
    rcases hy with hy | hy
    · by_cases hident : (c.tree.shape y).isIdent = true
      · exact .inr ((hidents y hy hident).resolve_right (hnext.not_gap (problems hwalk h.sound)))
      · exact .inl fun h => (hident h).elim
    · exact hrest.below y hy
  | visit hitem hx hwalk ihrest =>
    exact h.cons hc ih (.inl rfl) hitem hx hwalk (ihrest · hp problems) hp
  | @slot x target _ _ _ _ _ _ _ _ hslot hx hwalk ihrest =>
    obtain ⟨⟨name, hname⟩, -⟩ := slot_fits hc (h.before.inTree x (.head _)) hslot
    exact h.cons hc ih (.inr ⟨_, hslot⟩) (by rw [hname]; rfl) hx hwalk
      (ihrest · hp problems) hp
  | @write target decl _ _ _ s s₁ _ hdecl hplace hwalk ihrest =>
    -- What is refused leaves a problem.
    have hown : s₁ = s ∧ ∀ j, s.ownerOf[decl]? = some j → j = s.frame.index := by
      cases hplace with
      | unowned hnone => exact ⟨rfl, fun j hj => by rw [hnone] at hj; cases hj⟩
      | own howner => exact ⟨rfl, fun j hj => (Option.some.inj (howner.symm.trans hj)).symm⟩
      | outer howner hne =>
        have hp := problems hwalk (h.sound.withProblem _)
        simp [withProblem] at hp
    obtain ⟨rfl, hown⟩ := hown
    have hrest := ihrest h.miss hp problems
    refine ⟨hrest.keeps, fun y hy => (by cases hy), fun y hy => ?_⟩
    rcases List.mem_cons.1 hy with rfl | hy
    · exact hrest.keeps _ (h.settles hc hid hdecl hown)
    · exact hrest.written y hy
  -- A target is only left out where a value has been missing.
  | @miss target _ _ _ _ hgap hwalk ihrest =>
    have hrest := ihrest h.miss hp problems
    refine ⟨hrest.keeps, fun y hy => (by cases hy), fun y hy => ?_⟩
    rcases List.mem_cons.1 hy with rfl | hy
    · intro _ hkind
      rw [hc.typeOf_ungroup (hc.written hid (h.targets y (.head _))).2.1] at hkind
      exact (h.not_gap (problems hwalk h.sound) (hgap hkind)).elim
    · exact hrest.written y hy
  -- The node had no owner, so what was settled has kept its own.
  | @tie _ _ s hdecl hr =>
    refine ⟨fun y hy => hy.mono (fun d j hj => ?_) fun _ _ h => h, fun y hy => (by cases hy),
      fun y hy => (by cases hy)⟩
    show (s.ownerOf.insert id s.frame.index)[d]? = some j
    have hne : id ≠ d := by
      rintro rfl
      rw [h.unowned] at hj
      cases hj
    simp [Std.TreeMap.getElem?_insert, hne, hj]

omit ih in
/-- A name that is read without a problem is settled. -/
theorem ident_settles {name : String} {decl : NodeId} {v : Option Register}
    (hshape : c.tree.shape id = .ident name) (hdecl : c.resolution.declaration? id = some decl)
    (h : IdentOutcome c id decl s v s') (hbefore : Before c done [id] s) (hhosts : s.Hosts c [id])
    (hp : s'.problems = #[]) : s'.Settles c id := by
  have hs := hbefore.tracked.toSound
  have htypeOf := hc.typeOf_ident (hbefore.inTree id (.head _)) hshape hdecl
  intro _ hkind
  rw [htypeOf] at hkind
  refine ⟨decl, hdecl, ?_⟩
  cases h with
  | shape _ => simp [withProblem] at hp
  | procedure _ hty =>
    rw [hty] at hkind
    cases hkind
  | unowned _ hty howner =>
    have howned := (ident_known hc hshape hbefore hdecl hty).kinded hkind
    rw [howner] at howned
    cases howned
  | outer _ _ _ _ h =>
    rcases outerRule_ok h with ⟨x, lit, hlit, -⟩ | ⟨-, -, rfl⟩
    · exact .inl (by rw [hlit]; rfl)
    · simp [withProblem] at hp
  | own _ _ howner _ => exact .inr ⟨_, howner, hhosts.host id (.head _)⟩

/-- Below a procedure, its body holds all names. -/
theorem procedure_settles {result : Option NodeId} {body : NodeId} {v : Option Register}
    {s₁ s₂ : Lowering} (hshape : c.tree.shape id = .procedure result body)
    (hbody : lower body ((s.opened id (procedureName c id).1 (procedureName c id).2).inFrame
      ⟨s.program.procedures.size, result.map c.typeOf, ∅⟩) = .ok (v, s₁))
    (hlast : s₁.Quiet s₂) (hbefore : Before c done [id] s) (hhosts : s.Hosts c [id])
    (hhoused : s.Housed c) (hp : s₂.problems = #[]) :
    ∀ y ∈ c.tree.preorder id, (s₂.inFrame s.frame).Settles c y := by
  intro y hy hident
  have hid := hbefore.inTree id (.head _)
  have hfits := hc.tree.fits id hid
  simp only [Tree.fits, hshape, Bool.and_eq_true, Option.all_eq_true] at hfits
  rcases c.tree.mem_preorder.1 hy with rfl | ⟨x, hx, hy⟩
  · rw [hshape] at hident
    cases hident
  · rw [Tree.children_of_shape hshape] at hx
    rcases List.mem_append.1 hx with hx | hx
    · -- There are no names in types.
      have hmem : x ∈ c.tree.preorder c.root :=
        hc.tree.child hid (by rw [Tree.children_of_shape hshape]; exact List.mem_append_left _ hx)
      have htype := hfits.1 x (Option.mem_toList.1 hx)
      have hinert : (c.tree.shape x).isInert = true := by
        cases hshape : c.tree.shape x <;> rw [hshape] at htype <;> first | rfl | cases htype
      have hinert := hc.isInert_below hmem hinert y hy
      cases hshape : c.tree.shape y <;> rw [hshape] at hinert hident <;>
        first | (cases hinert; done) | cases hident
    · obtain rfl := List.mem_singleton.1 hx
      obtain ⟨_, hbefore₀⟩ := body_before hc hshape hbefore (procedureName c id).1
        (procedureName c id).2
      obtain ⟨hhosts₀, hhoused₀⟩ := Hosts.enter hc hshape hbefore.tracked.toSound hhosts hhoused
        (procedureName c id).1 (procedureName c id).2 (result.map c.typeOf)
      have hsettles := (ih _ _ _ _ hbody).2 _ (hc.tree.isItem_body hid hshape) hbefore₀ hhosts₀
        hhoused₀ (hlast.grows.problems_eq hp) y hy
      exact (hsettles.keeps hlast.toKeeps) hident

omit ih in
theorem Walking.start (hbefore : Before c done [id] s) (hhosts : s.Hosts c [id])
    (hhoused : s.Housed c) (hprocedure : (c.tree.shape id).isProcedure = false) :
    Walking c id done (c.tree.children id) (c.tree.written id) [] s where
  toHosting := .start hc hbefore.tracked.toSound hhosts hhoused hprocedure
  before := hbefore.children hc rfl hprocedure
  unowned := (hbefore.fresh id (by simp [c.tree.self_mem_preorder])).1
  apart hmem := by
    obtain ⟨x, hx, hmem⟩ := List.mem_flatMap.1 hmem
    exact Nat.not_le_of_lt (c.tree.child_lt hx) (c.tree.le_of_mem_preorder hmem)
  known target htarget d hd := hbefore.target_done hc htarget hd
  values x v hmem := by cases hmem

end Turns

/-- **All names below a node that is lowered without a problem are settled.** -/
theorem node_settles {c : LowerContext} (hc : c.Sound) {id : NodeId} {s s' : Lowering}
    {v : Option Register} {done : NodeId → Prop} (hitem : (c.tree.shape id).isItem = true)
    (hbefore : Before c done [id] s) (hhosts : s.Hosts c [id]) (hhoused : s.Housed c)
    (h : node c id s = .ok (v, s')) (hp : s'.problems = #[]) :
    ∀ y ∈ c.tree.preorder id, s'.Settles c y := by
  -- By the number of the node, along the turn that it takes.
  refine node_turn_induction hc
    (motive := fun x s _ s' => ∀ done, (c.tree.shape x).isItem = true → Before c done [x] s →
      s.Hosts c [x] → s.Housed c → s'.problems = #[] → ∀ y ∈ c.tree.preorder x, s'.Settles c y)
    (fun lower id ih s s' v hid hs hturn done hitem hbefore hhosts hhoused hp => ?_)
    (hhosts.inTree id (.head _)) hbefore.tracked.toSound h done hitem hbefore hhosts hhoused hp
  have ih : SettlesBelow c lower := fun x s s' v hx => by
    refine ⟨(ih x s s' v hx).1, fun done hitem hbefore hhosts hhoused hp => ?_⟩
    exact (ih x s s' v hx).2 (hhosts.inTree x (.head _)) hbefore.tracked.toSound done hitem hbefore
      hhosts hhoused hp
  cases hturn with
  | ident hshape hdecl h =>
    intro y hy
    rw [c.tree.preorder_eq, Tree.children_of_shape hshape] at hy
    obtain rfl := List.mem_singleton.1 hy
    exact ident_settles hc hshape hdecl h hbefore hhosts hp
  | procedure hshape hbody hlast =>
    exact procedure_settles hc ih hshape hbody hlast hbefore hhosts hhoused hp
  | node hident hprocedure hwalk =>
    have hall := hwalk.settles hc ih hid (.start hc hbefore hhosts hhoused hprocedure) hp
    intro y hy
    -- Below the node every name is settled on the way or as a target.
    rcases c.tree.mem_preorder.1 hy with rfl | ⟨x, hx, hy⟩
    · intro h
      rw [hident] at h
      cases h
    · obtain hsettled | ⟨target, htarget, rfl⟩ :=
        hall.below y (List.mem_flatMap.2 ⟨x, hx, hy⟩)
      · exact hsettled
      · exact hall.written target htarget

end Lower

/-! ### Programs -/

/-- The frames of a program are isolated. -/
structure Isolated (c : LowerContext) (ℓ : Linkage) (P : Program) : Prop extends
    Implements c ℓ P where
  /-- A name belongs to the procedure of its declaration, or is read from a literal. -/
  idents : ∀ y ∈ c.tree.preorder c.root, (c.tree.shape y).isIdent = true →
    (c.typeOf y).hasKind = true → ∃ d, c.resolution.declaration? y = some d
      ∧ (c.around? y = c.around? d
        ∨ (Lower.literalConstant? c.tree d).isSome = true ∧ ¬c.tree.IsWritten c.root y)
  /-- A declaration has a register in its own procedure. -/
  registers : ∀ d ∈ c.tree.preorder c.root, (c.tree.shape d).isDeclaration = true →
    (c.typeOf d).hasKind = true → ∃ j p r, c.host? ℓ.targets d = some j
      ∧ P.procedures[j]? = some p ∧ p.registers[d]? = some r

/-- What is stored to is no literal. -/
theorem LowerContext.Sound.not_isWritten {c : LowerContext} (hc : c.Sound) {y d : NodeId}
    (hd : c.resolution.declaration? y = some d)
    (hlit : (Lower.literalConstant? c.tree d).isSome = true) : ¬c.tree.IsWritten c.root y := by
  rintro ⟨x, hx, target, htarget, rfl⟩
  obtain ⟨d', _, _, _, hd', hvar, -⟩ := (hc.written hx htarget).1
  obtain rfl := Option.some.inj (hd.symm.trans hd')
  unfold Lower.literalConstant? at hlit
  rw [show c.tree.shape d = _ from hvar] at hlit
  cases hlit

/-- **Names belong to the procedures of their declarations**, or are read from literals. -/
theorem Lowering.idents_of_node {c : LowerContext} (hc : c.Sound) {v : Option Register}
    {s : Lowering}
    (hnode : Lower.node c c.root Lowering.start = .ok (v, s)) (hp : s.problems = #[]) {y : NodeId}
    (hy : y ∈ c.tree.preorder c.root) (hident : (c.tree.shape y).isIdent = true)
    (hkind : (c.typeOf y).hasKind = true) : ∃ d, c.resolution.declaration? y = some d
      ∧ (c.around? y = c.around? d
        ∨ (Lower.literalConstant? c.tree d).isSome = true ∧ ¬c.tree.IsWritten c.root y) := by
  have hhoused := (Lower.node_passes hc Sound.start (.start hc) .start hnode).housed
  obtain ⟨d, hd, hsettled⟩ :=
    Lower.node_settles hc hc.tree.isItem_root (.start hc) (.start hc) .start
    hnode hp y hy hident hkind
  refine ⟨d, hd, ?_⟩
  rcases hsettled with hlit | ⟨j, hj, hhost⟩
  · exact .inr ⟨hlit, hc.not_isWritten hd hlit⟩
  · exact .inl (hhoused.around?_eq hhost (hhoused.owners d j hj))

/-- The program of a state in which the root has been lowered without problems is isolated. -/
theorem Lowering.isolated_of_node {c : LowerContext} (hc : c.Sound)
    (hexact : Resolution.Exact c.tree c.root [] [] c.resolution) {v : Option Register}
    {s : Lowering} (hnode : Lower.node c c.root Lowering.start = .ok (v, s))
    (hp : s.problems = #[]) : Isolated c s.linkage s.program := by
  have hitem := hc.tree.isItem_root
  have hhoused := (Lower.node_passes hc Sound.start (.start hc) .start hnode).housed
  refine ⟨Lowering.implements hc hnode hp, fun y hy => Lowering.idents_of_node hc hnode hp hy,
    fun d hd hdecl hkind => ?_⟩
  have hlowered := Lower.node_lowered (ℓ := s.linkage) hc (Before.start hc) hitem hnode hp
  obtain ⟨j, hj⟩ := Option.isSome_iff_exists.1 ((hlowered.passed.knows d hd hdecl).kinded hkind)
  have hawaits : s.Awaits c 1 [] := (Lower.node_arrives hc hexact .start).of_ok hnode
  obtain ⟨p, r, hp, hr⟩ := hawaits.owned d j hj
  exact ⟨j, p, r, hhoused.owners d j hj, hp, hr⟩

/-- A capture is reported where the name stands. -/
theorem LoweringProblem.capture_of_text {t : Tree} {p : LoweringProblem}
    (h : (p.diagnostic t).cause.text = "E3010") : ∃ ident decl, p = .capture ident decl := by
  cases p with
  | unsupported => exact absurd h (by decide : Cause.text .unsupported ≠ "E3010")
  | nativeInputs => exact absurd h (by decide : Cause.text .nativeInputs ≠ "E3010")
  | capture ident decl => exact ⟨ident, decl, rfl⟩

/-- **Frames are isolated between procedures.**  If a tree without errors of names and types is
lowered without problems, each name whose type has a kind belongs to the procedure of its
declaration or is read from a literal, and each declaration of such a type has a register in its own
procedure.  And whatever is reported, a name is refused as one of another procedure only if it is
one that stands for no literal. -/
theorem Generated.isolated {t : Tree} {links : Links} {root : NodeId} {a : Analysis} {limit : Nat}
    {g : Generated} (ht : t.WellFormed root) (hsize : root < links.size)
    (ha : Analysis.ofTree t links root = .ok a) (hmissing : a.resolution.missing = [])
    (hproblems : a.typing.problems = #[])
    (hg : Generated.ofTree t a.links root a.resolution a.typing limit = .ok g) :
    (g.problems = [] → ∃ ℓ, Isolated (a.lowerContext t root limit) ℓ g.program)
      ∧ ∀ d ∈ g.diagnostics t, d.cause.text = "E3010" →
        ∃ ident decl, (a.lowerContext t root limit).Captured ident decl
          ∧ d.primarySpan? = some (t.span ident) := by
  have hc : (a.lowerContext t root limit).Sound :=
    ⟨ht, Analysis.sound_of_ofTree ht ha hmissing hproblems⟩
  obtain ⟨v, s, hnode, rfl⟩ := Generated.ofTree_ok hg
  refine ⟨fun hp =>
    ⟨s.linkage, Lowering.isolated_of_node hc (Analysis.exact_of_ofTree ht hsize ha) hnode
    (by simpa using hp)⟩, fun d hd htext => ?_⟩
  obtain ⟨p, hmem, rfl⟩ := List.mem_map.1 hd
  obtain ⟨ident, decl, rfl⟩ := LoweringProblem.capture_of_text htext
  have hhoused := (Lower.node_passes hc Sound.start (.start hc) .start hnode).housed
  exact ⟨ident, decl, hhoused.captures ident decl (by simpa using hmem), rfl⟩

/-- `k :: 3; f :: proc { y := k; y = 4 }` -/
def Tree.readsLiteral : Tree where
  nodes :=
    #[⟨.literal (.number "3"), .nowhere⟩, ⟨.constant "k" 0, .nowhere⟩, ⟨.ident "k", .nowhere⟩,
      ⟨.var "y" none (some 2), .nowhere⟩, ⟨.ident "y", .nowhere⟩,
      ⟨.literal (.number "4"), .nowhere⟩, ⟨.assign 4 5, .nowhere⟩, ⟨.block [3, 6], .nowhere⟩,
      ⟨.procedure none 7, .nowhere⟩, ⟨.constant "f" 8, .nowhere⟩, ⟨.module [1, 9], .nowhere⟩]
  children_lt := by decide

/-- The name of the constant is read from its literal, that of the variable belongs to the
procedure. -/
theorem Tree.readsLiteral_isolated :
    ∃ a g ℓ, Analysis.ofTree .readsLiteral (.unset 11) 10 = .ok a
      ∧ Generated.ofTree .readsLiteral a.links 10 a.resolution a.typing Register.maximum = .ok g
      ∧ g.program.procedures.size = 2
      ∧ Isolated (a.lowerContext .readsLiteral 10 Register.maximum) ℓ g.program := by
  have hok : (Analysis.ofTree .readsLiteral (.unset 11) 10).toOption.any (fun a =>
      a.resolution.missing.isEmpty && a.typing.problems.isEmpty
        && (Generated.ofTree .readsLiteral a.links 10 a.resolution a.typing
          Register.maximum).toOption.any (fun g =>
            g.problems.isEmpty && g.program.procedures.size == 2)) = true := by decide +kernel
  obtain ⟨a, ha, hok⟩ := Runs.exists_of_any hok
  simp only [Bool.and_eq_true] at hok
  obtain ⟨⟨hmissing, hproblems⟩, hok⟩ := hok
  obtain ⟨g, hg, hok⟩ := Runs.exists_of_any hok
  simp only [Bool.and_eq_true, beq_iff_eq] at hok
  obtain ⟨ℓ, hℓ⟩ := (Generated.isolated (t := .readsLiteral) (by decide +kernel) (by decide) ha
    (List.isEmpty_iff.1 hmissing) (Array.isEmpty_iff.1 hproblems) hg).1 (List.isEmpty_iff.1 hok.1)
  exact ⟨a, g, ℓ, ha, hg, hok.2, hℓ⟩

/-- `x := 1; f :: proc { x }` -/
def Tree.readsOuter : Tree where
  nodes :=
    #[⟨.literal (.number "1"), .nowhere⟩, ⟨.var "x" none (some 0), .nowhere⟩,
      ⟨.ident "x", .nowhere⟩, ⟨.exprStmt 2, .nowhere⟩, ⟨.block [3], .nowhere⟩,
      ⟨.procedure none 4, .nowhere⟩, ⟨.constant "f" 5, .nowhere⟩, ⟨.module [1, 6], .nowhere⟩]
  children_lt := by decide

example : (Analysis.ofTree .readsOuter (.unset 8) 7).toOption.any (fun a =>
    (Generated.ofTree .readsOuter a.links 7 a.resolution a.typing
      Register.maximum).toOption.any (·.problems == [.capture 2 1])) = true := by decide +kernel

end MiddleEnd
