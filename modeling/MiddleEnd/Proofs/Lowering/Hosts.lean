import MiddleEnd.Proofs.Lowering.Turns

/-!
# Procedures and what belongs to them

Lowering enters a procedure when it comes to it and leaves it at its end, so that the procedure
being lowered is always the one around the node.  A declaration is therefore owned by the procedure
around it, and a name that is refused belongs to another procedure than its declaration.

## Main definitions

* `LowerContext.host?` — the index of the procedure that a node belongs to.
* `LowerContext.Captured` — a name of another procedure, which stands for no literal.
* `Lowering.Hosts` — where subtrees begin that have not been lowered.
* `Lowering.Housed` — what belongs to which procedure is remembered as it is in the tree.

## Main results

* `Lower.node_passes` — **lowering remembers owners and refuses captures as the tree has them**,
  whatever else it refuses.
-/

namespace MiddleEnd

open Runs Lowering

/-! ### Around a node -/

namespace LowerContext

variable {c : LowerContext} {x y : NodeId}

/-- The procedure around a node. -/
def around? (c : LowerContext) (x : NodeId) : Option NodeId := c.links.enclosingProcedure? c.tree x

theorem Sound.around?_child (hc : c.Sound) (hx : x ∈ c.tree.preorder c.root)
    (hy : y ∈ c.tree.children x) :
    c.around? y = if (c.tree.shape x).isProcedure then some x else c.around? x :=
  hc.analysis.rooted.ancestor?_child (fun above => (c.tree.shape above).isProcedure) hx hy

theorem Sound.around?_root (hc : c.Sound) : c.around? c.root = none := by
  unfold around? Links.enclosingProcedure?
  rw [hc.analysis.rooted.ascends.ancestor?_eq _ (c.tree.self_mem_preorder c.root),
    show c.links.parent? c.root = none from hc.analysis.rooted.root_parent]
  rfl

/-- What is in parentheses belongs where the parentheses belong. -/
theorem Sound.around?_ungroup (hc : c.Sound) (hx : x ∈ c.tree.preorder c.root) :
    c.around? (c.tree.ungroup x) = c.around? x := by
  refine (Tree.ungroup_induction (motive := fun y => y ∈ c.tree.preorder c.root
    ∧ c.around? y = c.around? x) ⟨hx, rfl⟩ fun y e hshape he ⟨hy, hsame⟩ => ?_).2
  refine ⟨hc.tree.child hy he, ?_⟩
  rw [hc.around?_child hy he, hshape]
  exact hsame

/-- The index of the procedure that a node belongs to, by the indices of all procedures. -/
def host? (c : LowerContext) (targets : Std.TreeMap NodeId Nat) (x : NodeId) : Option Nat :=
  match c.around? x with
  | none => some 0
  | some q => targets[q]?

/-- Nodes with the same procedure around them belong to the same one. -/
theorem host?_eq {targets : Std.TreeMap NodeId Nat} (h : c.around? y = c.around? x) :
    c.host? targets y = c.host? targets x := by
  unfold host?
  rw [h]

theorem host?_congr {targets targets' : Std.TreeMap NodeId Nat} {j : Nat}
    (h : c.host? targets x = some j)
    (hsame : ∀ (q : NodeId) (j : Nat), targets[q]? = some j → targets'[q]? = some j) :
    c.host? targets' x = some j := by
  unfold host? at *
  split at h
  · exact h
  · exact hsame _ _ h

/-- A target is a variable, and its name belongs where the store is. -/
theorem Sound.written (hc : c.Sound) (hx : x ∈ c.tree.preorder c.root)
    (hy : y ∈ c.tree.written x) : c.typingContext.IsVariable y
      ∧ y ∈ c.tree.preorder c.root
      ∧ c.around? (c.tree.ungroup y) = c.around? x := by
  -- What is not below a procedure belongs where its parent does.
  have below {z : NodeId} (hz : z ∈ c.tree.children x)
      (hprocedure : (c.tree.shape x).isProcedure = false) :
      z ∈ c.tree.preorder c.root ∧ c.around? (c.tree.ungroup z) = c.around? x := by
    have hmem := hc.tree.child hx hz
    refine ⟨hmem, ?_⟩
    rw [hc.around?_ungroup hmem, hc.around?_child hx hz, hprocedure]
    rfl
  unfold Tree.written at hy
  cases hshape : c.tree.shape x <;> rw [hshape] at hy <;>
    first | (cases hy; done) | skip
  -- Only assignments and native code write to anything.
  case assign target value =>
    obtain rfl := List.mem_singleton.1 hy
    exact ⟨(hc.hasKind_assign hx hshape).1,
      below (by simp [Tree.children_of_shape hshape, Shape.children]) (by rw [hshape]; rfl)⟩
  case parallel targets values =>
    exact ⟨hc.isVariable_parallel hx hshape hy,
      below (by
        rw [Tree.children_of_shape hshape]
        exact List.mem_append_left _ hy) (by rw [hshape]; rfl)⟩
  case native source inputs output =>
    cases output with
    | none => cases hy
    | some output =>
      have houtput : output ∈ c.tree.children x := by
        simp [Tree.children_of_shape hshape, Shape.children]
      have hmem := hc.tree.child hx houtput
      cases hslot : c.tree.shape output <;> simp only [Shape.written, hslot] at hy <;>
        first | (cases hy; done) | skip
      next target offset =>
      obtain rfl := List.mem_singleton.1 hy
      have hy : y ∈ c.tree.children output := by
        simp [Tree.children_of_shape hslot, Shape.children]
      obtain ⟨τ, -, hty⟩ := hc.judged hx hshape
      cases hty with
      | native hinputs hdone htarget =>
        have hmem' := hc.tree.child hmem hy
        refine ⟨htarget y offset hslot, hmem', ?_⟩
        rw [hc.around?_ungroup hmem', hc.around?_child hmem hy, hslot,
          if_neg (by simp [Shape.isProcedure]), hc.around?_child hx houtput, hshape]
        rfl

/-- A name that belongs to another procedure than its declaration, which stands for no literal. -/
structure Captured (c : LowerContext) (ident decl : NodeId) : Prop where
  /-- The identifier is in the tree. -/
  inTree : ident ∈ c.tree.preorder c.root
  /-- It is an identifier. -/
  isIdent : (c.tree.shape ident).isIdent = true
  /-- It is bound to the declaration. -/
  bound : c.resolution.declaration? ident = some decl
  /-- The procedures around them are different ones. -/
  apart : c.around? ident ≠ c.around? decl
  /-- The declaration is no constant that could be loaded again. -/
  notLiteral : Lower.literalConstant? c.tree decl = none

end LowerContext

/-! ### States -/

namespace Lowering

/-- Where the subtrees of `xs` begin, none of which has been lowered. -/
structure Hosts (c : LowerContext) (xs : List NodeId) (s : Lowering) : Prop where
  /-- The nodes are in the tree. -/
  inTree : ∀ x ∈ xs, x ∈ c.tree.preorder c.root
  /-- No node is below two of them. -/
  nodup : (xs.flatMap c.tree.preorder).Nodup
  /-- No procedure below them has been opened. -/
  fresh : ∀ q ∈ xs.flatMap c.tree.preorder, s.procedureOf[q]? = none
  /-- They belong to the procedure that is being lowered. -/
  host : ∀ x ∈ xs, c.host? s.procedureOf x = some s.frame.index

/-- What belongs to which procedure is remembered as it is in the tree. -/
structure Housed (c : LowerContext) (s : Lowering) : Prop where
  /-- The owner of a declaration is the procedure around it. -/
  owners : ∀ (d : NodeId) (j : Nat), s.ownerOf[d]? = some j → c.host? s.procedureOf d = some j
  /-- No procedure has the number of the start. -/
  positive : ∀ (q : NodeId) (j : Nat), s.procedureOf[q]? = some j → 0 < j
  /-- No two procedures have the same number. -/
  injective : ∀ (q q' : NodeId) (j : Nat), s.procedureOf[q]? = some j →
    s.procedureOf[q']? = some j → q = q'
  /-- What has been refused as a value of another procedure is one. -/
  captures : ∀ ident decl, .capture ident decl ∈ s.problems → c.Captured ident decl

/-- The subtrees of `xs` have been lowered. -/
structure Passes (c : LowerContext) (xs : List NodeId) (s s' : Lowering) : Prop where
  /-- The code has only grown. -/
  advances : s.Advances none s'
  /-- No other procedure has been opened. -/
  outside : ∀ q, q ∉ xs.flatMap c.tree.preorder → s'.procedureOf[q]? = s.procedureOf[q]?
  /-- What belongs to which procedure is still remembered as it is. -/
  housed : s'.Housed c

variable {c : LowerContext} {xs : List NodeId} {x id : NodeId} {s s₁ s' : Lowering}

/-- **Two nodes of the tree that belong to procedures of the same index belong to the same one.** -/
theorem Housed.around?_eq (h : s.Housed c) {y : NodeId} {j : Nat}
    (hx : c.host? s.procedureOf x = some j) (hy : c.host? s.procedureOf y = some j) :
    c.around? x = c.around? y := by
  unfold LowerContext.host? at hx hy
  cases hax : c.around? x with
  | none =>
    cases hay : c.around? y with
    | none => rfl
    | some q =>
      simp only [hax, hay, Option.some.injEq] at hx hy
      exact absurd (h.positive q j hy) (by omega)
  | some q =>
    simp only [hax] at hx
    cases hay : c.around? y with
    | none =>
      simp only [hay, Option.some.injEq] at hy
      exact absurd (h.positive q j hx) (by omega)
    | some q' =>
      simp only [hay] at hy
      rw [h.injective q q' j hx hy]

theorem Housed.quiet (h : s.Housed c) (hs : s.Quiet s') : s'.Housed c where
  owners d j hj := by
    rw [hs.owners] at hj
    rw [hs.procedures]
    exact h.owners d j hj
  positive q j hj := h.positive q j (hs.procedures ▸ hj)
  injective q q' j hj hj' := h.injective q q' j (hs.procedures ▸ hj) (hs.procedures ▸ hj')
  captures ident decl hmem := h.captures ident decl (hs.captures ident decl hmem)

theorem Hosts.quiet (h : s.Hosts c xs) (hs : s.Quiet s') : s'.Hosts c xs where
  inTree := h.inTree
  nodup := h.nodup
  fresh q hq := by
    rw [hs.procedures]
    exact h.fresh q hq
  host y hy := by
    rw [hs.procedures, hs.grows.index]
    exact h.host y hy

/-- A problem that is no capture of a literal, or of a name of the same procedure. -/
theorem Housed.capture (h : s.Housed c) {ident decl : NodeId} {j : Nat}
    (hident : ident ∈ c.tree.preorder c.root) (hname : (c.tree.shape ident).isIdent = true)
    (hdecl : c.resolution.declaration? ident = some decl)
    (hhost : c.host? s.procedureOf ident = some s.frame.index)
    (howner : s.ownerOf[decl]? = some j) (hne : j ≠ s.frame.index)
    (hlit : Lower.literalConstant? c.tree decl = none) :
    (s.withProblem (.capture ident decl)).Housed c where
  owners := h.owners
  positive := h.positive
  injective := h.injective
  captures ident' decl' hmem := by
    rcases Array.mem_push.1 hmem with hmem | heq
    · exact h.captures ident' decl' hmem
    · obtain ⟨rfl, rfl⟩ := LoweringProblem.capture.inj heq
      refine ⟨hident, hname, hdecl, fun haround => hne ?_, hlit⟩
      exact Option.some.inj ((h.owners decl' j howner).symm.trans
        ((c.host?_eq haround).symm.trans hhost))

theorem Housed.tie (h : s.Housed c) {r : Register}
    (hhost : c.host? s.procedureOf id = some s.frame.index) : (s.tie c id r).Housed c where
  owners d j hj := by
    have howner : (s.tie c id r).ownerOf[d]?
        = if id = d then some s.frame.index else s.ownerOf[d]? := by
      show (s.ownerOf.insert id s.frame.index)[d]? = _
      simp [Std.TreeMap.getElem?_insert]
    rw [howner] at hj
    show c.host? s.procedureOf d = some j
    split at hj
    · next heq =>
      obtain rfl := Option.some.inj hj
      exact heq ▸ hhost
    · exact h.owners d j hj
  positive := h.positive
  injective := h.injective
  captures := h.captures

/-! ### From node to node -/

namespace Hosts

theorem tail (h : s.Hosts c (x :: xs)) : s.Hosts c xs where
  inTree y hy := h.inTree y (.tail _ hy)
  nodup := by
    have hnodup := h.nodup
    rw [List.flatMap_cons, List.nodup_append] at hnodup
    exact hnodup.2.1
  fresh q hq := h.fresh q (List.mem_append_right _ hq)
  host y hy := h.host y (.tail _ hy)

/-- A part of the first subtree, in the same procedure. -/
theorem part (h : s.Hosts c (x :: xs)) {y : NodeId} (hy : y ∈ c.tree.preorder x)
    (haround : c.around? y = c.around? x) : s.Hosts c [y] where
  inTree z hz := by
    obtain rfl := List.mem_singleton.1 hz
    exact c.tree.mem_preorder_trans (h.inTree x (.head _)) hy
  nodup := by
    have hnodup := h.nodup
    rw [List.flatMap_cons, List.nodup_append] at hnodup
    simpa using Tree.nodup_of_mem hnodup.1 hy
  fresh q hq := by
    refine h.fresh q (List.mem_append_left _ (c.tree.mem_preorder_trans hy ?_))
    simpa using hq
  host z hz := by
    obtain rfl := List.mem_singleton.1 hz
    rw [c.host?_eq haround]
    exact h.host x (.head _)

theorem head (h : s.Hosts c (x :: xs)) : s.Hosts c [x] :=
  h.part (c.tree.self_mem_preorder x) rfl

/-- What had a procedure where subtrees begin has it where they end. -/
theorem keep (h : s.Hosts c xs) (hpasses : Passes c xs s s') {q : NodeId} {j : Nat}
    (hj : s.procedureOf[q]? = some j) : s'.procedureOf[q]? = some j := by
  rw [hpasses.outside q fun hq => ?_, hj]
  rw [h.fresh q hq] at hj
  cases hj

theorem next (h : s.Hosts c (x :: xs)) (hx : Passes c [x] s s₁) : s₁.Hosts c xs where
  inTree := h.tail.inTree
  nodup := h.tail.nodup
  fresh q hq := by
    have hnodup := h.nodup
    rw [List.flatMap_cons, List.nodup_append] at hnodup
    rw [hx.outside q fun hmem => hnodup.2.2 q (by simpa using hmem) q hq rfl]
    exact h.tail.fresh q hq
  host y hy := by
    rw [hx.advances.grows.index]
    exact c.host?_congr (h.tail.host y hy) fun q j hj => h.head.keep hx hj

/-- From a node to its children, unless it is a procedure. -/
theorem children (hc : c.Sound) (h : s.Hosts c [id])
    (hprocedure : (c.tree.shape id).isProcedure = false) : s.Hosts c (c.tree.children id) := by
  have hid := h.inTree id (.head _)
  have hpreorder : [id].flatMap c.tree.preorder
      = id :: (c.tree.children id).flatMap c.tree.preorder := by
    rw [List.flatMap_cons, c.tree.preorder_eq]
    simp
  have hnodup := h.nodup
  rw [hpreorder, List.nodup_cons] at hnodup
  refine ⟨fun y hy => hc.tree.child hid hy, hnodup.2, fun q hq =>
    h.fresh q (hpreorder ▸ .tail _ hq), fun y hy => ?_⟩
  have haround : c.around? y = c.around? id := by
    rw [hc.around?_child hid hy, hprocedure]
    rfl
  rw [c.host?_eq haround]
  exact h.host id (.head _)

end Hosts

theorem Passes.trans (hx : Passes c [x] s s₁) (hxs : Passes c xs s₁ s') :
    Passes c (x :: xs) s s' where
  advances := hx.advances.trans hxs.advances
  outside q hq := by
    rw [List.flatMap_cons, List.mem_append, not_or] at hq
    rw [hxs.outside q hq.2, hx.outside q (by simpa using hq.1)]
  housed := hxs.housed

/-- Nothing happens below what is left out. -/
theorem Passes.mono {ys : List NodeId} (h : Passes c xs s s')
    (hsub : ∀ q ∈ xs.flatMap c.tree.preorder, q ∈ ys.flatMap c.tree.preorder) :
    Passes c ys s s' :=
  ⟨h.advances, fun q hq => h.outside q fun hmem => hq (hsub q hmem), h.housed⟩

end Lowering

namespace Lower

/-! ### Turns -/

section Turns

variable {c : LowerContext} {lower : NodeId → Lower (Option Register)} {id x : NodeId}
  {xs ws : List NodeId} {vs : List (NodeId × Option Register)} {s s₁ s' : Lowering}

/-- What is known where a walk goes on. -/
structure Hosting (c : LowerContext) (id : NodeId) (xs ws : List NodeId) (s : Lowering) : Prop where
  /-- The code so far is in order. -/
  sound : s.Sound
  /-- The subtrees that come next have not been lowered. -/
  hosts : s.Hosts c xs
  /-- What belongs to which procedure is remembered as it is. -/
  housed : s.Housed c
  /-- The node belongs to the procedure that is being lowered. -/
  self : c.host? s.procedureOf id = some s.frame.index
  /-- What is written from here on is written by the node. -/
  targets : ∀ y ∈ ws, y ∈ c.tree.written id

namespace Hosting

theorem start (hc : c.Sound) (hs : s.Sound) (hhosts : s.Hosts c [id]) (hhoused : s.Housed c)
    (hprocedure : (c.tree.shape id).isProcedure = false) :
    Hosting c id (c.tree.children id) (c.tree.written id) s :=
  ⟨hs, hhosts.children hc hprocedure, hhoused, hhosts.host id (.head _), fun _ hy => hy⟩

theorem quiet (h : Hosting c id xs ws s) (hs : s.Quiet s₁) : Hosting c id xs ws s₁ :=
  ⟨hs.sound, h.hosts.quiet hs, h.housed.quiet hs,
    by rw [hs.procedures, hs.grows.index, h.self], h.targets⟩

theorem skip (h : Hosting c id (x :: xs) ws s) : Hosting c id xs ws s :=
  { h with hosts := h.hosts.tail }

/-- The first part has been lowered, or what stands in it. -/
theorem next (h : Hosting c id (x :: xs) ws s) (hx : Passes c [x] s s₁) :
    Hosting c id xs ws s₁ where
  sound := hx.advances.sound
  hosts := h.hosts.next hx
  housed := hx.housed
  self := by
    rw [hx.advances.grows.index]
    exact c.host?_congr h.self fun q j hj => h.hosts.head.keep hx hj
  targets := h.targets

/-- In a slot there is a name of the same procedure. -/
theorem target (hc : c.Sound) (h : Hosting c id (x :: xs) ws s) {target : NodeId} {offset : Nat}
    (hslot : c.tree.shape x = .slot target offset) :
    target ∈ c.tree.children x ∧ s.Hosts c [target] := by
  have hmem : target ∈ c.tree.children x := by
    simp [Tree.children_of_shape hslot, Shape.children]
  refine ⟨hmem, h.hosts.part (c.tree.child_mem_preorder hmem) ?_⟩
  rw [hc.around?_child (h.hosts.inTree x (.head _)) hmem, hslot]
  rfl

theorem miss {target : NodeId} (h : Hosting c id xs (target :: ws) s) : Hosting c id xs ws s :=
  { h with targets := fun y hy => h.targets y (.tail _ hy) }

/-- A target of another procedure is refused. -/
theorem write (hc : c.Sound) (hid : id ∈ c.tree.preorder c.root) {target decl : NodeId}
    {v : Option Register} (h : Hosting c id [] (target :: ws) s)
    (hdecl : c.resolution.declaration? (c.tree.ungroup target) = some decl)
    (hplace : PlaceOutcome c (c.tree.ungroup target) decl s v s₁) : Hosting c id [] ws s₁ := by
  cases hplace with
  | unowned _ | own _ => exact h.miss
  | outer howner hne =>
    -- What is refused is the name of a variable, which is no constant.
    obtain ⟨hvariable, hmem, haround⟩ := hc.written hid (h.targets target (.head _))
    obtain ⟨decl', _, _, _, hdecl', hvar, name, hname⟩ := hvariable
    obtain rfl := Option.some.inj (hdecl.symm.trans hdecl')
    have hlit : literalConstant? c.tree decl = none := by
      unfold literalConstant?
      rw [show c.tree.shape decl = _ from hvar]
    have hname : (c.tree.shape (c.tree.ungroup target)).isIdent = true := by
      rw [show c.tree.shape (c.tree.ungroup target) = .ident name from hname]
      rfl
    -- The name belongs to the procedure being lowered, and the variable to another one.
    have hhost : c.host? s.procedureOf (c.tree.ungroup target) = some s.frame.index :=
      (c.host?_eq haround).trans h.self
    exact
      { sound := h.sound.withProblem _
        hosts := ⟨h.hosts.inTree, h.hosts.nodup, h.hosts.fresh, h.hosts.host⟩
        housed := h.housed.capture
          (c.tree.mem_preorder_trans hmem (c.tree.ungroup_mem_preorder _)) hname hdecl hhost howner
          hne hlit
        self := h.self
        targets := h.miss.targets }

end Hosting

variable (hc : c.Sound)
  (ih : ∀ (x : NodeId) (s s' : Lowering) (v : Option Register), lower x s = .ok (v, s') →
    x ∈ c.tree.preorder c.root → s.Sound → s.Hosts c [x] → s.Housed c → Passes c [x] s s')
include hc ih

/-- A slot is passed with the name in it. -/
theorem Hosting.passes_slot (h : Hosting c id (x :: xs) ws s) {target : NodeId} {offset : Nat}
    {v : Option Register} (hslot : c.tree.shape x = .slot target offset)
    (hx : lower target s = .ok (v, s₁)) : Passes c [x] s s₁ := by
  obtain ⟨hmem, hhosts⟩ := h.target hc hslot
  refine (ih _ _ _ _ hx (hc.tree.child (h.hosts.inTree x (.head _)) hmem) h.sound hhosts
    h.housed).mono fun q hq => ?_
  simp only [List.flatMap_cons, List.flatMap_nil, List.append_nil] at hq ⊢
  exact c.tree.mem_preorder_of_child hmem hq

theorem Walks.passes (hid : id ∈ c.tree.preorder c.root) (hwalk : Walks c lower id xs ws vs s s')
    (h : Hosting c id xs ws s) : Passes c xs s s' := by
  induction hwalk with
  | finish => exact ⟨.refl h.sound, fun _ _ => rfl, h.housed⟩
  | quiet hquiet _ ihrest =>
    have hrest := ihrest (h.quiet hquiet)
    exact ⟨hquiet.advances.trans hrest.advances, fun q hq => by
      rw [hrest.outside q hq, hquiet.procedures], hrest.housed⟩
  | skip _ _ _ ihrest =>
    exact (ihrest h.skip).mono fun q hq => List.mem_append_right _ hq
  | visit _ hx _ ihrest =>
    have hpasses := ih _ _ _ _ hx (h.hosts.inTree _ (.head _)) h.sound h.hosts.head h.housed
    exact hpasses.trans (ihrest (h.next hpasses))
  | slot hslot hx _ ihrest =>
    have hpasses := h.passes_slot hc ih hslot hx
    exact hpasses.trans (ihrest (h.next hpasses))
  | write hdecl hplace _ ihrest =>
    obtain ⟨hadv, houtside, hhoused⟩ := ihrest (h.write hc hid hdecl hplace)
    cases hplace with
    | unowned _ | own _ => exact ⟨hadv, houtside, hhoused⟩
    | outer _ _ => exact ⟨(Advances.withProblem h.sound _).trans hadv, houtside, hhoused⟩
  | miss _ _ ihrest => exact ihrest h.miss
  | tie _ hr =>
    exact ⟨(Advances.tied h.sound hr c id).forget, fun _ _ => rfl, h.housed.tie h.self⟩

omit hc ih in
theorem ident_passes {name : String} {decl : NodeId} {v : Option Register}
    (hshape : c.tree.shape id = .ident name) (hdecl : c.resolution.declaration? id = some decl)
    (h : IdentOutcome c id decl s v s') (hs : s.Sound) (hhosts : s.Hosts c [id])
    (hhoused : s.Housed c) : Passes c [id] s s' := by
  rcases h.quiet_or hs with hquiet | ⟨rfl, hlit, owner, howner, hne⟩
  · exact ⟨hquiet.advances, fun q _ => by rw [hquiet.procedures], hhoused.quiet hquiet⟩
  · exact ⟨.withProblem hs _, fun _ _ => rfl,
      hhoused.capture (hhosts.inTree id (.head _)) (by rw [hshape]; rfl) hdecl
        (hhosts.host id (.head _)) howner hne hlit⟩

omit ih in
/-- A procedure gets an index that no other one has, and its body belongs to it. -/
theorem Hosts.enter {result : Option NodeId} {body : NodeId}
    (hshape : c.tree.shape id = .procedure result body) (hs : s.Sound) (hhosts : s.Hosts c [id])
    (hhoused : s.Housed c) (name : String) (isConstant : Bool) (ty : Option Ty) :
    ((s.opened id name isConstant).inFrame ⟨s.program.procedures.size, ty, ∅⟩).Hosts c [body]
      ∧ ((s.opened id name isConstant).inFrame ⟨s.program.procedures.size, ty, ∅⟩).Housed c := by
  have hid := hhosts.inTree id (.head _)
  have hmem : body ∈ c.tree.children id := by
    simp [Tree.children_of_shape hshape, Shape.children]
  have hfresh := hhosts.fresh id (by simp [c.tree.self_mem_preorder])
  let s₀ := (s.opened id name isConstant).inFrame ⟨s.program.procedures.size, ty, ∅⟩
  have hget : ∀ q : NodeId, s₀.procedureOf[q]?
      = if id = q then some s.program.procedures.size else s.procedureOf[q]? :=
    procedureOf_opened s id _ _ _
  -- The procedure had no index before, so the others keep theirs.
  have hkeep : ∀ (q : NodeId) (j : Nat), s.procedureOf[q]? = some j →
      s₀.procedureOf[q]? = some j := by
    intro q j hj
    rw [hget, if_neg ?_, hj]
    rintro rfl
    rw [hfresh] at hj
    cases hj
  constructor
  · -- The body is below the procedure, which now has the index of the new frame.
    refine ⟨fun y hy => ?_, ?_, fun q hq => ?_, fun y hy => ?_⟩
    · obtain rfl := List.mem_singleton.1 hy
      exact hc.tree.child hid hmem
    · simpa using Tree.nodup_of_mem hc.tree.nodup (hc.tree.child hid hmem)
    · have hq : q ∈ c.tree.preorder body := by simpa using hq
      have hne : id ≠ q := fun heq => Nat.not_le_of_lt (c.tree.child_lt hmem)
        (c.tree.le_of_mem_preorder (heq ▸ hq))
      rw [hget, if_neg hne]
      exact hhosts.fresh q (by simpa using c.tree.mem_preorder_of_child hmem hq)
    · obtain rfl := List.mem_singleton.1 hy
      unfold LowerContext.host?
      rw [hc.around?_child hid hmem, hshape]
      show s₀.procedureOf[id]? = _
      rw [hget, if_pos rfl]
      rfl
  · -- The new index is larger than all others, so it is positive and belongs to no other procedure.
    refine ⟨fun d j hj => c.host?_congr (hhoused.owners d j hj) hkeep, fun q j hj => ?_,
      fun q q' j hj hj' => ?_, hhoused.captures⟩
    · rw [hget] at hj
      split at hj
      · exact Option.some.inj hj ▸ Nat.lt_of_le_of_lt (Nat.zero_le _) hs.frame
      · exact hhoused.positive q j hj
    · rw [hget] at hj hj'
      split at hj <;> split at hj'
      · simp_all
      · exact absurd (hs.targets q' j hj') (by simp_all)
      · exact absurd (hs.targets q j hj) (by simp_all)
      · exact hhoused.injective q q' j hj hj'

theorem procedure_passes {result : Option NodeId} {body : NodeId} {v : Option Register}
    {s₁ s₂ : Lowering} (hshape : c.tree.shape id = .procedure result body)
    (hbody : lower body ((s.opened id (procedureName c id).1 (procedureName c id).2).inFrame
      ⟨s.program.procedures.size, result.map c.typeOf, ∅⟩) = .ok (v, s₁))
    (hlast : s₁.Quiet s₂) (hs : s.Sound) (hhosts : s.Hosts c [id]) (hhoused : s.Housed c) :
    Passes c [id] s (s₂.inFrame s.frame) := by
  have hid := hhosts.inTree id (.head _)
  have hmem : body ∈ c.tree.children id := by
    simp [Tree.children_of_shape hshape, Shape.children]
  obtain ⟨hhosts₀, hhoused₀⟩ := Hosts.enter hc hshape hs hhosts hhoused (procedureName c id).1
    (procedureName c id).2 (result.map c.typeOf)
  have hpasses := ih _ _ _ _ hbody (hc.tree.child hid hmem) (entered_sound hs) hhosts₀ hhoused₀
  refine ⟨around_advances hs (hpasses.advances.trans hlast.advances), fun q hq => ?_, ?_⟩
  · have hq : q ∉ c.tree.preorder id := by simpa using hq
    have hne : id ≠ q := fun heq => hq (heq ▸ c.tree.self_mem_preorder id)
    show s₂.procedureOf[q]? = _
    rw [hlast.procedures, hpasses.outside q fun hmem' =>
      hq (c.tree.mem_preorder_of_child hmem (by simpa using hmem')), procedureOf_opened,
      if_neg hne]
  · have hhoused₂ := hpasses.housed.quiet hlast
    exact ⟨hhoused₂.owners, hhoused₂.positive, hhoused₂.injective, hhoused₂.captures⟩

end Turns

/-- **Lowering remembers owners and refuses captures as the tree has them**, whatever else it
refuses. -/
theorem node_passes {c : LowerContext} (hc : c.Sound) {id : NodeId} {s s' : Lowering}
    {v : Option Register} (hs : s.Sound) (hhosts : s.Hosts c [id]) (hhoused : s.Housed c)
    (h : node c id s = .ok (v, s')) : Passes c [id] s s' := by
  refine node_turn_induction hc
    (motive := fun x s _ s' => s.Hosts c [x] → s.Housed c → Passes c [x] s s')
    (fun lower id ih s s' v hid hs hturn hhosts hhoused => ?_) (hhosts.inTree id (.head _)) hs h
    hhosts hhoused
  have ih := fun x s s' v hx => (ih x s s' v hx).2
  cases hturn with
  | ident hshape hdecl h => exact ident_passes hshape hdecl h hs hhosts hhoused
  | procedure hshape hbody hlast =>
    exact procedure_passes hc ih hshape hbody hlast hs hhosts hhoused
  | node _ hprocedure h =>
    refine (Walks.passes hc ih hid h (.start hc hs hhosts hhoused hprocedure)).mono fun q hq => ?_
    obtain ⟨y, hy, hq⟩ := List.mem_flatMap.1 hq
    simpa using c.tree.mem_preorder_of_child hy hq

end Lower

/-- Nothing has been lowered where the root begins. -/
theorem Lowering.Hosts.start {c : LowerContext} (hc : c.Sound) :
    Lowering.start.Hosts c [c.root] where
  inTree x hx := by
    obtain rfl := List.mem_singleton.1 hx
    exact c.tree.self_mem_preorder c.root
  nodup := by simpa using hc.tree.nodup
  fresh q _ := by simp [Lowering.start]
  host x hx := by
    obtain rfl := List.mem_singleton.1 hx
    unfold LowerContext.host?
    rw [hc.around?_root]
    rfl

theorem Lowering.Housed.start {c : LowerContext} : Lowering.start.Housed c where
  owners d j hj := by simp [Lowering.start] at hj
  positive q j hj := by simp [Lowering.start] at hj
  injective q q' j hj := by simp [Lowering.start] at hj
  captures ident decl hmem := by simp [Lowering.start] at hmem

end MiddleEnd
