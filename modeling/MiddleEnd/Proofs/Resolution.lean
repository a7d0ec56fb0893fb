import MiddleEnd.Proofs.Tree.WellFormed
import MiddleEnd.Resolution

/-!
# Declarations come before their uses

Every identifier of a section is bound to a declaration of the section, or is reported as missing.
The declaration has been left when the identifier is met, unless it is a constant that is a
procedure, which may use itself.

## Main definitions

* `Tree.namesProcedure` — a constant that is a procedure.
* `Resolution.Visible` — a declaration that may be used at a position of a section.
* `Resolution.Scan.Takes` — what a step of the scan does with a node, one case per kind of node.
* `Resolution.Scan.Sound` — the invariant of the scan.
* `Resolution.Served` — every identifier of a subtree is bound to a declaration before it.
* `Tree.definition?` — what a declaration is defined with.
* `Resolution.Leads` — one step from a name to what it stands for.

## Main results

* `Resolution.Scan.step_ok_iff` — what a step of the scan does.
* `Resolution.Scan.step_sound` — one step of the scan keeps the invariant.
* `Resolution.bound_of_ofSection` — identifiers are bound to visible declarations.
* `Resolution.served_of_ofSection` — the same, along the subtrees of the section.
* `Resolution.hasParent_of_ofSection` — every node of a resolved section but its root has a parent.
* `Resolution.targetWithin?_succ`, `Resolution.targetWithin?_succ_iff` — one step of the search for
  the procedure that a callee denotes.
-/

namespace MiddleEnd

/-- Whether a node is a constant that is a procedure. -/
def Tree.namesProcedure (t : Tree) (decl : NodeId) : Bool :=
  match t.shape decl with
  | .constant _ definition => Resolution.isProcedureLiteral t definition
  | _ => false

namespace Resolution

/-- A declaration listed by the section of `root` that may be used at position `k`: its subtree has
been left, or it names a procedure. -/
def Visible (t : Tree) (root : NodeId) (k : Nat) (decl : NodeId) : Prop :=
  ∃ p, (t.preorder root)[p]? = some decl ∧ (t.shape decl).isDeclaration = true
    ∧ (p + t.weight decl ≤ k ∨ t.namesProcedure decl = true)

theorem Visible.mono {t : Tree} {root decl : NodeId} {k k' : Nat} (h : Visible t root k decl)
    (hk : k ≤ k') : Visible t root k' decl := by
  obtain ⟨p, hp, hdecl, hend⟩ := h
  exact ⟨p, hp, hdecl, hend.imp_left fun h => Nat.le_trans h hk⟩

/-! ### Looking names up -/

theorem latest?_mem {entries : List Entry} {scope : Option NodeId} {name : String} {decl : NodeId}
    (h : latest? entries scope name = some decl) : ∃ e ∈ entries, e.decl = decl := by
  obtain ⟨e, he, rfl⟩ := Option.map_eq_some_iff.1 h
  exact ⟨e, List.mem_of_find?_eq_some he, rfl⟩

theorem lookupWithin_mem {s : Surroundings} {entries : List Entry} {ident : NodeId}
    {name : String} {steps : Nat} {scope : Option NodeId} {decl : NodeId}
    (h : lookupWithin s entries ident name steps scope = .ok (some decl)) :
    ∃ e ∈ entries, e.decl = decl := by
  induction steps generalizing scope with
  | zero => cases h
  | succ steps ih =>
    unfold lookupWithin at h
    split at h
    · next found hfound =>
      cases h
      exact latest?_mem hfound
    · split at h
      · cases h
      · split at h
        · cases h
        · split at h
          · cases h
          · exact ih h

theorem release_mem (pos : Nat) (waiting entries : List Entry) :
    (∀ e ∈ (release pos waiting entries).1, e ∈ waiting)
      ∧ ∀ e ∈ (release pos waiting entries).2, e ∈ entries ∨ e ∈ waiting ∧ e.visibleFrom ≤ pos := by
  induction waiting generalizing entries with
  | nil => exact ⟨fun _ h => h, fun _ h => .inl h⟩
  | cons e waiting ih =>
    unfold release
    split
    · next hvisible =>
      obtain ⟨hwaiting, hentries⟩ := ih (e :: entries)
      refine ⟨fun e' he' => .tail _ (hwaiting e' he'), fun e' he' => ?_⟩
      rcases hentries e' he' with hmem | ⟨hmem, hle⟩
      · rcases List.mem_cons.1 hmem with rfl | hmem
        · exact .inr ⟨.head _, hvisible⟩
        · exact .inl hmem
      · exact .inr ⟨.tail _ hmem, hle⟩
    · exact ⟨fun _ h => h, fun _ h => .inl h⟩

/-! ### Steps of the scan -/

/-- A scan that arrives at a node: what has become visible is listed, and the scope of the node is
known. -/
def Scan.arrive (s : Surroundings) (scan : Scan) (pos : Nat) (id : NodeId)
    (scope : Option NodeId) : Scan :=
  { scan with
    waiting := (release pos scan.waiting scan.entries).1
    entries := (release pos scan.waiting scan.entries).2
    scopePositions :=
      if s.tree.isScope id then scan.scopePositions.insert id pos else scan.scopePositions
    scopeOf := scan.scopeOf.setIfInBounds id scope }

/-- What is done with a node of `scope` once the scan has arrived there.  A procedure may be used
from its own position on, any other declaration once it has been left. -/
inductive Scan.Takes (s : Surroundings) (pos stop : Nat) (id : NodeId) (scope : Option NodeId)
    (scan : Scan) : Scan → Prop
  /-- A constant that is a procedure may be used at once. -/
  | procedure {name : String} (hname : (s.tree.shape id).declaredName? = some name)
      (hproc : s.tree.namesProcedure id = true) :
      Takes s pos stop id scope scan { scan with entries := ⟨scope, name, id, pos⟩ :: scan.entries }
  /-- Any other declaration waits until it has been left. -/
  | value {name : String} (hname : (s.tree.shape id).declaredName? = some name)
      (hvalue : s.tree.namesProcedure id = false) :
      Takes s pos stop id scope scan
      { scan with waiting := ⟨scope, name, id, stop⟩ :: scan.waiting }
  /-- An identifier whose declaration is visible is bound to it. -/
  | found {name : String} {decl : NodeId} (hshape : s.tree.shape id = .ident name)
      (h : lookup s scan.entries scope id name = .ok (some decl)) :
      Takes s pos stop id scope scan { scan with bindings := scan.bindings.insert id decl }
  /-- An identifier without a visible declaration is noted. -/
  | missed {name : String} (hshape : s.tree.shape id = .ident name)
      (h : lookup s scan.entries scope id name = .ok none) :
      Takes s pos stop id scope scan { scan with misses := (id, scope, name) :: scan.misses }
  /-- Nothing else concerns the scan. -/
  | skip (hname : (s.tree.shape id).declaredName? = none)
      (hident : (s.tree.shape id).isIdent = false) : Takes s pos stop id scope scan scan

theorem Scan.takes_of_step {s : Surroundings} {pos stop : Nat} {id : NodeId} {scan scan' : Scan}
    (h : scan.step s pos stop id = .ok scan') :
    ∃ scope, scopeOfNode s scan.scopeOf id = .ok scope
      ∧ Scan.Takes s pos stop id scope (scan.arrive s pos id scope) scan' := by
  unfold Scan.step at h
  simp only [bind, Except.bind] at h
  split at h
  · cases h
  next scope hscope =>
  refine ⟨scope, hscope, ?_⟩
  split at h
  case h_1 name definition hshape =>
    have hname : (s.tree.shape id).declaredName? = some name := by rw [hshape]; rfl
    split at h
    · next hproc =>
      cases h
      exact .procedure hname (by simpa [Tree.namesProcedure, hshape] using hproc)
    · next hproc =>
      cases h
      exact .value hname (by simpa [Tree.namesProcedure, hshape] using hproc)
  case h_2 name ty init hshape =>
    cases h
    exact .value (by rw [hshape]; rfl) (by simp [Tree.namesProcedure, hshape])
  case h_3 name hshape =>
    split at h
    · cases h
    next found hfound =>
    cases found with
    | none =>
      cases h
      exact .missed hshape hfound
    | some decl =>
      cases h
      exact .found hshape hfound
  case h_4 hconstant hvar hident =>
    cases h
    refine .skip ?_ ?_ <;> cases hshape : s.tree.shape id <;>
      simp_all [Shape.declaredName?, Shape.isIdent]

theorem Scan.step_of_takes {s : Surroundings} {pos stop : Nat} {id : NodeId} {scan scan' : Scan}
    {scope : Option NodeId} (hscope : scopeOfNode s scan.scopeOf id = .ok scope)
    (h : Scan.Takes s pos stop id scope (scan.arrive s pos id scope) scan') :
    scan.step s pos stop id = .ok scan' := by
  unfold Scan.step
  simp only [bind, Except.bind, hscope]
  cases h with
  | procedure hname hproc =>
    unfold Tree.namesProcedure at hproc
    split at hproc
    · next name definition hshape =>
      rw [hshape] at hname
      cases hname
      simp only [hshape, hproc, if_true]
      rfl
    · cases hproc
  | value hname hvalue =>
    unfold Shape.declaredName? at hname
    split at hname
    · next hshape =>
      cases hname
      simp only [Tree.namesProcedure, hshape] at hvalue
      simp only [hshape, hvalue, Bool.false_eq_true, if_false]
      rfl
    · next hshape =>
      cases hname
      simp only [hshape]
      rfl
    · cases hname
  | found hshape hlookup | missed hshape hlookup =>
    simp only [Scan.arrive] at hlookup
    simp only [hshape, hlookup]
    rfl
  | skip hname hident =>
    cases hshape : s.tree.shape id <;> rw [hshape] at hname hident
    case constant | var => cases hname
    case ident => cases hident
    all_goals rfl

/-- **What a step of the scan does**: it arrives at a node whose scope is known, and takes it. -/
theorem Scan.step_ok_iff {s : Surroundings} {pos stop : Nat} {id : NodeId} {scan scan' : Scan} :
    scan.step s pos stop id = .ok scan'
      ↔ ∃ scope, scopeOfNode s scan.scopeOf id = .ok scope
        ∧ Scan.Takes s pos stop id scope (scan.arrive s pos id scope) scan' :=
  ⟨Scan.takes_of_step, fun ⟨_, hscope, h⟩ => Scan.step_of_takes hscope h⟩

/-! ### The scan -/

/-- What the scan knows at a position: the entries may be used from here on, what waits is listed
before, and every identifier before is bound or missing. -/
structure Scan.Sound (s : Surroundings) (pos : Nat) (scan : Scan) : Prop where
  /-- What may be used is visible at the position. -/
  entries : ∀ e ∈ scan.entries, Visible s.tree s.root pos e.decl
  /-- What waits is a declaration listed before, up to the end of its subtree. -/
  waiting : ∀ e ∈ scan.waiting, ∃ p, (s.tree.preorder s.root)[p]? = some e.decl
    ∧ (s.tree.shape e.decl).isDeclaration = true ∧ e.visibleFrom = p + s.tree.weight e.decl
  /-- An identifier listed before is bound to something visible, or noted as missing. -/
  bound : ∀ k ident name, k < pos → (s.tree.preorder s.root)[k]? = some ident →
    s.tree.shape ident = .ident name →
    (∃ decl, scan.bindings[ident]? = some decl ∧ Visible s.tree s.root k decl)
      ∨ ∃ m ∈ scan.misses, m.1 = ident
  /-- Every node listed before has a parent, apart from the root. -/
  parents : ∀ k id, k < pos → (s.tree.preorder s.root)[k]? = some id → id ≠ s.root →
    s.links.parent? id ≠ none

theorem scopeOfNode_ok {s : Surroundings} {scopeOf : Array (Option NodeId)} {id : NodeId}
    {scope : Option NodeId} (h : scopeOfNode s scopeOf id = .ok scope) (hid : id ≠ s.root) :
    s.links.parent? id ≠ none := by
  unfold scopeOfNode at h
  rw [if_neg hid] at h
  intro hnone
  rw [hnone] at h
  cases h

/-- One step keeps what is known of the positions before. -/
theorem Scan.Sound.later {s : Surroundings} {pos : Nat} {scan scan' : Scan}
    (h : Scan.Sound s pos scan) {id : NodeId} (hid : (s.tree.preorder s.root)[pos]? = some id)
    (hnodup : (s.tree.preorder s.root).Nodup)
    (hentries : ∀ e ∈ scan'.entries, Visible s.tree s.root (pos + 1) e.decl)
    (hwaiting : ∀ e ∈ scan'.waiting, ∃ p, (s.tree.preorder s.root)[p]? = some e.decl
      ∧ (s.tree.shape e.decl).isDeclaration = true ∧ e.visibleFrom = p + s.tree.weight e.decl)
    (hbindings : ∀ x, x ≠ id → scan'.bindings[x]? = scan.bindings[x]?)
    (hmisses : ∀ m ∈ scan.misses, m ∈ scan'.misses)
    (hident : ∀ name, s.tree.shape id = .ident name →
      (∃ decl, scan'.bindings[id]? = some decl ∧ Visible s.tree s.root pos decl)
        ∨ ∃ m ∈ scan'.misses, m.1 = id)
    (hparent : id ≠ s.root → s.links.parent? id ≠ none) : Scan.Sound s (pos + 1) scan' where
  entries := hentries
  waiting := hwaiting
  bound k ident name hk hget hshape := by
    -- The position is one from before, or that of the step.
    rcases Nat.lt_succ_iff_lt_or_eq.1 hk with hk | rfl
    · have hne : ident ≠ id := by
        rintro rfl
        obtain ⟨hpos, -⟩ := List.getElem?_eq_some_iff.1 hid
        exact Nat.ne_of_lt hk
          ((List.getElem?_inj (Nat.lt_trans hk hpos) hnodup).1 (hget.trans hid.symm))
      rw [hbindings ident hne]
      refine (h.bound k ident name hk hget hshape).imp_right ?_
      rintro ⟨m, hm, rfl⟩
      exact ⟨m, hmisses m hm, rfl⟩
    · obtain rfl := Option.some.inj (hget.symm.trans hid)
      exact hident name hshape
  parents k x hk hget := by
    rcases Nat.lt_succ_iff_lt_or_eq.1 hk with hk | rfl
    · exact h.parents k x hk hget
    · obtain rfl := Option.some.inj (hget.symm.trans hid)
      exact hparent

/-- What is released on arriving at a position may be used there; the rest goes on waiting. -/
theorem Scan.Sound.released {s : Surroundings} {pos : Nat} {scan : Scan}
    (h : Scan.Sound s pos scan) :
    (∀ e ∈ (release pos scan.waiting scan.entries).1, ∃ p,
      (s.tree.preorder s.root)[p]? = some e.decl ∧ (s.tree.shape e.decl).isDeclaration = true
        ∧ e.visibleFrom = p + s.tree.weight e.decl)
      ∧ ∀ e ∈ (release pos scan.waiting scan.entries).2, Visible s.tree s.root pos e.decl := by
  obtain ⟨hwaiting, hentries⟩ := release_mem pos scan.waiting scan.entries
  refine ⟨fun e he => h.waiting e (hwaiting e he), fun e he => ?_⟩
  rcases hentries e he with he | ⟨he, hle⟩
  · exact h.entries e he
  · obtain ⟨p, hp, hdecl, hend⟩ := h.waiting e he
    exact ⟨p, hp, hdecl, .inl (hend ▸ hle)⟩

/-- **A step of the scan keeps the invariant**, at a node whose subtree ends where it should. -/
theorem Scan.step_sound {s : Surroundings} {pos : Nat} {scan scan' : Scan}
    (h : Scan.Sound s pos scan) {id : NodeId} (hid : (s.tree.preorder s.root)[pos]? = some id)
    (hnodup : (s.tree.preorder s.root).Nodup)
    (hstep : scan.step s pos (pos + s.tree.weight id) id = .ok scan') :
    Scan.Sound s (pos + 1) scan' := by
  obtain ⟨hwaiting, hvisible⟩ := h.released
  -- What was visible before the position is visible behind it.
  have hentries : ∀ e ∈ (release pos scan.waiting scan.entries).2,
      Visible s.tree s.root (pos + 1) e.decl :=
    fun e he => (hvisible e he).mono (Nat.le_succ _)
  obtain ⟨scope, hscope, htakes⟩ := Scan.step_ok_iff.1 hstep
  have hparent := scopeOfNode_ok hscope
  cases htakes with
  -- A constant that is a procedure is visible from its own position on.
  | procedure hname hproc =>
    refine h.later hid hnodup ?_ hwaiting (fun _ _ => rfl) (fun _ hm => hm)
      (fun name hident => by simp [hident, Shape.declaredName?] at hname) hparent
    intro e he
    rcases List.mem_cons.1 he with rfl | he
    · exact ⟨pos, hid, by simp [Shape.isDeclaration, hname], .inr hproc⟩
    · exact hentries e he
  -- All other declarations wait for their end.
  | value hname hvalue =>
    refine h.later hid hnodup hentries ?_ (fun _ _ => rfl) (fun _ hm => hm)
      (fun name hident => by simp [hident, Shape.declaredName?] at hname) hparent
    intro e he
    rcases List.mem_cons.1 he with rfl | he
    · exact ⟨pos, hid, by simp [Shape.isDeclaration, hname], rfl⟩
    · exact hwaiting e he
  -- A name is bound to an entry, and all entries are visible.
  | @found name decl hshape hfound =>
    obtain ⟨e, he, rfl⟩ := lookupWithin_mem hfound
    refine h.later hid hnodup hentries hwaiting (fun x hx => ?_) (fun _ hm => hm)
      (fun _ _ => .inl ⟨e.decl, by simp, hvisible e he⟩) hparent
    rw [Std.TreeMap.getElem?_insert, if_neg (by simpa using Ne.symm hx)]
    rfl
  | missed hshape _ =>
    exact h.later hid hnodup hentries hwaiting (fun _ _ => rfl) (fun _ hm => .tail _ hm)
      (fun _ _ => .inr ⟨_, .head _, rfl⟩) hparent
  | skip _ hident =>
    exact h.later hid hnodup hentries hwaiting (fun _ _ => rfl) (fun _ hm => hm)
      (fun name hname => by simp [hname, Shape.isIdent] at hident) hparent

/-- The scan keeps its invariant over the rest of a section. -/
theorem Scan.run_sound {s : Surroundings} {sec : Section} {pos : Nat} {rest : List NodeId}
    {scan scan' : Scan} (hnodup : (s.tree.preorder s.root).Nodup)
    (hends : ∀ k x, (s.tree.preorder s.root)[k]? = some x →
      sec.subtreeEnd k = k + s.tree.weight x)
    (hrest : (s.tree.preorder s.root).drop pos = rest) (h : Scan.Sound s pos scan)
    (hrun : Scan.run s sec pos rest scan = .ok scan') :
    Scan.Sound s (pos + rest.length) scan' := by
  induction rest generalizing pos scan with
  | nil =>
    cases hrun
    exact h
  | cons id rest ih =>
    have hid : (s.tree.preorder s.root)[pos]? = some id := by
      rw [← Nat.add_zero pos, ← List.getElem?_drop, hrest]
      rfl
    unfold Scan.run at hrun
    simp only [bind, Except.bind] at hrun
    split at hrun
    · cases hrun
    · next next hnext =>
      rw [hends pos id hid] at hnext
      have hdrop : (s.tree.preorder s.root).drop (pos + 1) = rest := by
        rw [← List.drop_drop, hrest]
        rfl
      have hsound := ih hdrop (Scan.step_sound h hid hnodup hnext) hrun
      rwa [List.length_cons, Nat.add_comm rest.length, ← Nat.add_assoc]

/-! ### Sections -/

variable {t : Tree} {links : Links} {root : NodeId} {r : Resolution}

theorem mapM_nil_of_ok {α β ε : Type} {f : α → Except ε β} {l : List α}
    (h : l.mapM f = .ok []) : l = [] := by
  cases l with
  | nil => rfl
  | cons a l =>
    simp only [List.mapM_cons, bind, Except.bind] at h
    split at h
    · cases h
    · split at h <;> cases h

/-- A section without missing identifiers comes from a scan that missed none. -/
theorem scan_of_ofSection
    (h : ofSection t (Section.ofTree t links root none).2 (Section.ofTree t links root none).1 none
      = .ok r) (hmissing : r.missing = []) (hnodup : (t.preorder root).Nodup) :
    ∃ scan, Scan.Sound ⟨t, (Section.ofTree t links root none).2, root, false⟩
        (t.preorder root).length scan
      ∧ scan.misses = [] ∧ r.bindings = scan.bindings := by
  have hroot : (Section.ofTree t links root none).1.root = root := rfl
  have hnodes := Section.nodes_ofTree t links root none
  unfold ofSection at h
  simp only [bind, Except.bind, hnodes, hroot] at h
  split at h
  · cases h
  split at h
  · cases h
  next scan hscan =>
  split at h
  · cases h
  next missing hmapM =>
  cases h
  obtain rfl : missing = [] := hmissing
  refine ⟨scan, ?_, by simpa using mapM_nil_of_ok hmapM, rfl⟩
  have hsound := Scan.run_sound hnodup (fun k x hx => Section.subtreeEnd_ofTree hx) rfl ?_ hscan
  · simpa using hsound
  · exact ⟨by simp, by simp, fun _ _ _ hk => (Nat.not_lt_zero _ hk).elim,
      fun _ _ hk => (Nat.not_lt_zero _ hk).elim⟩

/-- **Every identifier of a section without missing identifiers is bound to a declaration that is
visible where it stands.** -/
theorem bound_of_ofSection
    (h : ofSection t (Section.ofTree t links root none).2 (Section.ofTree t links root none).1 none
      = .ok r) (hmissing : r.missing = []) (hnodup : (t.preorder root).Nodup) {k : Nat}
    {ident : NodeId} {name : String} (hk : (t.preorder root)[k]? = some ident)
    (hident : t.shape ident = .ident name) :
    ∃ decl, r.declaration? ident = some decl ∧ Visible t root k decl := by
  obtain ⟨scan, hscan, hmisses, hbindings⟩ := scan_of_ofSection h hmissing hnodup
  have hlt : k < (t.preorder root).length := (List.getElem?_eq_some_iff.1 hk).1
  rcases hscan.bound k ident name hlt hk hident with hbound | ⟨m, hm, -⟩
  · unfold declaration?
    rw [hbindings]
    exact hbound
  · rw [hmisses] at hm
    cases hm

/-! ### Uses in order -/

mutual

/-- Every identifier below a node is bound to a declaration from `done`, to one below the node that
comes before it, or to a constant that is a procedure. -/
inductive Served (t : Tree) (r : Resolution) : (NodeId → Prop) → NodeId → Prop
  /-- The node itself is bound as it should be, and so is what is below it. -/
  | node {done : NodeId → Prop} {id : NodeId}
      (hident : ∀ name, t.shape id = .ident name →
        ∃ decl, r.declaration? id = some decl ∧ (done decl ∨ t.namesProcedure decl = true))
      (hchildren : ServedAll t r done (t.children id)) : Served t r done id

/-- The same of siblings, each of which comes before the next one. -/
inductive ServedAll (t : Tree) (r : Resolution) : (NodeId → Prop) → List NodeId → Prop
  /-- There are no siblings. -/
  | nil {done : NodeId → Prop} : ServedAll t r done []
  /-- The first sibling is served, and for the others its declarations are done as well. -/
  | cons {done : NodeId → Prop} {x : NodeId} {xs : List NodeId} (h : Served t r done x)
      (hrest : ServedAll t r (fun d => done d ∨ d ∈ t.preorder x) xs) :
      ServedAll t r done (x :: xs)

end

/-- The declarations that have been left at position `k` of the section of `root`. -/
def LeftAt (t : Tree) (root : NodeId) (k : Nat) (d : NodeId) : Prop :=
  ∃ p, (t.preorder root)[p]? = some d ∧ p + t.weight d ≤ k

/-- What has been left where a child begins has been left where its parent begins, or is below one
of the children before it. -/
theorem leftAt_child {k : Nat} {id c : NodeId} {before after : List NodeId} {d : NodeId}
    (hid : (t.preorder root)[k]? = some id) (hchildren : t.children id = before ++ c :: after)
    (hd : LeftAt t root (k + 1 + (before.flatMap t.preorder).length) d) :
    LeftAt t root k d ∨ d ∈ before.flatMap t.preorder := by
  obtain ⟨p, hp, hend⟩ := hd
  have hweight := t.weight_pos d
  have hbelow : k + 1 + (before.flatMap t.preorder).length < k + t.weight id := by
    have hc := t.weight_pos c
    unfold Tree.weight at *
    rw [t.preorder_eq id, hchildren, List.flatMap_append, List.flatMap_cons]
    simp only [List.length_cons, List.length_append]
    omega
  rcases Nat.lt_trichotomy p k with hpk | rfl | hpk
  · refine .inl ⟨p, hp, Nat.le_of_not_lt fun hlt => ?_⟩
    have hnested := t.nested hp hid (Nat.le_of_lt hpk) hlt
    omega
  · obtain rfl := Option.some.inj (hp.symm.trans hid)
    omega
  · -- The positions between are those of the children before.
    right
    have hget := t.getElem?_preorder_add hid (j := p - k) (by omega)
    rw [Nat.add_sub_cancel' (Nat.le_of_lt hpk), hp, t.preorder_eq id, hchildren,
      List.flatMap_append] at hget
    obtain ⟨j, hj⟩ : ∃ j, p - k = j + 1 := ⟨p - k - 1, by omega⟩
    rw [hj, List.getElem?_cons_succ, List.getElem?_append_left (by omega)] at hget
    exact List.mem_of_getElem? hget.symm

/-- Where identifiers are bound to visible declarations, every subtree is served. -/
theorem served_of_visible (r : Resolution)
    (hbound : ∀ k ident name, (t.preorder root)[k]? = some ident → t.shape ident = .ident name →
      ∃ decl, r.declaration? ident = some decl ∧ Visible t root k decl)
    {k : Nat} {id : NodeId} (hid : (t.preorder root)[k]? = some id) {done : NodeId → Prop}
    (hdone : ∀ d, LeftAt t root k d → done d) : Served t r done id := by
  induction id using Nat.strongRecOn generalizing k done with
  | ind id ih =>
    refine .node (fun name hname => ?_) ?_
    · obtain ⟨decl, hdecl, p, hp, -, hend⟩ := hbound k id name hid hname
      exact ⟨decl, hdecl, hend.imp_left fun hend => hdone decl ⟨p, hp, hend⟩⟩
    · -- Along the children, with those already served in `before`.
      have hall : ∀ (after before : List NodeId), t.children id = before ++ after →
          ServedAll t r (fun d => done d ∨ d ∈ before.flatMap t.preorder) after := by
        intro after
        induction after with
        | nil => exact fun _ _ => .nil
        | cons c after ihafter =>
          intro before hchildren
          have hc : (t.preorder root)[k + 1 + (before.flatMap t.preorder).length]? = some c := by
            have hlt : 1 + (before.flatMap t.preorder).length < t.weight id := by
              have hc := t.weight_pos c
              unfold Tree.weight at *
              rw [t.preorder_eq id, hchildren, List.flatMap_append, List.flatMap_cons]
              simp only [List.length_cons, List.length_append]
              omega
            rw [Nat.add_assoc, t.getElem?_preorder_add hid hlt, t.preorder_eq id, hchildren,
              List.flatMap_append, List.flatMap_cons, Nat.add_comm 1, List.getElem?_cons_succ,
              List.getElem?_append_right (Nat.le_refl _), Nat.sub_self, t.preorder_eq c]
            rfl
          refine .cons (ih c (t.child_lt (by rw [hchildren]; simp)) hc fun d hd => ?_) ?_
          · exact (leftAt_child hid hchildren hd).imp_left (hdone d)
          · have hrest := ihafter (before ++ [c]) (by rw [hchildren, List.append_assoc]; rfl)
            simpa [or_assoc] using hrest
      simpa using hall (t.children id) [] rfl

/-- **Uses come in order**: every identifier of a section without missing identifiers is bound to a
declaration that has been left before, or to a constant that is a procedure. -/
theorem served_of_ofSection
    (h : ofSection t (Section.ofTree t links root none).2 (Section.ofTree t links root none).1 none
      = .ok r) (hmissing : r.missing = []) (hnodup : (t.preorder root).Nodup) :
    Served t r (fun _ => False) root := by
  refine served_of_visible (k := 0) r
    (fun k ident name hk hident => bound_of_ofSection h hmissing hnodup hk hident) ?_ ?_
  · rw [t.preorder_eq]
    rfl
  · rintro d ⟨p, -, hend⟩
    have hweight := t.weight_pos d
    omega

/-- Every node of a resolved section but its root has a parent. -/
theorem hasParent_of_ofSection
    (h : ofSection t (Section.ofTree t links root none).2 (Section.ofTree t links root none).1 none
      = .ok r) (hmissing : r.missing = []) (hnodup : (t.preorder root).Nodup) {id : NodeId}
    (hid : id ∈ t.preorder root) (hroot : id ≠ root) :
    (Section.ofTree t links root none).2.parent? id ≠ none := by
  obtain ⟨scan, hscan, -, -⟩ := scan_of_ofSection h hmissing hnodup
  obtain ⟨k, hlt, rfl⟩ := List.getElem_of_mem hid
  exact hscan.parents k _ hlt (List.getElem?_eq_getElem hlt) hroot

end Resolution

/-! ### Callees -/

/-- What a declaration is defined with: the definition of a constant, or the initial value of a
variable. -/
def Tree.definition? (t : Tree) (decl : NodeId) : Option NodeId :=
  match t.shape decl with
  | .constant _ definition => some definition
  | .var _ _ init => init
  | _ => none

theorem Tree.child_of_definition? {t : Tree} {decl e : NodeId} (h : t.definition? decl = some e) :
    e ∈ t.children decl := by
  unfold definition? at h
  split at h <;> simp_all [children, Shape.children]

namespace Resolution

variable {t : Tree} {r r' : Resolution} {callee : NodeId}

variable (t r) in
/-- A callee that is a name leads to what its declaration is defined with. -/
def Leads (e callee : NodeId) : Prop :=
  ∃ name decl, t.shape (t.ungroup callee) = .ident name
    ∧ r.declaration? (t.ungroup callee) = some decl ∧ t.definition? decl = some e

theorem leads_congr (h : r'.declaration? (t.ungroup callee) = r.declaration? (t.ungroup callee))
    {e : NodeId} : r'.Leads t e callee ↔ r.Leads t e callee := by
  unfold Leads
  rw [h]

/-- **One step of the search**: a callee is a procedure itself, or it has that of what its name
leads to. -/
theorem targetWithin?_succ (steps : Nat) :
    targetWithin? t r (steps + 1) callee
      = if (t.shape (t.ungroup callee)).isProcedure then some (t.ungroup callee)
        else if (t.shape (t.ungroup callee)).isIdent then
          (r.declaration? (t.ungroup callee)).bind fun decl =>
            (t.definition? decl).bind (targetWithin? t r steps)
        else none := by
  cases hshape : t.shape (t.ungroup callee)
  case ident name =>
    simp only [targetWithin?, hshape, Shape.isProcedure, Shape.isIdent, Bool.false_eq_true,
      if_false, if_true]
    refine Option.bind_congr fun decl _ => ?_
    cases hdecl : t.shape decl <;> simp [Tree.definition?, hdecl]
  all_goals simp [targetWithin?, hshape, Shape.isProcedure, Shape.isIdent]

theorem targetWithin?_succ_iff {steps : Nat} {p : NodeId} :
    targetWithin? t r (steps + 1) callee = some p
      ↔ t.ungroup callee = p ∧ (t.shape p).isProcedure = true
        ∨ ∃ e, r.Leads t e callee ∧ targetWithin? t r steps e = some p := by
  rw [targetWithin?_succ]
  constructor
  · intro h
    split at h
    · next hproc =>
      obtain rfl := Option.some.inj h
      exact .inl ⟨rfl, hproc⟩
    · split at h
      · next hident =>
        obtain ⟨decl, hbound, h⟩ := Option.bind_eq_some_iff.1 h
        obtain ⟨e, hdefinition, h⟩ := Option.bind_eq_some_iff.1 h
        obtain ⟨name, hname⟩ := Shape.exists_of_isIdent hident
        exact .inr ⟨e, ⟨name, decl, hname, hbound, hdefinition⟩, h⟩
      · cases h
  · rintro (⟨rfl, hproc⟩ | ⟨e, ⟨name, decl, hname, hbound, hdefinition⟩, h⟩)
    · rw [if_pos hproc]
    · simp [hname, Shape.isProcedure, Shape.isIdent, hbound, hdefinition, h]

/-- What has no name, or one that is not bound, is a procedure itself or has none. -/
theorem targetWithin?_unbound {steps : Nat} (h : ∀ e, ¬r.Leads t e callee) :
    targetWithin? t r (steps + 1) callee
      = if (t.shape (t.ungroup callee)).isProcedure then some (t.ungroup callee) else none := by
  ext p
  rw [targetWithin?_succ_iff, or_iff_left (by simp [h]), Option.ite_none_right_eq_some,
    Option.some.injEq, and_comm]
  exact and_congr_left fun heq => by rw [heq]

/-- More bindings lead to more procedures. -/
theorem targetWithin?_mono (h : ∀ x d, r'.declaration? x = some d → r.declaration? x = some d)
    {steps : Nat} {e p : NodeId} (hp : targetWithin? t r' steps e = some p) :
    targetWithin? t r steps e = some p := by
  induction steps generalizing e with
  | zero => cases hp
  | succ steps ih =>
    rw [targetWithin?_succ_iff] at hp ⊢
    rcases hp with hself | ⟨e', ⟨name, decl, hident, hbound, hdefinition⟩, hp⟩
    · exact .inl hself
    · exact .inr ⟨e', ⟨name, decl, hident, h _ _ hbound, hdefinition⟩, ih hp⟩

/-- A callee denotes nothing but procedures. -/
theorem isProcedure_of_target {target : NodeId} (h : r.procedureTarget? t callee = some target) :
    (t.shape target).isProcedure = true := by
  unfold procedureTarget? at h
  generalize t.size + 1 = steps at h
  induction steps generalizing callee with
  | zero => cases h
  | succ steps ih =>
    rcases targetWithin?_succ_iff.1 h with ⟨-, hproc⟩ | ⟨e, -, h⟩
    · exact hproc
    · exact ih h

end Resolution

end MiddleEnd
