import Mathlib.Data.List.Basic
import MiddleEnd.Proofs.Resolution.Visibility

/-!
# What a resolution says

The outcome of a scan over a section in terms of the tree: which entries it lists, which declaration
each identifier is bound to, and what it reports of the others.  The scan starts from a base of
entries and its searches may go on beyond the root, so that this holds of a section inside another
one as well.

## Main definitions

* `Resolution.Finds` — the declaration that an identifier finds where it stands.
* `Resolution.Scan.Tables`, `Resolution.Scan.Answers` — the invariant of the scan: its tables, and
  what it has said of the identifiers so far.
* `Resolution.Exact` — what a resolution says.

## Main results

* `Resolution.Scan.step_exact` — a step succeeds and keeps the invariant.
* `Resolution.Scan.run_exact` — a scan succeeds and keeps it.
* `Resolution.exact_of_regular` — a section is resolved exactly.
-/

namespace MiddleEnd

/-- A parent is listed before its child. -/
theorem Tree.position_lt_of_child {t : Tree} {root x y : NodeId} (hnodup : (t.preorder root).Nodup)
    (hy : y ∈ t.preorder root) (hx : x ∈ t.children y) :
    t.position root y < t.position root x := by
  have hinside := t.child_mem_preorder hx
  have hmem := t.mem_preorder_trans hy hinside
  have hplace := ((Tree.mem_preorder_iff_position hnodup hy hmem).1 hinside).1
  refine Nat.lt_of_le_of_ne hplace fun heq => ?_
  exact Nat.ne_of_gt (t.child_lt hx) (Tree.position_inj hy heq)

namespace Resolution

/-- `found` is what the identifier `x` finds under `name` where it stands: the first answer along
the scopes around it and those of `tail`, from the entries listed there and those of `base`. -/
def Finds (t : Tree) (root : NodeId) (base : List Entry) (tail : List NodeId) (x : NodeId)
    (name : String) (found : Option NodeId) : Prop :=
  ∃ own, Listed t root (t.position root x) (t.position root x + 1) own
    ∧ found = firstOf? (own ++ base) name (t.scopesAround root x ++ tail)

/-- The identifiers of a list without a binding, with their scopes and names. -/
def unboundOf (t : Tree) (root : NodeId) (bindings : Std.TreeMap NodeId NodeId)
    (nodes : List NodeId) : List (NodeId × Option NodeId × String) :=
  nodes.filterMap fun x =>
    match t.shape x with
    | .ident name => if bindings[x]? = none then some (x, t.scopeOf? root x, name) else none
    | _ => none

theorem unboundOf_cons (t : Tree) (root : NodeId) (bindings : Std.TreeMap NodeId NodeId)
    (x : NodeId) (nodes : List NodeId) : unboundOf t root bindings (x :: nodes)
      = unboundOf t root bindings [x] ++ unboundOf t root bindings nodes := by
  unfold unboundOf
  rw [← List.filterMap_append, List.singleton_append]

theorem unboundOf_of_none {t : Tree} {root x : NodeId} {bindings : Std.TreeMap NodeId NodeId}
    {name : String} (hshape : t.shape x = .ident name) (hnone : bindings[x]? = none) :
    unboundOf t root bindings [x] = [(x, t.scopeOf? root x, name)] := by
  simp only [unboundOf, List.filterMap_cons, List.filterMap_nil, hshape, hnone, if_true]

theorem unboundOf_of_some {t : Tree} {root x decl : NodeId} {bindings : Std.TreeMap NodeId NodeId}
    {name : String} (hshape : t.shape x = .ident name) (hsome : bindings[x]? = some decl) :
    unboundOf t root bindings [x] = [] := by
  simp only [unboundOf, List.filterMap_cons, List.filterMap_nil, hshape, hsome, reduceCtorEq,
    if_false]

theorem unboundOf_of_other {t : Tree} {root x : NodeId} (bindings : Std.TreeMap NodeId NodeId)
    (hother : ∀ name, t.shape x ≠ .ident name) : unboundOf t root bindings [x] = [] := by
  cases hshape : t.shape x <;>
    simp only [unboundOf, List.filterMap_cons, List.filterMap_nil, hshape]
  exact (hother _ hshape).elim

variable {s : Surroundings} {base : List Entry} {tail : List NodeId}

/-- The tables of a scan that has listed the declarations before position `n` as far as they are
visible before `u`, and knows the scopes of the nodes before `u`. -/
structure Scan.Tables (s : Surroundings) (base : List Entry) (n u : Nat) (scan : Scan) : Prop where
  /-- The entries are those of the section in front of those from around it. -/
  own : ∃ own, scan.entries = own ++ base ∧ Listed s.tree s.root n u own
  /-- What waits becomes visible later. -/
  waiting : Waits s.tree s.root n u scan.waiting
  /-- There is room for the scope of every node. -/
  size : scan.scopeOf.size = s.tree.size
  /-- The scope of each node listed before is known. -/
  scopeOf : ∀ x ∈ s.tree.preorder s.root, s.tree.position s.root x < u → x ≠ s.root →
    scan.scopeOf[x]? = some (s.tree.scopeOf? s.root x)
  /-- The position of each scope listed before is known. -/
  scopePositions : ∀ x ∈ s.tree.preorder s.root, s.tree.position s.root x < u →
    s.tree.isScope x = true → scan.scopePositions[x]? = some (s.tree.position s.root x)

/-- What a scan has said of the identifiers before position `pos`. -/
structure Scan.Answers (s : Surroundings) (base : List Entry) (tail : List NodeId) (pos : Nat)
    (scan : Scan) : Prop where
  /-- An identifier listed before is bound to what a search finds, or not at all. -/
  bound : ∀ x ∈ s.tree.preorder s.root, s.tree.position s.root x < pos → ∀ name,
    s.tree.shape x = .ident name → Finds s.tree s.root base tail x name scan.bindings[x]?
  /-- Nothing else is bound. -/
  idents : ∀ x, scan.bindings[x]? ≠ none → x ∈ s.tree.preorder s.root
    ∧ s.tree.position s.root x < pos ∧ ∃ name, s.tree.shape x = .ident name
  /-- The identifiers that are not bound are noted in order. -/
  misses : scan.misses.reverse
    = unboundOf s.tree s.root scan.bindings ((s.tree.preorder s.root).take pos)

/-! ### Steps -/

/-- The scope of a node is that of the tree; the root is in itself. -/
theorem Scan.Tables.scopeOfNode_eq {scan : Scan} {n u : Nat} (hs : s.Regular tail)
    (h : scan.Tables s base n u) {id : NodeId} (hid : id ∈ s.tree.preorder s.root)
    (hu : s.tree.position s.root id ≤ u) :
    scopeOfNode s scan.scopeOf id
      = .ok (if id = s.root then some s.root else s.tree.scopeOf? s.root id) := by
  unfold scopeOfNode
  split
  · next hroot => rw [hroot]
  · next hroot =>
    obtain ⟨y, hy, hxy⟩ := Tree.exists_parent hid hroot
    rw [hs.links y hy id hxy, Tree.scopeOf?_child hs.nodup hy hxy]
    simp only
    split
    · rfl
    · next hscope =>
      have hne : y ≠ s.root := fun h => hscope (h ▸ hs.root_scope)
      have hlt := Tree.position_lt_of_child hs.nodup hy hxy
      rw [h.scopeOf y hy (Nat.lt_of_lt_of_le hlt hu) hne]
      rfl

theorem Scan.Tables.arrive {scan : Scan} {id : NodeId} (hs : s.Regular tail)
    (hid : id ∈ s.tree.preorder s.root)
    (h : scan.Tables s base (s.tree.position s.root id) (s.tree.position s.root id)) :
    (scan.arrive s (s.tree.position s.root id) id
        (if id = s.root then some s.root else s.tree.scopeOf? s.root id)).Tables s base
      (s.tree.position s.root id) (s.tree.position s.root id + 1) := by
  -- What becomes visible at the position comes before the older entries.
  obtain ⟨own, hentries, hown⟩ := h.own
  have hrelease := release_eq (s.tree.position s.root id)
    (h.waiting.inner.imp fun hinner => hinner.1) scan.entries
  have hlt : id < scan.scopeOf.size := by
    rw [h.size]
    exact Nat.lt_of_le_of_lt (s.tree.le_of_mem_preorder hid)
      (Tree.lt_size_of_isScope hs.root_scope)
  constructor
  · refine ⟨_, ?_, release_listed hown h.waiting⟩
    simp only [Scan.arrive]
    rw [hrelease, hentries, List.append_assoc]
  · simp only [Scan.arrive, hrelease]
    exact release_waits h.waiting
  · simp [Scan.arrive, h.size]
  · -- The scope of the node is entered now, that of an earlier node stays.
    intro x hx hpos hne
    simp only [Scan.arrive]
    rcases (position_lt_succ_iff hx).1 hpos with hpos | rfl
    · have hidx : id ≠ x := fun h => Nat.lt_irrefl _ (h ▸ hpos)
      rw [Array.getElem?_setIfInBounds_ne hidx, h.scopeOf x hx hpos hne]
    · rw [Array.getElem?_setIfInBounds_self_of_lt hlt, if_neg hne]
  · -- So it is for the positions of the scopes.
    intro x hx hpos hscope
    simp only [Scan.arrive]
    rcases (position_lt_succ_iff hx).1 hpos with hpos | rfl
    · have hidx : id ≠ x := fun h => Nat.lt_irrefl _ (h ▸ hpos)
      split
      · rw [Std.TreeMap.getElem?_insert, if_neg (by simpa using hidx),
          h.scopePositions x hx hpos hscope]
      · exact h.scopePositions x hx hpos hscope
    · rw [if_pos hscope, Std.TreeMap.getElem?_insert_self]

/-- Nodes that are no declarations change no table. -/
theorem Scan.Tables.skip {scan : Scan} {id : NodeId}
    (h : scan.Tables s base (s.tree.position s.root id) (s.tree.position s.root id + 1))
    (hskip : (s.tree.shape id).declaredName? = none) :
    scan.Tables s base (s.tree.position s.root id + 1) (s.tree.position s.root id + 1) where
  own := by
    obtain ⟨own, hentries, hown⟩ := h.own
    exact ⟨own, hentries, hown.skip (.inl hskip)⟩
  waiting := h.waiting.skip (.inl hskip)
  size := h.size
  scopeOf := h.scopeOf
  scopePositions := h.scopePositions

/-- A declaration that names a procedure is listed. -/
theorem Scan.Tables.procedure {scan : Scan} {id : NodeId} {e : Entry}
    (h : scan.Tables s base (s.tree.position s.root id) (s.tree.position s.root id + 1))
    (hproc : s.tree.namesProcedure id = true) (he : IsEntry s.tree s.root e) (hdecl : e.decl = id) :
    Scan.Tables s base (s.tree.position s.root id + 1) (s.tree.position s.root id + 1)
      { scan with entries := e :: scan.entries } where
  own := by
    obtain ⟨own, hentries, hown⟩ := h.own
    exact ⟨e :: own, by simp [hentries], hown.procedure hproc he hdecl⟩
  waiting := h.waiting.skip (.inr hproc)
  size := h.size
  scopeOf := h.scopeOf
  scopePositions := h.scopePositions

/-- Any other declaration waits. -/
theorem Scan.Tables.push {scan : Scan} {id : NodeId} {e : Entry} (hs : s.Regular tail)
    (h : scan.Tables s base (s.tree.position s.root id) (s.tree.position s.root id + 1))
    (hvalue : s.tree.namesProcedure id = false) (he : IsEntry s.tree s.root e)
    (hdecl : e.decl = id) :
    Scan.Tables s base (s.tree.position s.root id + 1) (s.tree.position s.root id + 1)
      { scan with waiting := e :: scan.waiting } where
  own := by
    obtain ⟨own, hentries, hown⟩ := h.own
    exact ⟨own, hentries, hown.skip (.inr hvalue)⟩
  waiting := h.waiting.push hs.nodup hvalue he hdecl
  size := h.size
  scopeOf := h.scopeOf
  scopePositions := h.scopePositions

/-- What is said of one more node. -/
theorem Scan.Answers.next {scan scan' : Scan} {id : NodeId} (hs : s.Regular tail)
    (h : scan.Answers s base tail (s.tree.position s.root id)) (hid : id ∈ s.tree.preorder s.root)
    (hothers : ∀ x, x ≠ id → scan'.bindings[x]? = scan.bindings[x]?)
    (hbound : ∀ name, s.tree.shape id = .ident name →
      Finds s.tree s.root base tail id name scan'.bindings[id]?)
    (hidents : scan'.bindings[id]? ≠ none → ∃ name, s.tree.shape id = .ident name)
    (hmisses : scan'.misses.reverse
      = scan.misses.reverse ++ unboundOf s.tree s.root scan'.bindings [id]) :
    scan'.Answers s base tail (s.tree.position s.root id + 1) where
  bound x hx hpos name hname := by
    rcases (position_lt_succ_iff hx).1 hpos with hpos | rfl
    · rw [hothers x fun h => Nat.lt_irrefl _ (h ▸ hpos)]
      exact h.bound x hx hpos name hname
    · exact hbound name hname
  idents x hx := by
    by_cases hxid : x = id
    · rw [hxid] at hx ⊢
      exact ⟨hid, Nat.lt_succ_self _, hidents hx⟩
    · rw [hothers x hxid] at hx
      obtain ⟨hmem, hpos, hname⟩ := h.idents x hx
      exact ⟨hmem, Nat.lt_succ_of_lt hpos, hname⟩
  misses := by
    have hget := Tree.getElem?_position hid
    rw [List.take_add_one, hget, hmisses, h.misses]
    unfold unboundOf
    rw [List.filterMap_append]
    congr 1
    apply List.filterMap_congr
    intro x hx
    -- No node before is the one at this position.
    obtain ⟨k, hk⟩ := List.mem_iff_getElem?.1 hx
    have hlt : k < s.tree.position s.root id := by
      have hlength := (List.getElem?_eq_some_iff.1 hk).1
      rw [List.length_take] at hlength
      omega
    rw [List.getElem?_take_of_lt hlt] at hk
    have hne : x ≠ id := by
      rintro rfl
      rw [Tree.position_eq hs.nodup hk] at hlt
      exact Nat.lt_irrefl _ hlt
    simp only [hothers x hne]

/-- Nothing has been said yet of the node that comes next. -/
theorem Scan.Answers.fresh {scan : Scan} {id : NodeId}
    (h : scan.Answers s base tail (s.tree.position s.root id)) : scan.bindings[id]? = none :=
  Decidable.byContradiction fun hsome => Nat.lt_irrefl _ (h.idents id hsome).2.1

/-- Nothing is said of a node that is no identifier. -/
theorem Scan.Answers.keep {scan scan' : Scan} {id : NodeId} (hs : s.Regular tail)
    (h : scan.Answers s base tail (s.tree.position s.root id)) (hid : id ∈ s.tree.preorder s.root)
    (hother : ∀ name, s.tree.shape id ≠ .ident name) (hbindings : scan'.bindings = scan.bindings)
    (hmisses : scan'.misses = scan.misses) :
    scan'.Answers s base tail (s.tree.position s.root id + 1) := by
  refine h.next hs hid (fun _ _ => by rw [hbindings])
    (fun name hname => (hother name hname).elim) (fun hsome => ?_) ?_
  · rw [hbindings] at hsome
    exact (hsome h.fresh).elim
  · rw [hmisses, unboundOf_of_other _ hother, List.append_nil]

/-- An identifier is bound to what a search from it finds. -/
theorem Scan.Answers.found {scan scan' : Scan} {id decl : NodeId} {name : String}
    (hs : s.Regular tail) (h : scan.Answers s base tail (s.tree.position s.root id))
    (hid : id ∈ s.tree.preorder s.root) (hshape : s.tree.shape id = .ident name)
    (hfinds : Finds s.tree s.root base tail id name (some decl))
    (hbindings : scan'.bindings = scan.bindings.insert id decl)
    (hmisses : scan'.misses = scan.misses) :
    scan'.Answers s base tail (s.tree.position s.root id + 1) := by
  have hself : scan'.bindings[id]? = some decl := by
    rw [hbindings, Std.TreeMap.getElem?_insert_self]
  refine h.next hs hid (fun x hx => ?_) (fun name' hname' => ?_) (fun _ => ⟨name, hshape⟩) ?_
  · rw [hbindings, Std.TreeMap.getElem?_insert, if_neg (by simpa using Ne.symm hx)]
  · obtain rfl := Shape.ident.inj (hshape.symm.trans hname')
    rw [hself]
    exact hfinds
  · rw [hmisses, unboundOf_of_some hshape hself, List.append_nil]

/-- An identifier for which a search finds nothing is noted with its scope. -/
theorem Scan.Answers.missed {scan scan' : Scan} {id : NodeId} {name : String}
    (hs : s.Regular tail) (h : scan.Answers s base tail (s.tree.position s.root id))
    (hid : id ∈ s.tree.preorder s.root) (hshape : s.tree.shape id = .ident name)
    (hfinds : Finds s.tree s.root base tail id name none)
    (hbindings : scan'.bindings = scan.bindings)
    (hmisses : scan'.misses = (id, s.tree.scopeOf? s.root id, name) :: scan.misses) :
    scan'.Answers s base tail (s.tree.position s.root id + 1) := by
  have hself : scan'.bindings[id]? = none := by rw [hbindings, h.fresh]
  refine h.next hs hid (fun _ _ => by rw [hbindings]) (fun name' hname' => ?_)
    (fun _ => ⟨name, hshape⟩) ?_
  · obtain rfl := Shape.ident.inj (hshape.symm.trans hname')
    rw [hself]
    exact hfinds
  · rw [hmisses, unboundOf_of_none hshape hself, List.reverse_cons]

/-- **A step of the scan succeeds and keeps its tables and answers exact.** -/
theorem Scan.step_exact {scan : Scan} {id : NodeId} (hs : s.Regular tail)
    (hid : id ∈ s.tree.preorder s.root)
    (htables : scan.Tables s base (s.tree.position s.root id) (s.tree.position s.root id))
    (hanswers : scan.Answers s base tail (s.tree.position s.root id)) :
    ∃ scan', scan.step s (s.tree.position s.root id)
        (s.tree.position s.root id + s.tree.weight id) id = .ok scan'
      ∧ scan'.Tables s base (s.tree.position s.root id + 1) (s.tree.position s.root id + 1)
      ∧ scan'.Answers s base tail (s.tree.position s.root id + 1) := by
  have hscope := htables.scopeOfNode_eq hs hid (Nat.le_refl _)
  have harrive := htables.arrive hs hid
  -- The scope that is recorded is that of the tree for every node but the root.
  have hrecorded (hno : s.tree.isScope id = false) :
      (if id = s.root then some s.root else s.tree.scopeOf? s.root id)
        = s.tree.scopeOf? s.root id := by
    refine if_neg fun hroot => ?_
    rw [hroot, hs.root_scope] at hno
    cases hno
  generalize (if id = s.root then some s.root else s.tree.scopeOf? s.root id) = scope
    at hscope harrive hrecorded
  suffices htakes : ∃ scan', Scan.Takes s (s.tree.position s.root id)
        (s.tree.position s.root id + s.tree.weight id) id scope
        (scan.arrive s (s.tree.position s.root id) id scope) scan'
      ∧ scan'.Tables s base (s.tree.position s.root id + 1) (s.tree.position s.root id + 1)
      ∧ scan'.Answers s base tail (s.tree.position s.root id + 1) by
    obtain ⟨scan', htakes, hexact⟩ := htakes
    exact ⟨scan', Scan.step_ok_iff.2 ⟨scope, hscope, htakes⟩, hexact⟩
  cases hname : (s.tree.shape id).declaredName? with
  | some name =>
    have hrecorded := hrecorded (Shape.not_isScope_of_declaredName? hname)
    have hother (name' : String) : s.tree.shape id ≠ .ident name' := fun hident => by
      simp [hident, Shape.declaredName?] at hname
    cases hproc : s.tree.namesProcedure id with
    | true =>
      exact ⟨_, .procedure hname hproc, harrive.procedure hproc
        ⟨hid, hname, hrecorded, (Tree.visibleFrom_of_procedure hproc).symm⟩ rfl,
        hanswers.keep hs hid hother rfl rfl⟩
    | false =>
      exact ⟨_, .value hname hproc, harrive.push hs hproc
        ⟨hid, hname, hrecorded, (Tree.visibleFrom_of_value hproc).symm⟩ rfl,
        hanswers.keep hs hid hother rfl rfl⟩
  | none =>
    have hskip := harrive.skip hname
    cases hident : (s.tree.shape id).isIdent with
    | false =>
      refine ⟨_, .skip hname hident, hskip, hanswers.keep hs hid (fun name hshape => ?_) rfl rfl⟩
      simp [hshape, Shape.isIdent] at hident
    | true =>
      obtain ⟨name, hshape⟩ := Shape.exists_of_isIdent hident
      have hno := Shape.not_isScope_of_isExpr (Shape.isExpr_of_isIdent hident)
      have hne : id ≠ s.root := by
        rintro rfl
        exact Bool.false_ne_true (hno.symm.trans hs.root_scope)
      obtain ⟨own, hentries, hown⟩ := harrive.own
      -- The lookup sees exactly the declarations that are visible at this position.
      have hfinds : Finds s.tree s.root base tail id name
          (firstOf? (own ++ base) name (s.tree.scopesAround s.root id ++ tail)) := ⟨own, hown, rfl⟩
      have hlookup : lookup s (scan.arrive s (s.tree.position s.root id) id scope).entries scope id
          name = .ok (firstOf? (own ++ base) name (s.tree.scopesAround s.root id ++ tail)) := by
        rw [hentries, hrecorded hno]
        exact hs.lookup_eq hid hne _ _
      cases hfound : firstOf? (own ++ base) name (s.tree.scopesAround s.root id ++ tail) with
      | some decl =>
        rw [hfound] at hlookup hfinds
        exact ⟨_, .found hshape hlookup,
          ⟨hskip.own, hskip.waiting, hskip.size, hskip.scopeOf, hskip.scopePositions⟩,
          hanswers.found hs hid hshape hfinds rfl rfl⟩
      | none =>
        rw [hfound] at hlookup hfinds
        exact ⟨_, .missed hshape hlookup,
          ⟨hskip.own, hskip.waiting, hskip.size, hskip.scopeOf, hskip.scopePositions⟩,
          hanswers.missed hs hid hshape hfinds rfl (by rw [hrecorded hno]; rfl)⟩

/-- **A scan succeeds and keeps its tables and answers exact.** -/
theorem Scan.run_exact {sec : Section} {pos : Nat} {rest : List NodeId} {scan : Scan}
    (hs : s.Regular tail)
    (hends : ∀ k x, (s.tree.preorder s.root)[k]? = some x →
      sec.subtreeEnd k = k + s.tree.weight x)
    (hrest : (s.tree.preorder s.root).drop pos = rest) (htables : scan.Tables s base pos pos)
    (hanswers : scan.Answers s base tail pos) :
    ∃ scan', Scan.run s sec pos rest scan = .ok scan'
      ∧ scan'.Tables s base (pos + rest.length) (pos + rest.length)
      ∧ scan'.Answers s base tail (pos + rest.length) := by
  induction rest generalizing pos scan with
  | nil => exact ⟨scan, rfl, htables, hanswers⟩
  | cons id rest ih =>
    have hid : (s.tree.preorder s.root)[pos]? = some id := by
      rw [← Nat.add_zero pos, ← List.getElem?_drop, hrest]
      rfl
    have hdrop : (s.tree.preorder s.root).drop (pos + 1) = rest := by
      rw [← List.drop_drop, hrest]
      rfl
    obtain rfl := Tree.position_eq hs.nodup hid
    obtain ⟨next, hstep, htables, hanswers⟩ :=
      Scan.step_exact hs (List.mem_of_getElem? hid) htables hanswers
    obtain ⟨scan', hrun, htables, hanswers⟩ := ih hdrop htables hanswers
    rw [List.length_cons, Nat.add_comm rest.length, ← Nat.add_assoc]
    refine ⟨scan', ?_, htables, hanswers⟩
    unfold Scan.run
    rw [hends _ id hid, hstep]
    exact hrun

/-! ### Sections -/

/-- What the resolution of the section of `root` says, if its searches start from the entries of
`base` and go on from the root to the scopes of `tail`. -/
structure Exact (t : Tree) (root : NodeId) (base : List Entry) (tail : List NodeId)
    (r : Resolution) : Prop where
  /-- The entries are those of the section in front of those from around it. -/
  own : ∃ own, r.entries = own ++ base ∧ Listed t root (t.weight root) (t.weight root + 1) own
  /-- The position of each scope is known. -/
  scopePositions : ∀ x ∈ t.preorder root, t.isScope x = true →
    r.scopePositions[x]? = some (t.position root x)
  /-- An identifier is bound to what a search finds, or not at all. -/
  bound : ∀ x ∈ t.preorder root, ∀ name, t.shape x = .ident name →
    Finds t root base tail x name (r.declaration? x)
  /-- Nothing but identifiers of the section is bound. -/
  idents : ∀ x, r.declaration? x ≠ none → x ∈ t.preorder root ∧ ∃ name, t.shape x = .ident name
  /-- Identifiers that are not bound are reported in order, with the declaration that comes later if
  there is one. -/
  missing : r.missing = (unboundOf t root r.bindings (t.preorder root)).map fun m =>
    ⟨m.1, firstOf? r.entries m.2.2 (t.scopesAround root m.1 ++ tail)⟩

/-- At the end of a section everything that waits becomes visible. -/
theorem Scan.Tables.finish {scan : Scan}
    (h : scan.Tables s base (s.tree.weight s.root) (s.tree.weight s.root)) :
    ∃ own, scan.waiting.foldl (fun entries e => e :: entries) scan.entries = own ++ base
      ∧ Listed s.tree s.root (s.tree.weight s.root) (s.tree.weight s.root + 1) own := by
  obtain ⟨own, hentries, hown⟩ := h.own
  have hall : scan.waiting.filter (·.visibleFrom ≤ s.tree.weight s.root) = scan.waiting := by
    rw [List.filter_eq_self]
    intro e he
    obtain ⟨hise, -, -⟩ := (h.waiting.mem_iff e).1 he
    rw [decide_eq_true_eq, hise.visibleFrom]
    exact Tree.visibleFrom_le_weight hise.mem
  have hlisted := release_listed hown h.waiting
  rw [hall] at hlisted
  refine ⟨_, ?_, hlisted⟩
  rw [hentries, List.append_assoc]
  generalize own ++ base = entries
  induction scan.waiting generalizing entries with
  | nil => rfl
  | cons e waiting ih => rw [List.foldl_cons, ih, List.reverse_cons, List.append_assoc]; rfl

theorem mapM_eq_ok {α β ε : Type} {f : α → Except ε β} {g : α → β} {l : List α}
    (h : ∀ a ∈ l, f a = .ok (g a)) : l.mapM f = .ok (l.map g) := by
  induction l with
  | nil => rfl
  | cons a l ih =>
    rw [List.mapM_cons, h a (.head _), ih fun b hb => h b (.tail _ hb)]
    rfl

/-- The lookups that follow the scan find the first declaration around each unbound name. -/
theorem Surroundings.Regular.lookups_eq (hs : s.Regular tail) (entries : List Entry)
    (bindings : Std.TreeMap NodeId NodeId) :
    (unboundOf s.tree s.root bindings (s.tree.preorder s.root)).mapM
        (fun (ident, scope, name) => do
          return (⟨ident, ← lookup s entries scope ident name⟩ : Missing))
      = Except.ok ((unboundOf s.tree s.root bindings (s.tree.preorder s.root)).map fun m =>
        (⟨m.1, firstOf? entries m.2.2 (s.tree.scopesAround s.root m.1 ++ tail)⟩ : Missing)) := by
  apply mapM_eq_ok
  rintro ⟨ident, scope, name⟩ hmem
  rw [unboundOf, List.mem_filterMap] at hmem
  obtain ⟨x, hx, hm⟩ := hmem
  split at hm
  · next name' hshape =>
    split at hm
    · obtain ⟨rfl, rfl, rfl⟩ : x = ident ∧ s.tree.scopeOf? s.root x = scope ∧ name' = name := by
        simpa using hm
      -- A name is no scope, so it is not the root, and its lookup starts below the root.
      have hne : x ≠ s.root := by
        rintro rfl
        have hscope := hs.root_scope
        simp [Tree.isScope, hshape, Shape.isScope] at hscope
      simp only [hs.lookup_eq hx hne entries name', bind, Except.bind]
      rfl
    · cases hm
  · cases hm

/-- **A section is resolved exactly.** -/
theorem exact_of_regular {t : Tree} {links : Links} {sec : Section} {outer : Option Resolution}
    (hs : Surroundings.Regular ⟨t, links, sec.root, outer.isSome⟩ tail)
    (hnodes : sec.nodes.toList = t.preorder sec.root)
    (hends : ∀ k x, (t.preorder sec.root)[k]? = some x → sec.subtreeEnd k = k + t.weight x) :
    ∃ r, ofSection t links sec outer = .ok r
      ∧ Exact t sec.root ((outer.map (inherited · sec.root)).getD []) tail r := by
  generalize hbase : (outer.map (inherited · sec.root)).getD [] = base
  generalize hs' : (⟨t, links, sec.root, outer.isSome⟩ : Surroundings) = s at hs
  obtain ⟨rfl, hroot⟩ : s.tree = t ∧ s.root = sec.root := by rw [← hs']; exact ⟨rfl, rfl⟩
  -- The scan begins with the inherited entries and empty tables.
  let start : Scan :=
    { bindings := ∅, entries := base, scopePositions := ∅, waiting := []
      scopeOf := Array.replicate s.tree.size none, misses := [] }
  have htables : start.Tables s base 0 0 :=
    ⟨⟨[], rfl, by simp, .nil⟩, ⟨by simp [start], .nil⟩, by simp [start], by simp, by simp⟩
  have hanswers : start.Answers s base tail 0 :=
    ⟨by simp, by simp [start], by simp [start, unboundOf]⟩
  rw [← hroot] at hnodes hends ⊢
  -- At the end the whole section has been passed.
  obtain ⟨scan, hrun, htables, hanswers⟩ := Scan.run_exact hs hends List.drop_zero htables hanswers
  rw [Nat.zero_add] at htables hanswers
  obtain ⟨own, hentries, hown⟩ := htables.finish
  have hmisses : scan.misses.reverse
      = unboundOf s.tree s.root scan.bindings (s.tree.preorder s.root) := by
    rw [hanswers.misses, List.take_length]
  -- The names that were missed are searched in all entries.
  have hlookups := hmisses ▸ hs.lookups_eq (own ++ base) scan.bindings
  unfold ofSection
  simp only [← hroot, hs.root_scope, hroot ▸ hbase, hnodes, hroot ▸ hs', bind, Except.bind]
  rw [if_neg (by simp)]
  simp only [bind, Except.bind] at hlookups
  simp only [start] at hrun
  rw [hrun]
  simp only [hentries]
  rw [hlookups, hmisses]
  refine ⟨_, rfl, ⟨own, rfl, hown⟩, ?_, ?_, ?_, rfl⟩
  · exact fun x hx => htables.scopePositions x hx (Tree.position_lt_weight hx)
  · exact fun x hx => hanswers.bound x hx (Tree.position_lt_weight hx)
  · intro x hx
    obtain ⟨hmem, -, hname⟩ := hanswers.idents x hx
    exact ⟨hmem, hname⟩

/-- The search in a section stops at its root if there is no resolution around it. -/
theorem Surroundings.regular_ofTree {t : Tree} {root : NodeId} {links : Links}
    (outer : Option Section) (hscope : t.isScope root = true) (hnodup : (t.preorder root).Nodup)
    (hsize : root < links.size) :
    Surroundings.Regular ⟨t, (Section.ofTree t links root outer).2, root, false⟩ [] where
  root_scope := hscope
  nodup := hnodup
  links := Section.follow_ofTree outer hnodup hsize
  size := by
    show root < (Section.ofTree t links root outer).2.size
    rwa [Section.size_links_ofTree]
  outward := .stop (.inl ⟨rfl, by simp⟩)
  length := Nat.zero_le _

/-- **A section without a resolution around it is resolved exactly**, wherever it has been
listed. -/
theorem exact_ofTree {t : Tree} {root : NodeId} {links : Links} (outer : Option Section)
    (hscope : t.isScope root = true) (hnodup : (t.preorder root).Nodup)
    (hsize : root < links.size) :
    ∃ r, ofSection t (Section.ofTree t links root outer).2
      (Section.ofTree t links root outer).1 none = .ok r ∧ Exact t root [] [] r :=
  exact_of_regular (Surroundings.regular_ofTree outer hscope hnodup hsize)
    (Section.nodes_ofTree t links root outer) fun _ _ => Section.subtreeEnd_ofTree

end Resolution

end MiddleEnd
