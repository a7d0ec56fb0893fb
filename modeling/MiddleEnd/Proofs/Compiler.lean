import MiddleEnd.Compiler
import MiddleEnd.Proofs.Diagnostic.Held
import MiddleEnd.Proofs.Lowering.Sound
import MiddleEnd.Proofs.Tree.Ancestors
import MiddleEnd.Proofs.Typing.Soundness

/-!
# Successful compilation

A program comes out of the compiler only if no pass found a problem: the first error that is offered
to a queue is taken, whatever the limit is and whether or not repetitions are left out.

## Main definitions

* `Analysis` — what the passes before lowering find out about a tree.
* `Analysis.Sound` — the names and types of a well-formed tree are as they should be.

## Main results

* `Queue.errorCount_addAll_pos` — an error that is offered leaves an error in the queue.
* `compile_ok` — a compiled tree went through all passes without a problem.
* `Analysis.sound_of_compile` — the names and types of a compiled tree are sound.
-/

namespace MiddleEnd

namespace Queue

/-- To offer diagnostics of a text is to offer each at its place. -/
theorem addAll_eq_offerAll (q : Queue) (lines : LineTable) (ds : List Diagnostic) :
    q.addAll lines ds = q.offerAll (ds.map lines.place) := by
  unfold addAll offerAll
  rw [List.foldl_map]
  rfl

theorem errorCount_addAll (q : Queue) (lines : LineTable) (ds : List Diagnostic) :
    q.errorCount ≤ (q.addAll lines ds).errorCount := by
  rw [addAll_eq_offerAll]
  exact errorCount_offerAll q _

theorem errorCount_addAll_pos (q : Queue) (lines : LineTable) {ds : List Diagnostic}
    {d : Diagnostic} (hd : d ∈ ds) (herror : d.isError = true) :
    0 < (q.addAll lines ds).errorCount := by
  induction ds generalizing q with
  | nil => cases hd
  | cons d' ds ih =>
    rcases List.mem_cons.1 hd with rfl | hd
    · exact Nat.lt_of_lt_of_le (errorCount_add_pos q (p := ⟨d, _⟩) herror)
        (errorCount_addAll _ lines ds)
    · exact ih _ hd

theorem errorCount_of_checkpoint {q : Queue} {rootSpan : Span} {u : Unit}
    (h : q.checkpoint rootSpan = .ok u) : q.errorCount = 0 := by
  by_cases hzero : q.errorCount = 0
  · exact hzero
  · simp [checkpoint, errors?, ErrorReported.ofCount?, hzero] at h

/-- Nothing but errors can have been offered to a queue without errors if all were errors. -/
theorem eq_nil_of_errorCount {q : Queue} {lines : LineTable} {ds : List Diagnostic}
    (h : (q.addAll lines ds).errorCount = 0) (herrors : ∀ d ∈ ds, d.isError = true) : ds = [] := by
  cases ds with
  | nil => rfl
  | cons d ds =>
    have hpos := errorCount_addAll_pos q lines (.head ds) (herrors d (.head _))
    omega

end Queue

/-! ### Passes -/

/-- What the passes before lowering find out about a tree. -/
structure Analysis where
  /-- The parents that listing the tree has recorded. -/
  links : Links
  /-- The declarations of the names. -/
  resolution : Resolution
  /-- The types of the nodes, and the values of the literals. -/
  typing : Typing

namespace Analysis

/-- List the tree below `root`, resolve its names, and type it. -/
def ofTree (t : Tree) (links : Links) (root : NodeId) : Except Misuse Analysis := do
  let (s, links) := Section.ofTree t links root none
  let r ← Resolution.ofSection t links s none
  let ty ← Typing.ofSection t links s r
  return ⟨links, r, ty⟩

/-- What typing looks up. -/
def context (a : Analysis) (t : Tree) : Typing.Context := ⟨t, a.links, a.resolution⟩

theorem ofTree_ok {t : Tree} {links : Links} {root : NodeId} {a : Analysis}
    (h : ofTree t links root = .ok a) :
    a.links = (Section.ofTree t links root none).2
      ∧ Resolution.ofSection t (Section.ofTree t links root none).2
          (Section.ofTree t links root none).1 none = .ok a.resolution
      ∧ Typing.ofSection t (Section.ofTree t links root none).2
          (Section.ofTree t links root none).1 a.resolution = .ok a.typing := by
  unfold ofTree at h
  simp only [bind, Except.bind] at h
  split at h
  · cases h
  next r hr =>
  split at h
  · cases h
  next ty hty =>
  cases h
  exact ⟨rfl, hr, hty⟩

/-- The names and types of a tree are as they should be. -/
structure Sound (a : Analysis) (t : Tree) (root : NodeId) : Prop where
  /-- The links lead from every node of the tree to the root. -/
  rooted : a.links.Rooted t root
  /-- Every identifier of the tree is bound as the scopes around it say. -/
  served : Resolution.Served t a.resolution (fun _ => False) root
  /-- Every identifier is bound to a declaration in the tree. -/
  bound : ∀ x name, x ∈ t.preorder root → t.shape x = .ident name →
    ∃ decl, a.resolution.declaration? x = some decl ∧ decl ∈ t.preorder root
      ∧ (t.shape decl).isDeclaration = true
  /-- Every node has the type that its parts give it. -/
  wellTyped : ∀ x ∈ t.preorder root,
    Typing.HasType (a.context t) a.typing x (t.shape x) (a.typing.typeOf x)
  /-- No type is one of something that has none. -/
  noError : ∀ x ∈ t.preorder root, (a.typing.typeOf x).isError = false
  /-- Every value is that of a literal. -/
  literals : ∀ x v, a.typing.literal? x = some v →
    ∃ lit, t.shape x = .literal lit ∧ lit.value? = some v

/-- Without problems the names and types of a well-formed tree are sound. -/
theorem sound_of_ofTree {t : Tree} {links : Links} {root : NodeId} {a : Analysis}
    (ht : t.WellFormed root) (h : ofTree t links root = .ok a)
    (hmissing : a.resolution.missing = [])
    (hproblems : a.typing.problems = #[]) : a.Sound t root := by
  obtain ⟨hlinks, hr, hty⟩ := ofTree_ok h
  have hrooted := Resolution.rooted_of_ofSection hr hmissing ht.nodup
  -- Every name is bound, as none is missing.
  have hbound : ∀ x name, x ∈ t.preorder root → t.shape x = .ident name →
      ∃ decl, a.resolution.declaration? x = some decl ∧ decl ∈ t.preorder root
        ∧ (t.shape decl).isDeclaration = true := by
    intro x name hx hname
    obtain ⟨k, hk, rfl⟩ := List.getElem_of_mem hx
    obtain ⟨decl, hdecl, p, hp, hshape, -⟩ :=
      Resolution.bound_of_ofSection hr hmissing ht.nodup (List.getElem?_eq_getElem hk) hname
    exact ⟨decl, hdecl, List.mem_of_getElem? hp, hshape⟩
  -- A scope is a node of the tree, and so the root is in range.
  have hroot : root < t.size := by
    refine Nat.lt_of_not_le fun hle => ?_
    have hscope := ht.root_scope
    unfold Tree.isScope Tree.shape at hscope
    rw [dif_neg (show ¬root < t.nodes.size from Nat.not_lt.2 hle)] at hscope
    cases hscope
  -- Typing stays among the nodes below the root.
  have hclosed : Typing.Context.Closed ⟨t, (Section.ofTree t links root none).2, a.resolution⟩
      (· ∈ t.preorder root) :=
    { lt := fun x hx => Nat.lt_of_le_of_lt (t.le_of_mem_preorder hx) hroot
      child := fun x hx y hy => t.mem_preorder_trans hx (t.child_mem_preorder hy)
      ident := hbound
      host := fun x p hx hp => (hrooted.mem_of_ancestor? hx hp).1 }
  have hnodes := Section.nodes_ofTree t links root none
  obtain ⟨hwell, hliterals⟩ :=
    Typing.wellTyped_of_ofSection hclosed (fun x hx => hnodes ▸ hx) hty hproblems
  rw [hnodes] at hwell
  exact
    { rooted := hlinks ▸ hrooted
      served := Resolution.served_of_ofSection hr hmissing ht.nodup
      bound := hbound
      wellTyped := fun x hx => by
        unfold context
        rw [hlinks]
        exact (hwell x hx).1
      noError := fun x hx => (hwell x hx).2
      literals := hliterals }

end Analysis

/-! ### Compiling -/

theorem isError_resolution {t : Tree} (r : Resolution) :
    ∀ d ∈ r.diagnostics t, d.isError = true := by
  intro d hd
  obtain ⟨m, -, rfl⟩ := List.mem_map.1 hd
  split <;> rfl

theorem isError_typing {t : Tree} (ty : Typing) : ∀ d ∈ ty.diagnostics t, d.isError = true := by
  intro d hd
  obtain ⟨p, -, rfl⟩ := List.mem_map.1 hd
  cases p <;> rfl

theorem isError_generated {t : Tree} (g : Generated) : ∀ d ∈ g.diagnostics t, d.isError = true := by
  intro d hd
  obtain ⟨p, -, rfl⟩ := List.mem_map.1 hd
  cases p <;> rfl

/-- Where compiling goes on after typing, names and types have no problems. -/
theorem problems_of_checkpoint {t : Tree} {r : Resolution} {ty : Typing} {q : Queue}
    {lines : LineTable} {rootSpan : Span} {u : Unit}
    (h : ((q.addAll lines (r.diagnostics t)).addAll lines (ty.diagnostics t)).checkpoint rootSpan
      = .ok u) : r.missing = [] ∧ ty.problems = #[] := by
  have hcount := Queue.errorCount_of_checkpoint h
  have htypes := List.map_eq_nil_iff.1 (Queue.eq_nil_of_errorCount hcount (isError_typing ty))
  have hcount' := Nat.le_trans (Queue.errorCount_addAll _ _ _) (Nat.le_of_eq hcount)
  have hnames := Queue.eq_nil_of_errorCount (Nat.eq_zero_of_le_zero hcount') (isError_resolution r)
  exact ⟨List.map_eq_nil_iff.1 hnames, by simpa using htypes⟩

theorem mapError_ok {ε ε' α : Type} {x : Except ε α} {f : ε → ε'} {a : α}
    (h : x.mapError f = .ok a) : x = .ok a := by
  cases x with
  | error e => cases h
  | ok b =>
    cases h
    rfl

/-- **A compiled tree went through all passes without a problem.** -/
theorem compile_ok {t : Tree} {links : Links} {root : NodeId} {source : String}
    {config : CompilerConfig} {compiled : Compiled}
    (h : compile t links root source config = .ok compiled) :
    ∃ a g, Analysis.ofTree t links root = .ok a ∧ a.resolution.missing = []
      ∧ a.typing.problems = #[]
      ∧ Generated.ofTree t a.links root a.resolution a.typing config.registerLimit = .ok g
      ∧ g.problems = [] ∧ compiled.program = g.program := by
  unfold compile at h
  simp only [bind, Except.bind] at h
  split at h
  · cases h
  next r hr =>
  split at h
  · cases h
  next ty hty =>
  split at h
  · cases h
  next hcheck =>
  -- The first report had no errors, so names and types have none.
  obtain ⟨hnames, htypes⟩ := problems_of_checkpoint hcheck
  have hr := mapError_ok hr
  have hty := mapError_ok hty
  split at h
  · cases h
  · split at h <;> cases h
  · next g hg =>
    split at h
    · cases h
    next hcheck' =>
    cases h
    -- Nor had the second one, so lowering has none.
    have hgenerated := Queue.eq_nil_of_errorCount (Queue.errorCount_of_checkpoint hcheck')
      (isError_generated g)
    refine ⟨⟨(Section.ofTree t links root none).2, r, ty⟩, g, ?_, hnames, htypes, hg,
      List.map_eq_nil_iff.1 hgenerated, rfl⟩
    unfold Analysis.ofTree
    simp only [bind, Except.bind, hr, hty]
    rfl

end MiddleEnd
