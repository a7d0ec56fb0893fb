import MiddleEnd.Tree.Links

/-!
# Sections

A section lists the nodes of one subtree in pre-order.  Passes read the list from left to right: a
declaration stands before all that follows it in the source.  A node that hangs below two parents is
listed twice.

## Main definitions

* `Section` — the list, with the position at which the subtree of each entry ends.
* `Section.ofTree` — list the subtree of a node and record the parent of each node in it.
* `Section.contains` — whether the parent links lead from a node to the root.

## Main results

* `Section.Walk.visit_eq` — listing a subtree enters its root, lists the children in order, and
  leaves.
-/

namespace MiddleEnd

/-- The nodes of one subtree in pre-order, each with the end of its own part of the list. -/
structure Section where
  /-- The node whose subtree is listed. -/
  root : NodeId
  /-- The list. -/
  nodes : Array NodeId
  /-- One past the last position of the subtree of each entry. -/
  ends : Array Nat
  /-- Root of the section that this one is nested in. -/
  outerRoot : Option NodeId
  deriving Repr

namespace Section

/-- A listing under way, which also records the parent of each node that is entered. -/
structure Walk where
  /-- The nodes entered so far. -/
  nodes : Array NodeId
  /-- Where the subtree of each of them ends, as far as it has been left. -/
  ends : Array Nat
  /-- The parents recorded so far. -/
  links : Links

/-- Enter a node below `above`; its end is open until `Walk.leave`. -/
def Walk.enter : Walk → NodeId → Option NodeId → Walk
  | ⟨nodes, ends, links⟩, id, above =>
    let pos := nodes.size
    ⟨nodes.push id, ends.push pos, links.setParent id above⟩

/-- End the subtree of the entry at `pos` here. -/
def Walk.leave : Walk → Nat → Walk
  | ⟨nodes, ends, links⟩, pos =>
    let stop := nodes.size
    ⟨nodes, ends.setIfInBounds pos stop, links⟩

/-- List the subtree of `id`: the node, then the subtrees of its children in order. -/
def Walk.visit (t : Tree) (w : Walk) (id : NodeId) (above : Option NodeId) : Walk :=
  let pos := w.nodes.size
  let inside := (t.children id).attach.foldl (fun w c => visit t w c.1 (some id)) (w.enter id above)
  inside.leave pos
termination_by id
decreasing_by exact t.child_lt c.2

theorem Walk.visit_eq (t : Tree) (w : Walk) (id : NodeId) (above : Option NodeId) :
    Walk.visit t w id above
      = ((t.children id).foldl (fun w c => Walk.visit t w c (some id)) (w.enter id above)).leave
          w.nodes.size := by
  rw [Walk.visit]
  exact congrArg (Walk.leave · w.nodes.size)
    (List.foldl_attach (f := fun w c => Walk.visit t w c (some id)))

/-- List the subtree of `root` and record parents.  The root itself goes below the root of the
section around it. -/
def ofTree (t : Tree) (links : Links) (root : NodeId) (outer : Option Section) : Section × Links :=
  let outerRoot := outer.map Section.root
  let w := Walk.visit t ⟨#[], #[], links⟩ root outerRoot
  (⟨root, w.nodes, w.ends, outerRoot⟩, w.links)

/-- How many entries the list has. -/
def size (s : Section) : Nat := s.nodes.size

/-- One past the last position of the subtree listed at `pos`. -/
def subtreeEnd (s : Section) (pos : Nat) : Nat := s.ends[pos]?.getD 0

/-- Whether the parent links lead from a node up to the root. -/
def contains (s : Section) (links : Links) (id : NodeId) : Bool := links.isBelow s.root id

end Section

end MiddleEnd
