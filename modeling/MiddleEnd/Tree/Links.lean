import MiddleEnd.Tree.Basic

/-!
# Parent links

The parent of each node as the latest listing of a section has left it.

## Main definitions

* `Links` — the parent of each node; none has one before the first listing.
* `Links.ancestor?` — the nearest proper ancestor that passes a test.
* `Links.enclosingScope?`, `Links.enclosingProcedure?` — the two tests that passes ask for.
* `Links.isBelow` — whether the links lead from a node to another one.

## Main results

* `Links.parent?_setParent` — setting a parent changes the link of one node.
-/

namespace MiddleEnd

/-- The parent of each node of a tree.  Links are kept apart from the tree, which is not changed
when a section is listed. -/
structure Links where
  /-- The parent of each node, by number. -/
  parents : Array (Option NodeId)
  deriving Repr

namespace Links

/-- No node has a parent, as before the first listing. -/
def unset (size : Nat) : Links := ⟨Array.replicate size none⟩

/-- How many nodes have a link, set or not. -/
def size (l : Links) : Nat := l.parents.size

/-- The parent of a node, if it has been recorded. -/
def parent? (l : Links) (id : NodeId) : Option NodeId := l.parents[id]?.join

/-- Record the parent of a node, or that it has none. -/
def setParent (l : Links) (id : NodeId) (above : Option NodeId) : Links :=
  ⟨l.parents.setIfInBounds id above⟩

@[simp] theorem size_setParent (l : Links) (id : NodeId) (above : Option NodeId) :
    (l.setParent id above).size = l.size := by
  simp [setParent, size]

theorem parent?_setParent (l : Links) {id : NodeId} (h : id < l.size) (above : Option NodeId)
    (other : NodeId) :
    (l.setParent id above).parent? other = if other = id then above else l.parent? other := by
  simp only [setParent, parent?, size] at h ⊢
  grind

/-- The nearest of the next `steps` ancestors that passes the test. -/
def ancestorWithin? (l : Links) (test : NodeId → Bool) : Nat → NodeId → Option NodeId
  | 0, _ => none
  | steps + 1, id =>
    match l.parent? id with
    | none => none
    | some above => if test above then some above else l.ancestorWithin? test steps above

/-- The nearest proper ancestor that passes the test.  A chain of links without a repetition is no
longer than the number of nodes. -/
def ancestor? (l : Links) (test : NodeId → Bool) (id : NodeId) : Option NodeId :=
  l.ancestorWithin? test l.size id

/-- The nearest scope around a node. -/
def enclosingScope? (l : Links) (t : Tree) (id : NodeId) : Option NodeId :=
  l.ancestor? t.isScope id

/-- The nearest procedure around a node. -/
def enclosingProcedure? (l : Links) (t : Tree) (id : NodeId) : Option NodeId :=
  l.ancestor? (fun above => (t.shape above).isProcedure) id

/-- Whether `id` is `top` or the links lead from it to `top`. -/
def isBelow (l : Links) (top id : NodeId) : Bool :=
  id == top || (l.ancestor? (· == top) id).isSome

end Links

end MiddleEnd
