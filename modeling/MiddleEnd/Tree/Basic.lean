import MiddleEnd.Source.Span
import MiddleEnd.Tree.Shape

/-!
# Syntax trees

A tree is a growing table of nodes.  A node can only mention nodes that are in the table before it,
so every walk from a node to its children ends.

## Main definitions

* `Tree` — the table, with the fact that children come first.
* `Tree.push?` — append a node, unless it mentions a node that is not there.
* `Tree.ungroup` — the expression inside any number of grouping parentheses.

## Main results

* `Tree.child_lt` — a child has a smaller number than its parent; recursion over trees rests on it.
* `Tree.isSome_push?` — a node is appended exactly if its children are in the tree.
* `Tree.size_push?`, `Tree.shape_push?`, `Tree.span_push?` — the new node gets the next number, and
  the others stay as they are.
-/

namespace MiddleEnd

/-- An entry of the table: what a node is and where it stands in the source.  Its number is its
place in the table. -/
structure Node where
  /-- What the node is, with the numbers of its children. -/
  shape : Shape
  /-- Where it stands. -/
  span : Span
  deriving Repr

/-- Nodes in order of allocation; children come before their parents.  Several roots may lie in one
tree, and a node may hang below more than one other. -/
structure Tree where
  /-- The table. -/
  nodes : Array Node
  /-- No node mentions itself or a later one, so walks downward end. -/
  children_lt : ∀ (i : Nat) (h : i < nodes.size), ∀ c ∈ nodes[i].shape.children, c < i

namespace Tree

/-- The tree without nodes. -/
def empty : Tree := ⟨#[], by simp⟩

instance : Inhabited Tree := ⟨empty⟩

/-- How many nodes there are.  The next one gets this number. -/
def size (t : Tree) : Nat := t.nodes.size

/-- The shape of a node; a number outside the tree reads as an empty enumeration. -/
def shape (t : Tree) (id : NodeId) : Shape :=
  if h : id < t.nodes.size then t.nodes[id].shape else .enum []

/-- Where a node stands; a number outside the tree stands `nowhere`. -/
def span (t : Tree) (id : NodeId) : Span := (t.nodes[id]?.map Node.span).getD .nowhere

/-- The nodes directly below a node. -/
def children (t : Tree) (id : NodeId) : List NodeId := (t.shape id).children

/-- Whether names are declared directly below a node. -/
def isScope (t : Tree) (id : NodeId) : Bool := (t.shape id).isScope

/-- A child has a smaller number than its parent. -/
theorem child_lt (t : Tree) {id c : NodeId} (h : c ∈ t.children id) : c < id := by
  unfold children shape at h
  split at h
  · next hid => exact t.children_lt id hid c h
  · simp [Shape.children] at h

/-- Append a node, unless it mentions a node that is not in the tree.  Its number is the size of
the tree before. -/
def push? (t : Tree) (shape : Shape) (span : Span) : Option Tree :=
  if h : ∀ c ∈ shape.children, c < t.size then
    some
      { nodes := t.nodes.push ⟨shape, span⟩
        children_lt := by
          intro i hi c hc
          rw [Array.getElem_push] at hc
          split at hc
          · next hlt => exact t.children_lt i hlt c hc
          · next hge =>
            have hc : (c : Nat) < t.nodes.size := h c hc
            grind }
  else none

theorem isSome_push? (t : Tree) (shape : Shape) (span : Span) :
    (t.push? shape span).isSome ↔ ∀ c ∈ shape.children, c < t.size := by
  unfold push?
  split <;> simp_all

theorem nodes_push? {t t' : Tree} {shape : Shape} {span : Span}
    (h : t.push? shape span = some t') : t'.nodes = t.nodes.push ⟨shape, span⟩ := by
  unfold push? at h
  split at h
  · cases h; rfl
  · cases h

theorem size_push? {t t' : Tree} {shape : Shape} {span : Span}
    (h : t.push? shape span = some t') : t'.size = t.size + 1 := by
  simp [size, nodes_push? h]

theorem shape_push? {t t' : Tree} {shape : Shape} {span : Span}
    (h : t.push? shape span = some t') (id : NodeId) :
    t'.shape id = if id = t.size then shape else t.shape id := by
  simp only [Tree.shape, nodes_push? h, size]
  grind

theorem span_push? {t t' : Tree} {shape : Shape} {span : Span}
    (h : t.push? shape span = some t') (id : NodeId) :
    t'.span id = if id = t.size then span else t.span id := by
  simp only [Tree.span, nodes_push? h, size]
  grind

/-- Strip any number of grouping parentheses. -/
def ungroup (t : Tree) (id : NodeId) : NodeId :=
  match _h : t.shape id with
  | .group expr => t.ungroup expr
  | _ => id
termination_by id
decreasing_by exact t.child_lt (by simp [children, *, Shape.children])

end Tree

end MiddleEnd
