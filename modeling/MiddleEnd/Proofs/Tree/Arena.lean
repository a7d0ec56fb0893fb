import MiddleEnd.Tree.Basic
import Mathlib.Data.List.Induction

/-!
# Trees in memory

A node does not keep the lists of its children.  They stand one behind the other in a side list that
all nodes share, and the node keeps where its own begin and how long they are.  Nodes and lists are
only ever appended, so that what has been stored reads the same from then on.

## Main definitions

* `Stretch` — some entries of the side list in a row.
* `StoredShape`, `StoredNode` — a node with stretches in the place of its lists.
* `Arena` — the stored nodes with the side list; `Arena.allocList`, `Arena.alloc` append to them.
* `Arena.store` — store a node, its lists first; `Arena.ofTree` — store a tree.
* `Arena.Stores` — an arena from which a list of nodes can be read.

## Main results

* `Stretch.read_append` — a stretch reads the same in a longer side list.
* `Arena.stores_ofTree` — a tree can be read from its arena.
* `Arena.ofTree_push?` — allocating a node stores it.
* `Arena.children_ofTree` — the children of a node are those that the side list has for it.
* `Arena.ofTree_grows` — **storing more keeps what has been stored**.
-/

namespace MiddleEnd

/-! ### The side list -/

/-- Some entries of the side list in a row. -/
structure Stretch where
  /-- Where the first of them is. -/
  start : Nat
  /-- How many there are. -/
  length : Nat
  deriving DecidableEq, Repr

namespace Stretch

/-- The children that a stretch of the side list holds. -/
def read (r : Stretch) (lists : List NodeId) : List NodeId := (lists.drop r.start).take r.length

/-- The stretch ends inside the side list. -/
def Within (r : Stretch) (lists : List NodeId) : Prop := r.start + r.length ≤ lists.length

variable {r : Stretch} {lists : List NodeId}

theorem Within.append (h : r.Within lists) (more : List NodeId) : r.Within (lists ++ more) := by
  simp only [Within, List.length_append] at h ⊢
  omega

/-- A stretch reads the same in a longer side list. -/
theorem read_append (h : r.Within lists) (more : List NodeId) :
    r.read (lists ++ more) = r.read lists := by
  unfold Within at h
  rw [read, read, List.drop_append_of_le_length (by omega),
    List.take_append_of_le_length (by rw [List.length_drop]; omega)]

end Stretch

/-! ### Stored nodes -/

/-- What is stored of a shape. -/
inductive StoredShape where
  /-- A shape without lists. -/
  | plain (s : Shape)
  /-- The items are a stretch. -/
  | module (items : Stretch)
  /-- The statements are a stretch. -/
  | block (stmts : Stretch)
  /-- The fields are a stretch. -/
  | struct (fields : Stretch)
  /-- The variants are a stretch. -/
  | enum (variants : Stretch)
  /-- The targets and the values are two stretches. -/
  | parallel (targets values : Stretch)
  /-- The inputs are a stretch. -/
  | native (source : String) (inputs : Stretch) (output : Option NodeId)
  deriving DecidableEq, Repr

namespace StoredShape

/-- The stretches that a stored shape refers to. -/
def stretches : StoredShape → List Stretch
  | plain _ => []
  | module r | block r | struct r | enum r | native _ r _ => [r]
  | parallel targets values => [targets, values]

/-- The shape with the lists that stand in the side list. -/
def read (lists : List NodeId) : StoredShape → Shape
  | plain s => s
  | module items => .module (items.read lists)
  | block stmts => .block (stmts.read lists)
  | struct fields => .struct (fields.read lists)
  | enum variants => .enum (variants.read lists)
  | parallel targets values => .parallel (targets.read lists) (values.read lists)
  | native source inputs output => .native source (inputs.read lists) output

theorem read_append {s : StoredShape} {lists : List NodeId}
    (h : ∀ r ∈ s.stretches, r.Within lists) (more : List NodeId) :
    s.read (lists ++ more) = s.read lists := by
  cases s with
  | plain s => rfl
  | module r | block r | struct r | enum r | native _ r _ =>
    simp only [read, Stretch.read_append (h r (.head _))]
  | parallel targets values =>
    simp only [read, Stretch.read_append (h targets (.head _)),
      Stretch.read_append (h values (.tail _ (.head _)))]

end StoredShape

/-- An entry of the table of nodes as it is kept. -/
structure StoredNode where
  /-- What the node is, with its lists of children kept aside. -/
  shape : StoredShape
  /-- Where it stands. -/
  span : Span
  deriving DecidableEq, Repr

/-- Nodes in order of allocation, and the lists of all of them one behind the other. -/
structure Arena where
  /-- The nodes. -/
  nodes : List StoredNode
  /-- The side list. -/
  lists : List NodeId
  deriving DecidableEq, Repr

namespace Arena

/-- No nodes and no lists. -/
def empty : Arena := ⟨[], []⟩

/-- Append a list to the side list. -/
def allocList (a : Arena) (ids : List NodeId) : Stretch × Arena :=
  (⟨a.lists.length, ids.length⟩, { a with lists := a.lists ++ ids })

/-- Append a node whose lists are there. -/
def alloc (a : Arena) (shape : StoredShape) (span : Span) : Arena :=
  { a with nodes := a.nodes ++ [⟨shape, span⟩] }

/-- Store a node, its lists first. -/
def store (a : Arena) (n : Node) : Arena :=
  match n.shape with
  | .module items =>
    let (items, a) := a.allocList items
    a.alloc (.module items) n.span
  | .block stmts =>
    let (stmts, a) := a.allocList stmts
    a.alloc (.block stmts) n.span
  | .struct fields =>
    let (fields, a) := a.allocList fields
    a.alloc (.struct fields) n.span
  | .enum variants =>
    let (variants, a) := a.allocList variants
    a.alloc (.enum variants) n.span
  | .parallel targets values =>
    let (targets, a) := a.allocList targets
    let (values, a) := a.allocList values
    a.alloc (.parallel targets values) n.span
  | .native source inputs output =>
    let (inputs, a) := a.allocList inputs
    a.alloc (.native source inputs output) n.span
  | shape => a.alloc (.plain shape) n.span

/-- The table and the side list that storing the nodes of a tree one by one leads to. -/
def ofTree (t : Tree) : Arena := t.nodes.toList.foldl store .empty

/-- The children of a node, with its lists read from the side list. -/
def children (a : Arena) (id : NodeId) : List NodeId :=
  match a.nodes[id]? with
  | some n => (n.shape.read a.lists).children
  | none => []

/-! ### What has been stored -/

/-- The stored form reads as the node, and its stretches end inside the side list. -/
structure Holds (lists : List NodeId) (stored : StoredNode) (n : Node) : Prop where
  /-- The stretches end inside the side list. -/
  within : ∀ r ∈ stored.shape.stretches, r.Within lists
  /-- The shape reads as that of the node. -/
  shape : stored.shape.read lists = n.shape
  /-- The span is that of the node. -/
  span : stored.span = n.span

theorem Holds.append {lists : List NodeId} {stored : StoredNode} {n : Node}
    (h : Holds lists stored n) (more : List NodeId) : Holds (lists ++ more) stored n where
  within r hr := (h.within r hr).append more
  shape := (StoredShape.read_append h.within more).trans h.shape
  span := h.span

/-- What is in the arena stays there, with more behind it. -/
structure Grows (a a' : Arena) : Prop where
  /-- Nodes have only been added. -/
  nodes : a.nodes <+: a'.nodes
  /-- The side list has only got longer. -/
  lists : a.lists <+: a'.lists

theorem Grows.refl (a : Arena) : a.Grows a := ⟨List.prefix_refl _, List.prefix_refl _⟩

theorem Grows.trans {a a' a'' : Arena} (h : a.Grows a') (h' : a'.Grows a'') : a.Grows a'' :=
  ⟨h.nodes.trans h'.nodes, h.lists.trans h'.lists⟩

/-- Storing a node appends its stored form to the nodes and its lists to the side list. -/
theorem store_eq (a : Arena) (n : Node) :
    ∃ stored ids, a.store n = ⟨a.nodes ++ [stored], a.lists ++ ids⟩
      ∧ Holds (a.lists ++ ids) stored n := by
  obtain ⟨shape, span⟩ := n
  cases shape with
  | module ids | block ids | struct ids | enum ids | native source ids output =>
    refine ⟨_, ids, rfl, ?_, ?_, rfl⟩
    · simp [StoredShape.stretches, Stretch.Within]
    · simp [StoredShape.read, Stretch.read]
  | parallel targets values =>
    refine ⟨_, targets ++ values, by simp only [store, allocList, alloc, List.append_assoc]; rfl,
      ?_, ?_, rfl⟩
    · simp [StoredShape.stretches, Stretch.Within]
      omega
    · simp [StoredShape.read, Stretch.read]
  | _ => exact ⟨_, [], by simp only [store, alloc, List.append_nil]; rfl,
      by simp [StoredShape.stretches], rfl, rfl⟩

theorem grows_store (a : Arena) (n : Node) : a.Grows (a.store n) := by
  obtain ⟨stored, ids, heq, -⟩ := store_eq a n
  rw [heq]
  exact ⟨List.prefix_append _ _, List.prefix_append _ _⟩

theorem grows_foldl (nodes : List Node) (a : Arena) : a.Grows (nodes.foldl store a) := by
  induction nodes generalizing a with
  | nil => exact .refl a
  | cons n rest ih => exact (grows_store a n).trans (ih _)

/-- The nodes can be read from the arena. -/
structure Stores (a : Arena) (nodes : List Node) : Prop where
  /-- There is an entry for each node. -/
  length : a.nodes.length = nodes.length
  /-- Every entry reads as its node. -/
  holds : ∀ (x : Nat) (n : Node), nodes[x]? = some n →
    ∃ stored, a.nodes[x]? = some stored ∧ Holds a.lists stored n

theorem stores_foldl (nodes : List Node) : (nodes.foldl store empty).Stores nodes := by
  induction nodes using List.reverseRecOn with
  | nil => exact ⟨rfl, fun x n h => by simp at h⟩
  | append_singleton nodes n ih =>
    rw [List.foldl_append, List.foldl_cons, List.foldl_nil]
    obtain ⟨stored, ids, heq, hholds⟩ := store_eq (nodes.foldl store empty) n
    rw [heq]
    refine ⟨by simp [ih.length], fun x n' hx => ?_⟩
    rw [List.getElem?_append] at hx
    split at hx
    · next hlt =>
      obtain ⟨stored', hstored', hholds'⟩ := ih.holds x n' hx
      refine ⟨stored', ?_, hholds'.append ids⟩
      rw [List.getElem?_append_left (by rw [ih.length]; exact hlt), hstored']
    · next hge =>
      obtain ⟨hzero, rfl⟩ : x - nodes.length = 0 ∧ n = n' := by
        simpa [List.getElem?_singleton] using hx
      obtain rfl : x = nodes.length := by omega
      exact ⟨stored, by simp [← ih.length], hholds⟩

/-- A tree can be read from its arena. -/
theorem stores_ofTree (t : Tree) : (ofTree t).Stores t.nodes.toList := stores_foldl _

/-- A node that is allocated is stored behind all others. -/
theorem ofTree_push? {t t' : Tree} {shape : Shape} {span : Span}
    (h : t.push? shape span = some t') : ofTree t' = (ofTree t).store ⟨shape, span⟩ := by
  rw [ofTree, Tree.nodes_push? h, Array.toList_push, List.foldl_append]
  rfl

theorem children_ofTree (t : Tree) (id : NodeId) : (ofTree t).children id = t.children id := by
  obtain ⟨hlength, hholds⟩ := stores_ofTree t
  by_cases hid : id < t.nodes.size
  · have hnode : t.nodes.toList[id]? = some t.nodes[id] := by
      simp [Array.getElem?_toList, Array.getElem?_eq_getElem hid]
    obtain ⟨stored, hstored, hread⟩ := hholds id _ hnode
    simp only [children, hstored, hread.shape, Tree.children, Tree.shape, dif_pos hid]
  · have hnone : (ofTree t).nodes[id]? = none := by
      rw [List.getElem?_eq_none_iff, hlength, Array.length_toList]
      exact Nat.le_of_not_lt hid
    simp only [children, hnone, Tree.children, Tree.shape, dif_neg hid, Shape.children]

/-- **Storing more keeps what has been stored.** -/
theorem ofTree_grows {t t' : Tree} (h : t.nodes.toList <+: t'.nodes.toList) :
    (ofTree t).Grows (ofTree t') := by
  obtain ⟨more, hmore⟩ := h
  rw [ofTree, ofTree, ← hmore, List.foldl_append]
  exact grows_foldl more _

end Arena

end MiddleEnd
