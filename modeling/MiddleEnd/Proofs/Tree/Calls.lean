import MiddleEnd.Tree.Builder
import MiddleEnd.Proofs.Tree.Arena
import Mathlib.Logic.Relation

/-!
# Trees that are built call by call

What the calls of a builder make of the tree, one case for each call: the nodes that it allocates on
its way, the node that it returns, and their spans.  From this follows what any sequence of calls
builds whose arguments have been returned by earlier calls.

## Main definitions

* `Span.Hull` — the span from the least start to the greatest end.
* `Tree.Spanned` — a node that lies where its children lie.
* `Tree.Grows` — later trees, in which all that is new is spanned.
* `NodeCall` — the calls that return a node; `NodeCall.shape`, `NodeCall.helpers`, what they make.
* `NodeCall.Makes` — what a call does to the builder.
* `Session` — a builder with the nodes that its calls have returned.

## Main results

* `Span.hull_coverAll` — covering spans gives their hull.
* `NodeCall.run_makes` — every call whose arguments are in the tree makes what it should.
* `Session.builds` — **all trees that are built are acyclic, stored in the arena and spanned**.
-/

namespace MiddleEnd

/-! ### Hulls -/

namespace Span

/-- The span from the least start to the greatest end of those spans that are somewhere. -/
def Hull (spans : List Span) (s : Span) : Prop :=
  (s = nowhere ∧ ∀ a ∈ spans, a = nowhere)
  ∨ ((∃ a ∈ spans, a ≠ nowhere ∧ a.start = s.start) ∧ (∃ a ∈ spans, a ≠ nowhere ∧ a.stop = s.stop)
    ∧ ∀ a ∈ spans, a ≠ nowhere → s.start ≤ a.start ∧ a.stop ≤ s.stop)

variable {spans spans' : List Span} {a s : Span}

/-- A hull depends on nothing but the spans that are somewhere. -/
theorem Hull.congr (h : Hull spans s) (hmem : ∀ a, a ≠ nowhere → (a ∈ spans ↔ a ∈ spans')) :
    Hull spans' s := by
  rcases h with ⟨hs, hall⟩ | ⟨⟨a, ha, hne, hstart⟩, ⟨b, hb, hne', hstop⟩, hbounds⟩
  · refine .inl ⟨hs, fun a ha => ?_⟩
    by_contra hne
    exact hne (hall a ((hmem a hne).2 ha))
  · exact .inr ⟨⟨a, (hmem a hne).1 ha, hne, hstart⟩, ⟨b, (hmem b hne').1 hb, hne', hstop⟩,
      fun c hc hne => hbounds c ((hmem c hne).2 hc) hne⟩

theorem hull_nowhere (h : ∀ a ∈ spans, a = nowhere) : Hull spans nowhere := .inl ⟨rfl, h⟩

/-- The hull of spans of which one is somewhere is somewhere: a start of 0 with an end of 0 would be
those of one and the same span. -/
theorem Hull.ne_nowhere (h : Hull spans s) (ha : a ∈ spans) (hne : a ≠ nowhere) : s ≠ nowhere := by
  rcases h with ⟨-, hall⟩ | ⟨⟨b, hb, hne', hstart⟩, -, hbounds⟩
  · exact (hne (hall a ha)).elim
  · rintro rfl
    obtain ⟨-, hstop⟩ := hbounds b hb hne'
    obtain ⟨start, stop⟩ := b
    obtain rfl : start = 0 := hstart
    obtain rfl : stop = 0 := Nat.le_zero.1 hstop
    exact hne' rfl

theorem hull_singleton (a : Span) : Hull [a] a := by
  by_cases ha : a = nowhere
  · exact .inl ⟨ha, by simpa using ha⟩
  · exact .inr ⟨⟨a, .head _, ha, rfl⟩, ⟨a, .head _, ha, rfl⟩, by simp⟩

/-- One more span is covered. -/
theorem Hull.append (h : Hull spans s) (a : Span) : Hull (spans ++ [a]) (s.cover a) := by
  by_cases ha : a = nowhere
  · subst ha
    rw [cover_nowhere]
    exact h.congr fun b hb => by simp [hb]
  · rcases h with ⟨rfl, hall⟩ | hsome
    · rw [nowhere_cover]
      refine (hull_singleton a).congr fun b hb => ?_
      simp only [List.mem_singleton, List.mem_append]
      exact (or_iff_right fun hb' => hb (hall b hb')).symm
    · have hs : ∀ b ∈ spans, b ≠ nowhere → s ≠ nowhere := fun b => Hull.ne_nowhere (.inr hsome)
      obtain ⟨⟨b, hb, hbne, hstart⟩, ⟨c, hc, hcne, hstop⟩, hbounds⟩ := hsome
      rw [cover, if_neg (hs b hb hbne), if_neg ha]
      refine .inr ⟨?_, ?_, ?_⟩
      · rcases Nat.le_total s.start a.start with hle | hle
        · exact ⟨b, by simp [hb], hbne, by simp [hstart, Nat.min_eq_left hle]⟩
        · exact ⟨a, by simp, ha, by simp [Nat.min_eq_right hle]⟩
      · rcases Nat.le_total a.stop s.stop with hle | hle
        · exact ⟨c, by simp [hc], hcne, by simp [hstop, Nat.max_eq_left hle]⟩
        · exact ⟨a, by simp, ha, by simp [Nat.max_eq_right hle]⟩
      · intro d hd hdne
        rcases List.mem_append.1 hd with hd | hd
        · obtain ⟨hmin, hmax⟩ := hbounds d hd hdne
          exact ⟨Nat.le_trans (Nat.min_le_left _ _) hmin, Nat.le_trans hmax (Nat.le_max_left _ _)⟩
        · obtain rfl := List.mem_singleton.1 hd
          exact ⟨Nat.min_le_right _ _, Nat.le_max_right _ _⟩

/-- **Covering spans gives their hull.** -/
theorem hull_coverAll (spans : List Span) : Hull spans (coverAll spans) := by
  induction spans using List.reverseRecOn with
  | nil => exact hull_nowhere (by simp)
  | append_singleton spans a ih =>
    rw [coverAll, List.foldl_append, List.foldl_cons, List.foldl_nil]
    exact ih.append a

end Span

/-! ### Growing trees -/

namespace Tree

variable {t t' t'' : Tree} {x : NodeId}

/-- The node lies where its children lie. -/
def Spanned (t : Tree) (x : NodeId) : Prop := Span.Hull ((t.children x).map t.span) (t.span x)

/-- A later tree, in which the nodes that are new lie where their children lie. -/
structure Grows (t t' : Tree) : Prop where
  /-- The nodes there were are the first ones. -/
  nodes : t.nodes.toList <+: t'.nodes.toList
  /-- The others lie where their children lie. -/
  spanned : ∀ x : Nat, t.size ≤ x → x < t'.size → t'.Spanned x

theorem Grows.refl (t : Tree) : t.Grows t :=
  ⟨List.prefix_refl _, fun _ hx hx' => absurd hx' (Nat.not_lt.2 hx)⟩

section Earlier

variable (h : t.nodes.toList <+: t'.nodes.toList)

include h

theorem size_le_of_earlier : t.size ≤ t'.size := by
  simpa [size] using h.length_le

theorem getElem?_of_earlier (hx : (x : Nat) < t.size) : t'.nodes[x]? = t.nodes[x]? := by
  obtain ⟨more, hmore⟩ := h
  rw [← Array.getElem?_toList, ← Array.getElem?_toList, ← hmore,
    List.getElem?_append_left (by simpa [size] using hx)]

theorem shape_of_earlier (hx : (x : Nat) < t.size) : t'.shape x = t.shape x := by
  have hx' : (x : Nat) < t'.nodes.size := Nat.lt_of_lt_of_le hx (size_le_of_earlier h)
  have hnode := getElem?_of_earlier h hx
  rw [Array.getElem?_eq_getElem hx', Array.getElem?_eq_getElem hx] at hnode
  rw [shape, shape, dif_pos hx', dif_pos (show (x : Nat) < t.nodes.size from hx)]
  exact congrArg Node.shape (Option.some.inj hnode)

theorem span_of_earlier (hx : (x : Nat) < t.size) : t'.span x = t.span x := by
  rw [span, span, getElem?_of_earlier h hx]

theorem Spanned.of_earlier (hspanned : t.Spanned x) (hx : (x : Nat) < t.size) : t'.Spanned x := by
  unfold Spanned at hspanned ⊢
  have hchildren : t'.children x = t.children x := by
    rw [children, children, shape_of_earlier h hx]
  rw [span_of_earlier h hx, hchildren, List.map_congr_left fun c hc =>
    span_of_earlier h (Nat.lt_trans (t.child_lt hc) hx)]
  exact hspanned

end Earlier

theorem Grows.trans (h : t.Grows t') (h' : t'.Grows t'') : t.Grows t'' where
  nodes := h.nodes.trans h'.nodes
  spanned x hx hx' := by
    by_cases hlt : x < t'.size
    · exact (h.spanned x hx hlt).of_earlier h'.nodes hlt
    · exact h'.spanned x (Nat.not_lt.1 hlt) hx'

theorem Grows.size_le (h : t.Grows t') : t.size ≤ t'.size := size_le_of_earlier h.nodes

end Tree

/-! ### Calls -/

/-- The calls that return a node, with what they are given. -/
inductive NodeCall where
  /-- A number, given by its spelling. -/
  | number (spelling : String)
  /-- A character. -/
  | char (c : Char)
  /-- A text. -/
  | text (contents : String)
  /-- An identifier. -/
  | ident (name : String)
  /-- The name of a type. -/
  | typeName (name : String)
  /-- An arithmetic expression. -/
  | binary (left : NodeId) (op : BinaryOp) (right : NodeId)
  /-- An expression with a sign in front. -/
  | signed (sign : Sign) (operand : NodeId)
  /-- An expression in parentheses. -/
  | group (expr : NodeId)
  /-- A call. -/
  | call (callee : NodeId)
  /-- A cast. -/
  | cast (expr ty : NodeId)
  /-- Native code, with its inputs and its output as names and offsets. -/
  | native (source : String) (inputs : List (String × Nat)) (output : Option (String × Nat))
  /-- A constant. -/
  | constant (name : String) (definition : NodeId)
  /-- A variable. -/
  | var (name : String) (ty init : Option NodeId)
  /-- A procedure. -/
  | procedure (result : Option NodeId) (body : NodeId)
  /-- A structure, with its fields as names and types. -/
  | struct (fields : List (String × NodeId))
  /-- An enumeration, with the names of its variants. -/
  | enum (variants : List String)
  /-- An array type. -/
  | array (elem len : NodeId)
  /-- An expression in the place of a statement. -/
  | exprStmt (expr : NodeId)
  /-- A store to one target. -/
  | assign (target value : NodeId)
  /-- A store to several targets. -/
  | parallel (targets values : List NodeId)
  /-- A return. -/
  | ret (value : Option NodeId)
  /-- A block. -/
  | block (stmts : List NodeId)
  /-- A source text. -/
  | module (items : List NodeId)
  deriving DecidableEq, Repr

namespace NodeCall

/-- The nodes that a call is given. -/
def args : NodeCall → List NodeId
  | number _ | char _ | text _ | ident _ | typeName _ | native _ _ _ | enum _ => []
  | binary left _ right => [left, right]
  | signed _ operand => [operand]
  | group expr | exprStmt expr => [expr]
  | call callee => [callee]
  | cast expr ty => [expr, ty]
  | constant _ definition => [definition]
  | var _ ty init => ty.toList ++ init.toList
  | procedure result body => result.toList ++ [body]
  | struct fields => fields.map Prod.snd
  | array elem len => [elem, len]
  | assign target value => [target, value]
  | parallel targets values => targets ++ values
  | ret value => value.toList
  | block stmts => stmts
  | module items => items

/-- The call itself. -/
def run : NodeCall → Build NodeId
  | number spelling => Build.number spelling
  | char c => Build.char c
  | text contents => Build.text contents
  | ident name => Build.ident name
  | typeName name => Build.typeName name
  | binary left op right => Build.binary left op right
  | signed sign operand => Build.signed sign operand
  | group expr => Build.group expr
  | call callee => Build.call callee
  | cast expr ty => Build.cast expr ty
  | native source inputs output => Build.native source inputs output
  | constant name definition => Build.constant name definition
  | var name ty init => Build.var name ty init
  | procedure result body => Build.procedure result body
  | struct fields => Build.struct fields
  | enum variants => Build.enum variants
  | array elem len => Build.array elem len
  | exprStmt expr => Build.exprStmt expr
  | assign target value => Build.assign target value
  | parallel targets values => Build.parallel targets values
  | ret value => Build.ret value
  | block stmts => Build.block stmts
  | module items => Build.module items

/-- The number of nodes that a call allocates before the one that it returns. -/
def helpers : NodeCall → Nat
  | binary _ _ _ | signed _ _ => 1
  | native _ inputs output => 2 * (inputs.length + output.toList.length)
  | struct fields => fields.length
  | enum variants => variants.length
  | _ => 0

/-- The shape of the node that a call returns, where `n` is the first number that it gives out.  An
identifier stands before the slot that ties it. -/
def shape (n : NodeId) : NodeCall → Shape
  | number spelling => .literal (.number spelling)
  | char c => .literal (.char c)
  | text contents => .literal (.text contents)
  | ident name => .ident name
  | typeName name => .typeName name
  | binary left _ right => .binary left n right
  | signed _ operand => .signed n operand
  | group expr => .group expr
  | call callee => .call callee
  | cast expr ty => .cast expr ty
  | native source inputs output =>
    .native source ((List.range inputs.length).map (n + 2 * · + 1))
      (output.map fun _ => n + 2 * inputs.length + 1)
  | constant name definition => .constant name definition
  | var name ty init => .var name ty init
  | procedure result body => .procedure result body
  | struct fields => .struct ((List.range fields.length).map (n + ·))
  | enum variants => .enum ((List.range variants.length).map (n + ·))
  | array elem len => .array elem len
  | exprStmt expr => .exprStmt expr
  | assign target value => .assign target value
  | parallel targets values => .parallel targets values
  | ret value => .ret value
  | block stmts => .block stmts
  | module items => .module items

/-- What a call does to the builder.  The span that is set goes to the node that is returned and is
used up by it; all other nodes that the call allocates lie where their children lie, and so does
this one if no span is set. -/
structure Makes (c : NodeCall) (b b' : Builder) : Prop where
  /-- The nodes there were are the first ones. -/
  earlier : b.tree.nodes.toList <+: b'.tree.nodes.toList
  /-- Behind them there are the helpers and the node itself. -/
  size : b'.tree.size = b.tree.size + c.helpers + 1
  /-- The last node has the shape that the call says. -/
  shape : b'.tree.shape (b.tree.size + c.helpers) = c.shape b.tree.size
  /-- The helpers lie where their children lie. -/
  helpers : ∀ x : Nat, b.tree.size ≤ x → x < b.tree.size + c.helpers → b'.tree.Spanned x
  /-- A span that was set is that of the last node. -/
  set : ∀ s, b.pending = some s → b'.tree.span (b.tree.size + c.helpers) = s
  /-- If none was set, the last node lies where its children lie. -/
  unset : b.pending = none → b'.tree.Spanned (b.tree.size + c.helpers)
  /-- No span is set afterwards. -/
  used : b'.pending = none

end NodeCall

/-! ### Nodes -/

namespace Tree

variable {t t' : Tree} {shape : Shape} {span : Span}

theorem earlier_push? (h : t.push? shape span = some t') : t.nodes.toList <+: t'.nodes.toList := by
  rw [nodes_push? h, Array.toList_push]
  exact List.prefix_append _ _

/-- The new node is spanned if its span is the hull of those of its children. -/
theorem spanned_push? (h : t.push? shape span = some t')
    (hhull : Span.Hull (shape.children.map t.span) span) : t'.Spanned t.size := by
  have hshape : t'.shape t.size = shape := by rw [shape_push? h, if_pos rfl]
  have hspan : t'.span t.size = span := by rw [span_push? h, if_pos rfl]
  have hchildren := (t.isSome_push? shape span).1 (by rw [h]; rfl)
  rw [Spanned, children, hshape, hspan, List.map_congr_left fun c hc =>
    span_of_earlier (earlier_push? h) (hchildren c hc)]
  exact hhull

theorem grows_push? (h : t.push? shape span = some t')
    (hhull : Span.Hull (shape.children.map t.span) span) : t.Grows t' where
  nodes := earlier_push? h
  spanned x hx hx' := by
    rw [size_push? h] at hx'
    obtain rfl : x = t.size := by omega
    exact spanned_push? h hhull

end Tree

namespace Build

variable {α β : Type} {b b' : Builder} {t : Tree} {shape : Shape} {covered : Span} {k : Nat}
  {P : Span → Prop}

theorem bind_eq {x : Build α} {a : α} (h : x b = some (a, b')) (f : α → Build β) :
    (x >>= f) b = f a b' := by
  show (x b >>= fun r => f r.1 r.2) = _
  rw [h]
  rfl

/-- A node is allocated if its children are there. -/
theorem node_eq (hchildren : ∀ c ∈ shape.children, c < b.tree.size) (covered : Span) :
    ∃ t, node shape covered b = some (b.tree.size, ⟨t, none⟩)
      ∧ b.tree.push? shape (b.pending.getD covered) = some t := by
  obtain ⟨t, ht⟩ := Option.isSome_iff_exists.1
    ((b.tree.isSome_push? shape (b.pending.getD covered)).2 hchildren)
  refine ⟨t, ?_, ht⟩
  show (b.tree.push? shape (b.pending.getD covered)).map _ = _
  rw [ht]
  rfl

theorem setAside_eq {x : Build α} {a : α} (h : x ⟨b.tree, none⟩ = some (a, b')) :
    setAside x b = some (a, ⟨b'.tree, b.pending⟩) := by
  show (x ⟨b.tree, none⟩ >>= _) = _
  rw [h]
  rfl

/-! ### Nodes on the way -/

/-- Without a span that is set, the call allocates some nodes that lie where their children lie, and
returns the one behind the first `k`, whose span has the property `P`. -/
def Allocates (k : Nat) (P : Span → Prop) (x : Build NodeId) (t : Tree) : Prop :=
  ∃ t', x ⟨t, none⟩ = some (t.size + k, ⟨t', none⟩) ∧ t.Grows t' ∧ t'.size = t.size + k + 1
    ∧ P (t'.span (t.size + k))

theorem allocates_node (hchildren : ∀ c ∈ shape.children, c < t.size)
    (hhull : Span.Hull (shape.children.map t.span) covered) (hP : P covered) :
    Allocates 0 P (node shape covered) t := by
  obtain ⟨t', heq, hpush⟩ := node_eq (b := ⟨t, none⟩) hchildren covered
  refine ⟨t', heq, Tree.grows_push? hpush hhull, Tree.size_push? hpush, ?_⟩
  rw [Nat.add_zero, Tree.span_push? hpush, if_pos rfl]
  exact hP

theorem allocates_leaf (hchildren : shape.children = []) :
    Allocates 0 (· = .nowhere) (leaf shape) t :=
  allocates_node (by simp [hchildren]) (Span.hull_nowhere (by simp [hchildren])) rfl

theorem allocates_covering (hchildren : ∀ c ∈ shape.children, c < t.size) :
    Allocates 0 (fun _ => True) (covering shape shape.children) t := by
  obtain ⟨t', heq, hmade⟩ : Allocates 0 (fun _ => True)
      (node shape (.coverAll (shape.children.map t.span))) t :=
    allocates_node hchildren (Span.hull_coverAll _) trivial
  exact ⟨t', heq, hmade⟩

/-- An identifier, and the slot that ties it. -/
theorem allocates_slot (name : String) (offset : Nat) (t : Tree) :
    Allocates 1 (· = .nowhere) (slot name offset) t := by
  obtain ⟨t₁, hident, hgrows, hsize, hspan⟩ : Allocates 0 (· = .nowhere) (ident name) t :=
    allocates_leaf rfl
  have hslot : Allocates 0 (· = .nowhere) (leaf (.slot t.size offset)) t₁ := by
    refine allocates_node ?_ (Span.hull_nowhere ?_) rfl
    · simp [Shape.children, hsize]
    · simpa [Shape.children] using hspan
  obtain ⟨t₂, hleaf, hgrows', hsize', hspan'⟩ := hslot
  refine ⟨t₂, ?_, hgrows.trans hgrows', by omega, ?_⟩
  · rw [slot, bind_eq hident]
    simpa [hsize] using hleaf
  · simpa [hsize] using hspan'

/-- The nodes that are returned for the entries of a list stand at equal distances. -/
theorem mapM_eq {f : α → Build NodeId} {l : List α} {n : Nat} (hn : n ≤ t.size)
    (hf : ∀ x ∈ l, ∀ t : Tree, n ≤ t.size → Allocates k P (f x) t) :
    ∃ t', l.mapM f ⟨t, none⟩
        = some ((List.range l.length).map fun j => t.size + (k + 1) * j + k, ⟨t', none⟩)
      ∧ t.Grows t' ∧ t'.size = t.size + (k + 1) * l.length
      ∧ ∀ j < l.length, P (t'.span (t.size + (k + 1) * j + k)) := by
  induction l generalizing t with
  | nil => exact ⟨t, rfl, .refl t, rfl, fun j hj => absurd hj (Nat.not_lt_zero j)⟩
  | cons x rest ih =>
    obtain ⟨t₁, hx, hgrows, hsize, hP⟩ := hf x (.head _) t hn
    obtain ⟨t₂, hrest, hgrows', hsize', hP'⟩ := ih (Nat.le_trans hn hgrows.size_le)
      fun y hy => hf y (.tail _ hy)
    -- The places of the rest are those behind the first one.
    have hplace (j : Nat) : t₁.size + (k + 1) * j + k = t.size + (k + 1) * (j + 1) + k := by
      rw [hsize, Nat.mul_succ]
      omega
    refine ⟨t₂, ?_, hgrows.trans hgrows', ?_, fun j hj => ?_⟩
    · rw [List.mapM_cons, bind_eq hx, bind_eq hrest, List.length_cons, List.range_succ_eq_map,
        List.map_cons, List.map_map]
      have hids : (List.range rest.length).map (fun j => t₁.size + (k + 1) * j + k)
          = (List.range rest.length).map ((fun j => t.size + (k + 1) * j + k) ∘ Nat.succ) :=
        List.map_congr_left fun j _ => hplace j
      rw [hids]
      rfl
    · rw [hsize', hsize, List.length_cons, Nat.mul_succ]
      omega
    · cases j with
      | zero =>
        have hlt : t.size + k < t₁.size := by omega
        rw [Nat.mul_zero, Nat.add_zero, Tree.span_of_earlier hgrows'.nodes hlt]
        exact hP
      | succ j =>
        rw [← hplace]
        exact hP' j (Nat.lt_of_succ_lt_succ hj)

/-- An output is an input that may be missing. -/
theorem output_eq (output : Option (String × Nat)) (t : Tree) :
    ∃ t', output.mapM (fun i => slot i.1 i.2) ⟨t, none⟩
        = some (output.map fun _ => t.size + 1, ⟨t', none⟩)
      ∧ t.Grows t' ∧ t'.size = t.size + 2 * output.toList.length
      ∧ (output.isSome → t'.span (t.size + 1) = .nowhere) := by
  cases output with
  | none => exact ⟨t, rfl, .refl t, rfl, by simp⟩
  | some i =>
    obtain ⟨t', hslot, hgrows, hsize, hspan⟩ := allocates_slot i.1 i.2 t
    refine ⟨t', ?_, hgrows, hsize, fun _ => hspan⟩
    show (slot i.1 i.2 ⟨t, none⟩ >>= fun r => pure (some r.1, r.2)) = _
    rw [hslot]
    rfl

/-- The slots of native code: an identifier and a slot for each input, and for the output. -/
theorem slots_eq (inputs : List (String × Nat)) (output : Option (String × Nat)) (t : Tree) :
    ∃ ids out t', ids = (List.range inputs.length).map (t.size + 2 * · + 1)
      ∧ out = output.map (fun _ => t.size + 2 * inputs.length + 1)
      ∧ (do
          let inputs ← inputs.mapM fun i => slot i.1 i.2
          let output ← output.mapM fun i => slot i.1 i.2
          return (inputs, output) : Build _) ⟨t, none⟩ = some ((ids, out), ⟨t', none⟩)
      ∧ t.Grows t' ∧ t'.size = t.size + 2 * (inputs.length + output.toList.length)
      ∧ ∀ x ∈ ids ++ out.toList, (x : Nat) < t'.size ∧ t'.span x = .nowhere := by
  -- The inputs are built first, two nodes for each.
  obtain ⟨t₁, hinputs, hgrows, hsize, hspans⟩ := mapM_eq (t := t) (l := inputs)
    (f := fun i => slot i.1 i.2) (Nat.zero_le _) fun i _ t _ => allocates_slot i.1 i.2 t
  obtain ⟨t₂, houtput, hgrows', hsize', hspan⟩ := output_eq output t₁
  have hsize : t₁.size = t.size + 2 * inputs.length := hsize
  rw [hsize] at houtput hsize' hspan
  refine ⟨_, _, t₂, rfl, rfl, (bind_eq hinputs _).trans (bind_eq houtput _), hgrows.trans hgrows',
    by omega, fun x hx => ?_⟩
  -- A slot stands behind its identifier, and it has no span.
  rcases List.mem_append.1 hx with hx | hx
  · obtain ⟨j, hj, rfl⟩ := List.mem_map.1 hx
    have hj := List.mem_range.1 hj
    have hlt : t.size + 2 * j + 1 < t₁.size := by omega
    refine ⟨Nat.lt_of_lt_of_le hlt hgrows'.size_le, ?_⟩
    rw [Tree.span_of_earlier hgrows'.nodes hlt]
    exact hspans j hj
  · cases output with
    | none => cases hx
    | some i =>
      obtain rfl := List.mem_singleton.1 hx
      refine ⟨?_, hspan rfl⟩
      rw [hsize']
      exact Nat.add_lt_add_left Nat.one_lt_two _

end Build

/-! ### What calls make -/

namespace NodeCall

variable {c : NodeCall} {b : Builder} {t : Tree} {covered : Span}

/-- A call makes what it should if it allocates its node behind its helpers. -/
theorem makes_node (hgrows : b.tree.Grows t) (hsize : t.size = b.tree.size + c.helpers)
    (hchildren : ∀ x ∈ (c.shape b.tree.size).children, (x : Nat) < t.size)
    (hhull : Span.Hull ((c.shape b.tree.size).children.map t.span) covered) :
    ∃ b', Build.node (c.shape b.tree.size) covered ⟨t, b.pending⟩
        = some (b.tree.size + c.helpers, b') ∧ c.Makes b b' := by
  obtain ⟨t', heq, hpush⟩ := Build.node_eq (b := ⟨t, b.pending⟩) hchildren covered
  have hpush : t.push? _ _ = some t' := hpush
  rw [← hsize]
  refine ⟨⟨t', none⟩, heq, hgrows.nodes.trans (Tree.earlier_push? hpush), ?_, ?_, ?_, ?_, ?_, rfl⟩
  · rw [Tree.size_push? hpush, hsize]
  · rw [← hsize, Tree.shape_push? hpush, if_pos rfl]
  · intro x hx hlt
    rw [← hsize] at hlt
    exact (hgrows.spanned x hx hlt).of_earlier (Tree.earlier_push? hpush) hlt
  · intro s hs
    rw [← hsize, Tree.span_push? hpush, if_pos rfl, hs]
    rfl
  · intro hnone
    rw [hnone] at hpush
    rw [← hsize]
    exact Tree.spanned_push? hpush hhull

/-- A call without helpers whose node covers its arguments makes what it should. -/
theorem makes_covering (hhelpers : c.helpers = 0)
    (hrun : c.run b = Build.covering (c.shape b.tree.size) c.args b)
    (hchildren : (c.shape b.tree.size).children = c.args)
    (hargs : ∀ x ∈ c.args, (x : Nat) < b.tree.size) :
    ∃ b', c.run b = some (b.tree.size + c.helpers, b') ∧ c.Makes b b' := by
  rw [hrun]
  refine makes_node (.refl b.tree) (by rw [hhelpers]; rfl) (hchildren ▸ hargs) ?_
  rw [hchildren]
  exact Span.hull_coverAll _

/-- An operator lies nowhere, so that it makes no difference to what is covered. -/
theorem makes_operator (op : Shape) {around : List NodeId} (hop : op.children = [])
    (hhelpers : c.helpers = 1)
    (hmem : ∀ x, x ∈ (c.shape b.tree.size).children ↔ x = b.tree.size ∨ x ∈ around)
    (haround : ∀ x ∈ around, (x : Nat) < b.tree.size) :
    ∃ b', (Build.setAside (Build.leaf op) >>= fun id => Build.covering (c.shape id) around) b
        = some (b.tree.size + c.helpers, b') ∧ c.Makes b b' := by
  obtain ⟨t, hleaf, hgrows, hsize, hspan⟩ :
    Build.Allocates 0 (· = .nowhere) (Build.leaf op) b.tree :=
    Build.allocates_leaf hop
  rw [Build.bind_eq (Build.setAside_eq hleaf)]
  refine makes_node hgrows (by rw [hsize, hhelpers]) (fun x hx => ?_)
    ((Span.hull_coverAll (around.map t.span)).congr fun a hne => ?_)
  · rcases (hmem x).1 hx with rfl | hx
    · exact hsize ▸ Nat.lt_succ_self _
    · exact Nat.lt_of_lt_of_le (haround x hx) hgrows.size_le
  · simp only [List.mem_map, hmem, or_and_right, exists_or, exists_eq_left]
    exact (or_iff_right fun h => hne (h.symm.trans hspan)).symm

theorem makes_native (source : String) (inputs : List (String × Nat))
    (output : Option (String × Nat)) (b : Builder) :
    ∃ b', Build.native source inputs output b
        = some (b.tree.size + (native source inputs output).helpers, b')
      ∧ (native source inputs output).Makes b b' := by
  obtain ⟨ids, out, t, hids, hout, hslots, hgrows, hsize, hnowhere⟩ :=
    Build.slots_eq inputs output b.tree
  have hrun : Build.native source inputs output b = _ := Build.bind_eq (Build.setAside_eq hslots) _
  subst hids hout
  rw [hrun]
  refine makes_node (c := native source inputs output) hgrows hsize
    (fun x hx => (hnowhere x hx).1) (Span.hull_nowhere fun a ha => ?_)
  obtain ⟨x, hx, rfl⟩ := List.mem_map.1 ha
  exact (hnowhere x hx).2

theorem makes_struct (fields : List (String × NodeId)) (b : Builder)
    (hfields : ∀ field ∈ fields, (field.2 : Nat) < b.tree.size) :
    ∃ b', Build.struct fields b = some (b.tree.size + (struct fields).helpers, b')
      ∧ (struct fields).Makes b b' := by
  have hfield (field) (hmem : field ∈ fields) (t : Tree) (hle : b.tree.size ≤ t.size) :
      Build.Allocates 0 (fun _ => True) (Build.covering (.field field.1 field.2) [field.2]) t := by
    refine Build.allocates_covering fun x hx => ?_
    obtain rfl := List.mem_singleton.1 hx
    exact Nat.lt_of_lt_of_le (hfields field hmem) hle
  obtain ⟨t, hmapM, hgrows, hsize, -⟩ := Build.mapM_eq (Nat.le_refl _) hfield
  simp only [Nat.zero_add, Nat.one_mul, Nat.add_zero] at hmapM hsize
  have hrun : Build.struct fields b = _ := Build.bind_eq (Build.setAside_eq hmapM) _
  rw [hrun]
  refine makes_node (c := struct fields) hgrows hsize (fun x hx => ?_) (Span.hull_coverAll _)
  obtain ⟨j, hj, rfl⟩ := List.mem_map.1 hx
  rw [hsize]
  exact Nat.add_lt_add_left (List.mem_range.1 hj) _

theorem makes_enum (variants : List String) (b : Builder) :
    ∃ b', Build.enum variants b = some (b.tree.size + (enum variants).helpers, b')
      ∧ (enum variants).Makes b b' := by
  obtain ⟨t, hmapM, hgrows, hsize, hspans⟩ := Build.mapM_eq (t := b.tree) (l := variants) (k := 0)
    (P := (· = .nowhere)) (f := fun name => Build.leaf (.variant name)) (Nat.le_refl _)
    fun name _ t _ => Build.allocates_leaf rfl
  simp only [Nat.zero_add, Nat.one_mul, Nat.add_zero] at hmapM hsize hspans
  have hrun : Build.enum variants b = _ := Build.bind_eq (Build.setAside_eq hmapM) _
  rw [hrun]
  refine makes_node (c := enum variants) hgrows hsize (fun x hx => ?_)
    (Span.hull_nowhere fun a ha => ?_)
  · obtain ⟨j, hj, rfl⟩ := List.mem_map.1 hx
    rw [hsize]
    exact Nat.add_lt_add_left (List.mem_range.1 hj) _
  · obtain ⟨x, hx, rfl⟩ := List.mem_map.1 ha
    obtain ⟨j, hj, rfl⟩ := List.mem_map.1 hx
    exact hspans j (List.mem_range.1 hj)

/-- **Every call whose arguments are in the tree makes what it should.** -/
theorem run_makes (c : NodeCall) (b : Builder) (hargs : ∀ x ∈ c.args, (x : Nat) < b.tree.size) :
    ∃ b', c.run b = some (b.tree.size + c.helpers, b') ∧ c.Makes b b' := by
  cases c with
  | number | char | text | ident | typeName | group | call | cast | constant | var | procedure
  | array | exprStmt | assign | parallel | ret | block | module =>
    exact makes_covering rfl rfl rfl hargs
  | binary left op right =>
    exact makes_operator (c := binary left op right) (.binaryOp op) rfl rfl
      (by simp [shape, Shape.children, or_left_comm]) hargs
  | signed sign operand =>
    exact makes_operator (c := signed sign operand) (.signOp sign) rfl rfl
      (by simp [shape, Shape.children]) hargs
  | native source inputs output => exact makes_native source inputs output b
  | struct fields =>
    exact makes_struct fields b fun field hfield => hargs _ (List.mem_map_of_mem hfield)
  | enum variants => exact makes_enum variants b

end NodeCall

/-! ### Sequences of calls -/

/-- What can be asked of a builder. -/
inductive BuildCall where
  /-- Set the span of the next node. -/
  | setSpan (span : Span)
  /-- Make a node. -/
  | node (c : NodeCall)
  deriving DecidableEq, Repr

/-- A builder with the nodes that its calls have returned. -/
structure Session where
  /-- The builder. -/
  builder : Builder
  /-- The nodes, in the order of the calls. -/
  returned : List NodeId

namespace Session

/-- Nothing built yet. -/
def start : Session := ⟨.empty, []⟩

/-- The tree so far, as it is stored. -/
def arena (s : Session) : Arena := .ofTree s.builder.tree

/-- Make a call whose arguments have been returned by earlier ones. -/
def call? (s : Session) : BuildCall → Option Session
  | .setSpan span => (Build.setSpan span s.builder).map fun r => ⟨r.2, s.returned⟩
  | .node c =>
    if ∀ x ∈ c.args, x ∈ s.returned then
      (c.run s.builder).map fun r => ⟨r.2, r.1 :: s.returned⟩
    else none

/-- The session after the calls, unless one of them names a node that is not there. -/
def callAll? (s : Session) : List BuildCall → Option Session
  | [] => some s
  | c :: rest => do (← s.call? c).callAll? rest

/-- All nodes that have been returned are in the tree. -/
def Returns (s : Session) : Prop := ∀ x ∈ s.returned, (x : Nat) < s.builder.tree.size

variable {s s' : Session} {c : BuildCall} {calls : List BuildCall}

theorem Returns.call (hs : s.Returns) (h : s.call? c = some s') :
    s'.Returns ∧ s.builder.tree.nodes.toList <+: s'.builder.tree.nodes.toList := by
  cases c with
  | setSpan span =>
    cases h
    exact ⟨hs, List.prefix_refl _⟩
  | node c =>
    simp only [call?] at h
    split at h
    · next hargs =>
      obtain ⟨b', hrun, hmakes⟩ := c.run_makes s.builder fun x hx => hs x (hargs x hx)
      rw [hrun] at h
      cases h
      refine ⟨fun x hx => ?_, hmakes.earlier⟩
      show x < b'.tree.size
      rw [hmakes.size]
      rcases List.mem_cons.1 hx with rfl | hx
      · exact Nat.lt_succ_self _
      · exact Nat.lt_of_lt_of_le (hs x hx) (Nat.le_trans (Nat.le_add_right _ _) (Nat.le_succ _))
    · cases h

theorem Returns.callAll (hs : s.Returns) (h : s.callAll? calls = some s') :
    s'.Returns ∧ s.builder.tree.nodes.toList <+: s'.builder.tree.nodes.toList := by
  induction calls generalizing s with
  | nil =>
    cases h
    exact ⟨hs, List.prefix_refl _⟩
  | cons c rest ih =>
    obtain ⟨s₁, hcall, hrest⟩ := Option.bind_eq_some_iff.1 h
    obtain ⟨hs₁, hearlier⟩ := hs.call hcall
    obtain ⟨hs', hearlier'⟩ := ih hs₁ hrest
    exact ⟨hs', hearlier.trans hearlier'⟩

theorem returns_start : start.Returns := fun x hx => by cases hx

/-- **All trees that are built are acyclic, stored in the arena and spanned.**  After any calls
whose arguments have been returned by earlier ones, every such call is answered, and makes what it
should of the tree and of the span that is set.  The children that the arena has for a node have
smaller numbers; and what it has stored of a node ends inside the side list and reads as the node
does, then and after any further calls. -/
theorem builds (hs : start.callAll? calls = some s) :
    (∀ c : NodeCall, (∀ x ∈ c.args, x ∈ s.returned) →
      ∃ b', c.run s.builder = some (s.builder.tree.size + c.helpers, b') ∧ c.Makes s.builder b')
    ∧ (∀ x, s.arena.children x = s.builder.tree.children x ∧ ∀ c ∈ s.arena.children x, c < x)
    ∧ ∀ more s', s.callAll? more = some s' →
        ∀ (x : Nat) n, s.builder.tree.nodes.toList[x]? = some n →
          ∃ stored, s.arena.nodes[x]? = some stored ∧ Arena.Holds s.arena.lists stored n
          ∧ s'.arena.nodes[x]? = some stored ∧ Arena.Holds s'.arena.lists stored n := by
  obtain ⟨hreturns, -⟩ := returns_start.callAll hs
  refine ⟨fun c hargs => c.run_makes s.builder fun x hx => hreturns x (hargs x hx), fun x => ?_, ?_⟩
  · have hchildren : s.arena.children x = _ := Arena.children_ofTree s.builder.tree x
    rw [hchildren]
    exact ⟨rfl, fun c hc => s.builder.tree.child_lt hc⟩
  · intro more s' hmore x n hn
    obtain ⟨-, hearlier⟩ := hreturns.callAll hmore
    obtain ⟨stored, hstored, hholds⟩ : ∃ stored, s.arena.nodes[x]? = some stored
        ∧ Arena.Holds s.arena.lists stored n := (Arena.stores_ofTree s.builder.tree).holds x n hn
    obtain ⟨⟨later, hnodes⟩, ids, hlists⟩ : s.arena.Grows s'.arena := Arena.ofTree_grows hearlier
    refine ⟨stored, hstored, hholds, ?_, ?_⟩
    · rw [← hnodes, List.getElem?_append_left (List.getElem?_eq_some_iff.1 hstored).1, hstored]
    · rw [← hlists]
      exact hholds.append ids

/-- The calls for `x := 1 + 2`, for a structure, and for an assignment over the two numbers. -/
def swapCalls : List BuildCall :=
  [.setSpan ⟨5, 6⟩, .node (.number "1"), .setSpan ⟨9, 10⟩, .node (.number "2"),
    .node (.binary 0 .add 1), .node (.var "x" none (some 3)), .setSpan ⟨30, 33⟩,
    .node (.typeName "s32"), .setSpan ⟨20, 40⟩, .node (.struct [("a", 5), ("b", 5)]),
    .node (.parallel [0, 1] [1, 0])]

/-- The sum covers its operands, and the structure takes the span that is set, which its fields do
not.  A block of the variable and the assignment then lies from the first number to the second one;
the lists of the structure and of the assignment stand in the side list before its own. -/
theorem swapCalls_builds :
    ∃ s, start.callAll? swapCalls = some s
      ∧ s.builder.tree.nodes.toList.map Node.span
        = [⟨5, 6⟩, ⟨9, 10⟩, .nowhere, ⟨5, 10⟩, ⟨5, 10⟩, ⟨30, 33⟩, ⟨30, 33⟩, ⟨30, 33⟩, ⟨20, 40⟩,
          ⟨5, 10⟩]
      ∧ s.arena.lists = [6, 7, 0, 1, 1, 0]
      ∧ s.arena.nodes[9]? = some ⟨.parallel ⟨2, 2⟩ ⟨4, 2⟩, ⟨5, 10⟩⟩
      ∧ s.arena.children 9 = [0, 1, 1, 0] ∧ (∀ x, ∀ c ∈ s.arena.children x, c < x)
      ∧ ∃ b', NodeCall.run (.block [4, 9]) s.builder = some (10, b') ∧ b'.tree.Spanned 10 := by
  -- The tree and the side list are computed.
  have hcomputed : (start.callAll? swapCalls).any (fun s =>
      decide (s.builder.tree.nodes.toList.map Node.span
        = [⟨5, 6⟩, ⟨9, 10⟩, .nowhere, ⟨5, 10⟩, ⟨5, 10⟩, ⟨30, 33⟩, ⟨30, 33⟩, ⟨30, 33⟩, ⟨20, 40⟩,
          ⟨5, 10⟩]
      ∧ s.arena.lists = [6, 7, 0, 1, 1, 0]
      ∧ s.arena.nodes[9]? = some ⟨.parallel ⟨2, 2⟩ ⟨4, 2⟩, ⟨5, 10⟩⟩
      ∧ s.arena.children 9 = [0, 1, 1, 0] ∧ s.builder.tree.size = 10 ∧ s.builder.pending = none
      ∧ 4 ∈ s.returned ∧ 9 ∈ s.returned)) = true := by
    decide +kernel
  cases hs : start.callAll? swapCalls with
  | none =>
    rw [hs] at hcomputed
    cases hcomputed
  | some s =>
    simp only [hs, Option.any_some, decide_eq_true_eq] at hcomputed
    obtain ⟨hspans, hlists, hnode, hchildren, hsize, hpending, hvar, hassign⟩ := hcomputed
    -- What the last call makes follows from the theorem.
    obtain ⟨hcalls, hacyclic, -⟩ := builds hs
    obtain ⟨b', hrun, hmakes⟩ := hcalls (.block [4, 9]) (by simp [NodeCall.args, hvar, hassign])
    have hspanned := hmakes.unset hpending
    rw [hsize] at hrun hspanned
    exact ⟨s, rfl, hspans, hlists, hnode, hchildren, fun x => (hacyclic x).2, b', hrun, hspanned⟩

end Session

end MiddleEnd
