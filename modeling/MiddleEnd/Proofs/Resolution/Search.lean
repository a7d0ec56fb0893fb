import MiddleEnd.Proofs.Tree.Scopes

/-!
# The scopes that a search walks through

A search for a name asks one scope after the other for its latest entry of the name.  Which scopes
it asks depends on the links and not on the entries, so that a search is the first answer along a
fixed list of scopes.

## Main definitions

* `Resolution.Surroundings.Walks` — the scopes that a search from one of them asks, in order.
* `Resolution.firstOf?` — the first answer along a list of scopes.
* `Resolution.Surroundings.Regular` — a section whose links follow the tree.

## Main results

* `Resolution.lookupWithin_of_walks` — a search with enough steps gives the first answer.
* `Resolution.Surroundings.Regular.lookup_eq` — a node of a section searches the scopes around it.
-/

namespace MiddleEnd

namespace Resolution

/-- The scopes that a search from `a` asks, in order. -/
inductive Surroundings.Walks (s : Surroundings) : NodeId → List NodeId → Prop
  /-- The search ends at the root, unless it goes beyond it, or where there is no scope around. -/
  | stop {a : NodeId}
      (h : (a = s.root ∧ ¬s.searchesOuter) ∨ s.links.enclosingScope? s.tree a = none) :
      Walks s a [a]
  /-- The search goes on in the scope around. -/
  | outward {a b : NodeId} {rest : List NodeId} (hgo : ¬(a = s.root ∧ ¬s.searchesOuter))
      (hnext : s.links.enclosingScope? s.tree a = some b) (hrest : Walks s b rest) :
      Walks s a (a :: rest)

/-- The latest entry of `name` in the first of the scopes that has one. -/
def firstOf? (entries : List Entry) (name : String) (scopes : List NodeId) : Option NodeId :=
  scopes.findSome? fun scope => latest? entries (some scope) name

theorem firstOf?_congr {entries : List Entry} {name : String} {f : NodeId → Option NodeId}
    {scopes : List NodeId} (h : ∀ scope ∈ scopes, latest? entries (some scope) name = f scope) :
    firstOf? entries name scopes = scopes.findSome? f := by
  unfold firstOf?
  induction scopes with
  | nil => rfl
  | cons scope scopes ih =>
    rw [List.findSome?_cons, List.findSome?_cons, h scope (.head _),
      ih fun s hs => h s (.tail _ hs)]

theorem firstOf?_append (entries : List Entry) (name : String) (scopes scopes' : List NodeId) :
    firstOf? entries name (scopes ++ scopes')
      = (firstOf? entries name scopes).or (firstOf? entries name scopes') := by
  unfold firstOf?
  rw [List.findSome?_append]

/-- **A search with enough steps gives the first answer along the scopes it asks.** -/
theorem lookupWithin_of_walks {s : Surroundings} {a : NodeId} {scopes : List NodeId}
    (h : s.Walks a scopes) (entries : List Entry) (ident : NodeId) (name : String) {steps : Nat}
    (hsteps : scopes.length ≤ steps) :
    lookupWithin s entries ident name steps (some a) = .ok (firstOf? entries name scopes) := by
  induction h generalizing steps with
  | @stop a h =>
    obtain ⟨steps, rfl⟩ : ∃ n, steps = n + 1 := ⟨steps - 1, by simp at hsteps; omega⟩
    unfold lookupWithin firstOf?
    cases hlatest : latest? entries (some a) name with
    | some decl => simp [hlatest]
    | none =>
      rcases h with ⟨rfl, houter⟩ | h
      · simp [hlatest, houter]
      · simp [hlatest, h]
  | @outward a b rest hgo hnext hrest ih =>
    obtain ⟨steps, rfl⟩ : ∃ n, steps = n + 1 := ⟨steps - 1, by simp at hsteps; omega⟩
    rw [List.length_cons] at hsteps
    have ih := @ih steps (by omega)
    unfold lookupWithin firstOf?
    cases hlatest : latest? entries (some a) name with
    | some decl => simp [hlatest]
    | none =>
      have hgo' : ¬(some a = some s.root ∧ ¬s.searchesOuter) := by
        rintro ⟨hroot, houter⟩
        exact hgo ⟨Option.some.inj hroot, houter⟩
      simp only [hlatest, if_neg hgo', hnext, ih, List.findSome?_cons]
      rfl

/-! ### Sections -/

/-- A section that lists no node twice, below a scope, with links that follow the tree.  From its
root the search goes on to the scopes of `tail`. -/
structure Surroundings.Regular (s : Surroundings) (tail : List NodeId) : Prop where
  /-- The root is a scope. -/
  root_scope : s.tree.isScope s.root = true
  /-- No node is listed twice. -/
  nodup : (s.tree.preorder s.root).Nodup
  /-- The links follow the tree. -/
  links : s.links.Follow s.tree s.root
  /-- There is a link for the root. -/
  size : s.root < s.links.size
  /-- From the root the search asks the scopes of `tail`. -/
  outward : s.Walks s.root (s.root :: tail)
  /-- There is at most one of them. -/
  length : tail.length ≤ 1

variable {s : Surroundings} {tail : List NodeId}

/-- Below the root of a section the search walks through the scopes around, and on from the root. -/
theorem Surroundings.Regular.walks_scopesAround (h : s.Regular tail) {a : NodeId}
    (ha : a ∈ s.tree.preorder s.root) :
    s.Walks a (a :: s.tree.scopesAround s.root a ++ tail) := by
  generalize hscopes : s.tree.scopesAround s.root a = scopes
  induction scopes generalizing a with
  | nil =>
    -- Only the root is in no scope.
    have hroot : a = s.root := Decidable.byContradiction fun hne => by
      have hsome := Tree.isSome_scopeOf? h.root_scope ha hne
      rw [Tree.scopeOf?, hscopes] at hsome
      cases hsome
    rw [hroot]
    exact h.outward
  | cons b scopes ih =>
    have hne : a ≠ s.root := by
      rintro rfl
      rw [Tree.scopesAround_root] at hscopes
      cases hscopes
    have hb : s.tree.scopeOf? s.root a = some b := by rw [Tree.scopeOf?, hscopes]; rfl
    have hrest := Tree.scopesAround_of_scopeOf? h.nodup ha hb
    rw [hscopes] at hrest
    have hmem := (Tree.mem_scopesAround.1 (Tree.mem_of_scopeOf? hb)).1
    refine .outward (fun hroot => hne hroot.1) ?_ (ih hmem (List.cons.inj hrest).2.symm)
    rw [h.links.enclosingScope?_eq h.nodup h.root_scope h.size ha hne, hb]

/-- **What a node of a section finds under a name is the first answer along the scopes around it and
those that the search goes on to from the root.** -/
theorem Surroundings.Regular.lookup_eq (h : s.Regular tail) {x : NodeId}
    (hx : x ∈ s.tree.preorder s.root) (hne : x ≠ s.root) (entries : List Entry) (name : String) :
    lookup s entries (s.tree.scopeOf? s.root x) x name
      = .ok (firstOf? entries name (s.tree.scopesAround s.root x ++ tail)) := by
  obtain ⟨b, hb⟩ := Option.isSome_iff_exists.1 (Tree.isSome_scopeOf? h.root_scope hx hne)
  have hmem := (Tree.mem_scopesAround.1 (Tree.mem_of_scopeOf? hb)).1
  have hwalks := h.walks_scopesAround hmem
  have hlength : (s.tree.scopesAround s.root x ++ tail).length ≤ s.tree.size + 1 := by
    rw [List.length_append]
    exact Nat.add_le_add
      (Nat.le_trans (Tree.length_scopesAround_le s.root x)
        (Tree.weight_le_size h.nodup (Tree.lt_size_of_isScope h.root_scope))) h.length
  rw [Tree.scopesAround_of_scopeOf? h.nodup hx hb] at hlength ⊢
  rw [hb]
  exact lookupWithin_of_walks hwalks entries x name hlength

end Resolution

end MiddleEnd
