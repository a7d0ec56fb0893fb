import MiddleEnd.Proofs.Resolution.Scan

/-!
# Lexical scoping

The rule that a resolution follows, stated for the tree: a name is bound to the latest visible item
of that name in the innermost scope around it that has one.  Where declarations are items of scopes
the resolution of a section follows this rule, and it reports every identifier that the rule binds
to nothing.

## Main definitions

* `Tree.DeclaresInScopes` — declarations are items of scopes.
* `Tree.declared?` — the latest item of a scope that declares a name and is visible at a position.
* `Tree.lexical?` — the same of the scopes around a node, innermost first.
* `Tree.binding?`, `Tree.unbound` — the binding of each identifier, and those that have none.
* `Tree.Reports` — a diagnostic about an identifier without a binding.

## Main results

* `Resolution.latest?_eq_declared?` — the latest entry of a scope is its latest item.
* `Resolution.ofSection_lexical` — **a section is resolved by lexical scoping.**
-/

namespace MiddleEnd

namespace Tree

variable (t : Tree)

/-- Every declaration below `root` is an item of a scope. -/
def DeclaresInScopes (root : NodeId) : Prop :=
  ∀ y ∈ t.preorder root, ∀ d ∈ t.children y, (t.shape d).isDeclaration = true → t.isScope y = true

instance (root : NodeId) : Decidable (t.DeclaresInScopes root) :=
  inferInstanceAs (Decidable (∀ y ∈ t.preorder root, ∀ d ∈ t.children y, _))

/-- The latest item of `scope` that declares `name` and is visible at position `p`. -/
def declared? (root : NodeId) (p : Nat) (name : String) (scope : NodeId) : Option NodeId :=
  (t.children scope).reverse.find? fun d =>
    (t.shape d).declaredName? = some name ∧ t.visibleFrom root d ≤ p

/-- The declaration of `name` that is visible at position `p` in the innermost scope around `x` that
has one. -/
def lexical? (root x : NodeId) (p : Nat) (name : String) : Option NodeId :=
  (t.scopesAround root x).findSome? (t.declared? root p name)

/-- The declaration that lexical scoping binds an identifier of the section to. -/
def binding? (root x : NodeId) : Option NodeId :=
  match t.shape x with
  | .ident name =>
    if x ∈ t.preorder root then t.lexical? root x (t.position root x) name else none
  | _ => none

/-- The identifiers of the section that lexical scoping binds to nothing, in order. -/
def unbound (root : NodeId) : List NodeId :=
  (t.preorder root).filter fun x => (t.shape x).isIdent ∧ t.binding? root x = none

/-- `d` declares the name of the identifier `x` in a scope around it. -/
def DeclaresAround (root x d : NodeId) : Prop :=
  ∃ name, t.shape x = .ident name ∧ ∃ scope ∈ t.scopesAround root x, d ∈ t.children scope
    ∧ (t.shape d).declaredName? = some name

/-- The error for an identifier without a binding.  It has a second place and a note if a scope
around the identifier declares the name at all. -/
structure Reports (root x : NodeId) (diag : Diagnostic) : Prop where
  /-- It is an error. -/
  severity : diag.severity = .error
  /-- It says that the name is unknown. -/
  cause : diag.cause = .unknownName
  /-- It is about the identifier. -/
  place : (diag.labels.filter Label.isPrimary).map Label.span = [t.span x]
  /-- If a scope around declares the name, a declaration of it is pointed out, with a note. -/
  declared : (∃ d, t.DeclaresAround root x d) → (∃ d, t.DeclaresAround root x d
    ∧ (diag.labels.filter (!·.isPrimary)).map Label.span = [t.span d]) ∧ diag.notes.length = 1
  /-- If none does, there is nothing to point out. -/
  undeclared : (¬∃ d, t.DeclaresAround root x d) →
    diag.labels.filter (!·.isPrimary) = [] ∧ diag.notes = []

end Tree

/-- A declaration is an item, and of no other class. -/
theorem Shape.only_item {s : Shape} (h : s.isDeclaration = true) : s.isExpr = false
    ∧ s.isType = false ∧ s.isBlock = false ∧ s.isField = false ∧ s.isVariant = false
    ∧ s.isBinaryOp = false ∧ s.isSignOp = false ∧ s.isSlot = false ∧ s.isIdent = false := by
  cases s <;> first | (cases h; done) | exact ⟨rfl, rfl, rfl, rfl, rfl, rfl, rfl, rfl, rfl⟩

/-- Where all nodes fit, declarations are items of scopes. -/
theorem Tree.WellFormed.declares_in_scopes {t : Tree} {root : NodeId} (h : t.WellFormed root) :
    t.DeclaresInScopes root := by
  intro y hy d hd hdecl
  obtain ⟨hexpr, htype, hblock, hfield, hvariant, hbinary, hsign, hslot, hident⟩ :=
    Shape.only_item hdecl
  have hfits := h.fits y hy
  unfold Tree.fits at hfits
  unfold Tree.children at hd
  unfold Tree.isScope
  cases hshape : t.shape y <;> rw [hshape] at hfits hd <;>
    simp only [Shape.children, List.mem_cons, List.mem_append, Option.mem_toList, List.not_mem_nil,
      or_false, Bool.and_eq_true, List.all_eq_true, Option.all_eq_true] at hfits hd <;>
    first | rfl | grind

namespace Resolution

variable {t : Tree} {root : NodeId}

/-! ### Items -/

/-- Where declarations are items, those made directly in a scope are its items. -/
theorem declares_iff_item (hnodup : (t.preorder root).Nodup) (hscope : t.isScope root = true)
    (hitems : t.DeclaresInScopes root) {scope : NodeId} (hmem : scope ∈ t.preorder root)
    (hs : t.isScope scope = true) {name : String} {d : NodeId} :
    Declares t root scope name d
      ↔ d ∈ t.children scope ∧ (t.shape d).declaredName? = some name := by
  constructor
  · rintro ⟨hd, hname, hin⟩
    have hne : d ≠ root := by
      rintro rfl
      exact Bool.false_ne_true ((Shape.not_isScope_of_declaredName? hname).symm.trans hscope)
    obtain ⟨y, hy, hdy⟩ := Tree.exists_parent hd hne
    have hyscope := hitems y hy d hdy (by simp [Shape.isDeclaration, hname])
    rw [Tree.scopeOf?_child hnodup hy hdy, if_pos hyscope] at hin
    obtain rfl := Option.some.inj hin
    exact ⟨hdy, hname⟩
  · rintro ⟨hd, hname⟩
    refine ⟨t.mem_preorder_trans hmem (t.child_mem_preorder hd), hname, ?_⟩
    rw [Tree.scopeOf?_child hnodup hmem hd, if_pos hs]

/-- Of two items the one that comes later in the source becomes visible later. -/
theorem later_of_apart {d d' : NodeId}
    (hapart : t.position root d' + t.weight d' ≤ t.position root d) : Later t root d d' := by
  have hweight := t.weight_pos d
  have hweight' := t.weight_pos d'
  have hend := t.visibleFrom_le_end root d'
  have hbegin := t.position_le_visibleFrom root d
  rcases Nat.lt_or_ge (t.visibleFrom root d') (t.visibleFrom root d) with hlt | hge
  · exact .inl hlt
  · -- Both are visible from where `d` begins, so that `d` is a procedure and `d'` is not.
    have heq : t.visibleFrom root d' = t.visibleFrom root d := by omega
    refine .inr ⟨heq, ?_, .inl ?_⟩
    · by_cases hproc : t.namesProcedure d' = true
      · rw [Tree.visibleFrom_of_procedure hproc] at heq
        omega
      · simpa using hproc
    · by_cases hproc : t.namesProcedure d = true
      · exact hproc
      · have hvalue : t.visibleFrom root d = t.position root d + t.weight d :=
          Tree.visibleFrom_of_value (by simpa using hproc)
        omega

/-- **The latest entry of a scope is its latest item that is visible.** -/
theorem latest?_eq_declared? {n u p : Nat} {entries : List Entry}
    (hnodup : (t.preorder root).Nodup) (hscope : t.isScope root = true)
    (hitems : t.DeclaresInScopes root) (hlisted : Listed t root n u entries)
    (hvisible : ∀ d ∈ t.preorder root, (t.shape d).isDeclaration = true →
      (t.position root d < n ∧ t.visibleFrom root d < u ↔ t.visibleFrom root d ≤ p))
    {scope : NodeId} (hmem : scope ∈ t.preorder root) (hs : t.isScope scope = true)
    (name : String) :
    latest? entries (some scope) name = t.declared? root p name scope := by
  -- What a scope declares are its items.
  have hdeclares (d : NodeId) : Declares t root scope name d
      ↔ d ∈ t.children scope ∧ (t.shape d).declaredName? = some name :=
    declares_iff_item hnodup hscope hitems hmem hs
  have hp : ∀ d, Declares t root scope name d →
      (t.position root d < n ∧ t.visibleFrom root d < u ↔ t.visibleFrom root d ≤ p) := fun d hd =>
    hvisible d hd.1 (by simp [Shape.isDeclaration, hd.2.1])
  have hapart := Tree.siblings_apart hnodup hmem
  -- Of two items the later one begins where the other has ended, or later.
  have hsiblings : ∀ d ∈ t.children scope, ∀ d' ∈ t.children scope, Later t root d d' →
      t.position root d' + t.weight d' ≤ t.position root d := by
    intro d hd d' hd' hlater
    rcases Tree.siblings_cases hnodup hmem hd hd' with rfl | h | h
    · exact (hlater.asymm hlater).elim
    · exact (hlater.asymm (later_of_apart h)).elim
    · exact h
  apply Option.ext
  intro d
  unfold Tree.declared?
  -- Both sides are a search for the first of a list: that of the entries, and that of the items
  -- from behind.
  rw [latest?_eq_some_iff hlisted, find?_eq_some_iff_of_pairwise (List.pairwise_reverse.2 hapart)]
  · simp only [List.mem_reverse, decide_eq_true_eq]
    constructor
    · rintro ⟨⟨hd, hvisible⟩, hall⟩
      obtain ⟨hmemd, hname⟩ := (hdeclares d).1 hd
      refine ⟨hmemd, ⟨hname, (hp d hd).1 hvisible⟩, ?_⟩
      rintro d' hd' ⟨hname', hle⟩
      have hdeclared := (hdeclares d').2 ⟨hd', hname'⟩
      obtain ⟨hn, hu⟩ := (hp d' hdeclared).2 hle
      exact (hall d' hdeclared hn hu).imp_right (hsiblings d hmemd d' hd')
    · rintro ⟨hmemd, ⟨hname, hle⟩, hall⟩
      have hd := (hdeclares d).2 ⟨hmemd, hname⟩
      refine ⟨⟨hd, (hp d hd).2 hle⟩, ?_⟩
      intro d' hd' hn hu
      obtain ⟨hmemd', hname'⟩ := (hdeclares d').1 hd'
      exact (hall d' hmemd' ⟨hname', (hp d' hd').1 ⟨hn, hu⟩⟩).imp_right later_of_apart
  · intro a b hab hba
    have hweight := t.weight_pos a
    omega

/-! ### Sections -/

section

variable (hnodup : (t.preorder root).Nodup) (hscope : t.isScope root = true)
  (hitems : t.DeclaresInScopes root)

include hnodup hscope hitems

/-- What an identifier finds is what lexical scoping gives it. -/
theorem finds_eq_lexical? {x : NodeId} {name : String} (hname : t.shape x = .ident name)
    {found : Option NodeId} (h : Finds t root [] [] x name found) :
    found = t.lexical? root x (t.position root x) name := by
  obtain ⟨own, hlisted, rfl⟩ := h
  rw [List.append_nil, List.append_nil]
  apply firstOf?_congr
  intro scope hin
  obtain ⟨hmem, hs, -, -⟩ := Tree.mem_scopesAround.1 hin
  refine latest?_eq_declared? hnodup hscope hitems hlisted ?_ hmem hs name
  intro d hd hdecl
  have hbegin := t.position_le_visibleFrom root d
  -- The identifier itself is no declaration.
  have hne : t.position root d ≠ t.position root x := by
    intro heq
    rw [Tree.position_inj hd heq, hname] at hdecl
    cases hdecl
  omega

/-- At the end of the section every declaration is visible. -/
theorem firstOf?_eq_lexical? {own : List Entry}
    (hlisted : Listed t root (t.weight root) (t.weight root + 1) own) (x : NodeId) (name : String) :
    firstOf? own name (t.scopesAround root x) = t.lexical? root x (t.weight root) name := by
  apply firstOf?_congr
  intro scope hin
  obtain ⟨hmem, hs, -, -⟩ := Tree.mem_scopesAround.1 hin
  refine latest?_eq_declared? hnodup hscope hitems hlisted ?_ hmem hs name
  intro d hd _
  have hplace := Tree.position_lt_weight hd
  omega

end

/-- A scope around an identifier declares its name exactly if the section has something to hint
at. -/
theorem lexical?_weight_isSome_iff {x : NodeId} {name : String} (hname : t.shape x = .ident name) :
    (∃ d, t.DeclaresAround root x d) ↔ (t.lexical? root x (t.weight root) name).isSome = true := by
  unfold Tree.lexical?
  rw [List.findSome?_isSome_iff]
  constructor
  · rintro ⟨d, name', hname', scope, hin, hd, hdeclared⟩
    obtain rfl : name' = name := Shape.ident.inj (hname'.symm.trans hname)
    refine ⟨scope, hin, ?_⟩
    unfold Tree.declared?
    rw [List.find?_isSome]
    refine ⟨d, List.mem_reverse.2 hd, ?_⟩
    have hmem := t.mem_preorder_trans (Tree.mem_scopesAround.1 hin).1 (t.child_mem_preorder hd)
    simpa using ⟨hdeclared, Tree.visibleFrom_le_weight hmem⟩
  · rintro ⟨scope, hin, hsome⟩
    unfold Tree.declared? at hsome
    rw [List.find?_isSome] at hsome
    obtain ⟨d, hd, hmatch⟩ := hsome
    rw [decide_eq_true_eq] at hmatch
    exact ⟨d, name, hname, scope, hin, List.mem_reverse.1 hd, hmatch.1⟩

theorem declaresAround_of_lexical? {x d : NodeId} {p : Nat} {name : String}
    (hname : t.shape x = .ident name) (h : t.lexical? root x p name = some d) :
    t.DeclaresAround root x d := by
  obtain ⟨scope, hin, hfind⟩ := List.exists_of_findSome?_eq_some h
  have hmatch := List.find?_some hfind
  rw [decide_eq_true_eq] at hmatch
  exact ⟨name, hname, scope, hin, List.mem_reverse.1 (List.mem_of_find?_eq_some hfind), hmatch.1⟩

/-- The diagnostic of an identifier without a binding reports it. -/
theorem reports_diagnosticOf {x : NodeId} {name : String} (hname : t.shape x = .ident name) :
    t.Reports root x
      (diagnosticOf t name ⟨x, t.lexical? root x (t.weight root) name⟩) := by
  have hiff : (∃ d, t.DeclaresAround root x d)
      ↔ (t.lexical? root x (t.weight root) name).isSome = true := lexical?_weight_isSome_iff hname
  cases hlater : t.lexical? root x (t.weight root) name with
  | none =>
    rw [hlater] at hiff
    refine ⟨rfl, rfl, rfl, fun h => ?_, fun _ => ⟨rfl, rfl⟩⟩
    have hsome := hiff.1 h
    cases hsome
  | some d =>
    have hd := declaresAround_of_lexical? hname hlater
    exact ⟨rfl, rfl, rfl, fun _ => ⟨⟨d, hd, rfl⟩, rfl⟩, fun h => (h ⟨d, hd⟩).elim⟩

/-- The diagnostics of a resolution report the identifiers that it does not bind. -/
theorem forall₂_reports {r : Resolution} (hbinding : ∀ x, r.declaration? x = t.binding? root x)
    (hlater : ∀ x name, firstOf? r.entries name (t.scopesAround root x ++ [])
      = t.lexical? root x (t.weight root) name)
    (hmissing : r.missing = (unboundOf t root r.bindings (t.preorder root)).map fun m =>
      ⟨m.1, firstOf? r.entries m.2.2 (t.scopesAround root m.1 ++ [])⟩) :
    List.Forall₂ (t.Reports root) (t.unbound root) (r.diagnostics t) := by
  unfold Tree.unbound diagnostics
  rw [hmissing]
  -- Along the listing, each identifier without a binding is the next to be reported.
  induction t.preorder root with
  | nil => exact .nil
  | cons x nodes ih =>
    rw [unboundOf_cons, List.map_append, List.map_append]
    by_cases hident : ∃ name, t.shape x = .ident name
    · obtain ⟨name, hname⟩ := hident
      have hx : r.bindings[x]? = t.binding? root x := hbinding x
      cases hfound : t.binding? root x with
      | none =>
        rw [unboundOf_of_none hname (hx.trans hfound),
          List.filter_cons_of_pos (by simp [hname, Shape.isIdent, hfound])]
        refine .cons ?_ ih
        simp only [hname, hlater]
        exact reports_diagnosticOf hname
      | some d =>
        rw [unboundOf_of_some hname (hx.trans hfound),
          List.filter_cons_of_neg (by simp [hfound])]
        exact ih
    · have hother : ∀ name, t.shape x ≠ .ident name := fun name hname => hident ⟨name, hname⟩
      have hno : (t.shape x).isIdent = false := by
        cases hshape : t.shape x <;> first | rfl | exact (hother _ hshape).elim
      rw [unboundOf_of_other r.bindings hother, List.filter_cons_of_neg (by simp [hno])]
      exact ih

/-- **A section is resolved by lexical scoping.**  Every identifier of a section below a scope is
bound to the latest visible declaration of its name in the innermost scope around it that has one,
and nothing else is bound.  The diagnostics report the identifiers without such a declaration in
order, one each. -/
theorem ofSection_lexical (t : Tree) (links : Links) (root : NodeId) (outer : Option Section)
    (hscope : t.isScope root = true) (hnodup : (t.preorder root).Nodup)
    (hitems : t.DeclaresInScopes root) (hsize : root < links.size) :
    ∃ r, ofSection t (Section.ofTree t links root outer).2
      (Section.ofTree t links root outer).1 none = .ok r
      ∧ (∀ x, r.declaration? x = t.binding? root x)
      ∧ List.Forall₂ (t.Reports root) (t.unbound root) (r.diagnostics t) := by
  obtain ⟨r, hr, hexact⟩ := exact_ofTree outer hscope hnodup hsize
  refine ⟨r, hr, ?_⟩
  have hbinding : ∀ x, r.declaration? x = t.binding? root x := by
    intro x
    by_cases hbound : x ∈ t.preorder root ∧ ∃ name, t.shape x = .ident name
    · obtain ⟨hx, name, hname⟩ := hbound
      rw [finds_eq_lexical? hnodup hscope hitems hname (hexact.bound x hx name hname)]
      simp only [Tree.binding?, hname, if_pos hx]
    · have hnone : r.declaration? x = none := Decidable.byContradiction fun hsome =>
        hbound (hexact.idents x hsome)
      rw [hnone]
      unfold Tree.binding?
      split
      · next name hname => rw [if_neg fun hx => hbound ⟨hx, name, hname⟩]
      · rfl
  obtain ⟨own, hentries, hlisted⟩ := hexact.own
  rw [List.append_nil] at hentries
  refine ⟨hbinding, forall₂_reports hbinding (fun x name => ?_) hexact.missing⟩
  rw [hentries, List.append_nil]
  exact firstOf?_eq_lexical? hnodup hscope hitems hlisted x name

end Resolution

/-- `x := 1; { x := x; x; y }; y := 2; f :: proc { f }` -/
def Tree.shadows : Tree where
  nodes :=
    #[⟨.literal (.number "1"), .nowhere⟩, ⟨.var "x" none (some 0), .nowhere⟩,
      ⟨.ident "x", .nowhere⟩, ⟨.var "x" none (some 2), .nowhere⟩, ⟨.ident "x", .nowhere⟩,
      ⟨.exprStmt 4, .nowhere⟩, ⟨.ident "y", .nowhere⟩, ⟨.exprStmt 6, .nowhere⟩,
      ⟨.block [3, 5, 7], .nowhere⟩, ⟨.literal (.number "2"), .nowhere⟩,
      ⟨.var "y" none (some 9), .nowhere⟩, ⟨.ident "f", .nowhere⟩, ⟨.exprStmt 11, .nowhere⟩,
      ⟨.block [12], .nowhere⟩, ⟨.procedure none 13, .nowhere⟩, ⟨.constant "f" 14, .nowhere⟩,
      ⟨.module [1, 8, 10, 15], .nowhere⟩]
  children_lt := by decide

/-- In `shadows` the inner `x` is read after it has been declared with the outer one, `f` uses
itself, and `y` is reported with a hint at its declaration. -/
theorem Tree.shadows_lexical :
    ∃ r, Resolution.ofSection .shadows (Section.ofTree .shadows (.unset 17) 16 none).2
        (Section.ofTree .shadows (.unset 17) 16 none).1 none = .ok r
      ∧ r.declaration? 2 = some 1 ∧ r.declaration? 4 = some 3 ∧ r.declaration? 6 = none
      ∧ r.declaration? 11 = some 15
      ∧ ∃ diag, r.diagnostics .shadows = [diag] ∧ Tree.shadows.Reports 16 6 diag
        ∧ diag.notes.length = 1 := by
  obtain ⟨r, hr, hbinding, hreports⟩ := Resolution.ofSection_lexical .shadows (.unset 17) 16 none
    (by decide +kernel) (by decide +kernel) (by decide +kernel) (by decide)
  have hunbound : Tree.shadows.unbound 16 = [6] := by decide +kernel
  rw [hunbound] at hreports
  refine ⟨r, hr, ?_, ?_, ?_, ?_, ?_⟩
  · rw [hbinding]
    decide +kernel
  · rw [hbinding]
    decide +kernel
  · rw [hbinding]
    decide +kernel
  · rw [hbinding]
    decide +kernel
  · generalize r.diagnostics .shadows = diags at hreports
    cases hreports with
    | @cons _ diag _ _ hdiag hrest =>
      cases hrest
      have hy : Tree.shadows.DeclaresAround 16 6 10 :=
        ⟨"y", by decide +kernel, 16, by decide +kernel, by decide +kernel, by decide +kernel⟩
      exact ⟨diag, rfl, hdiag, (hdiag.declared ⟨10, hy⟩).2⟩

end MiddleEnd
