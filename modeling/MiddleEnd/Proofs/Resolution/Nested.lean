import MiddleEnd.Proofs.Resolution.Scan

/-!
# Sections inside a section

A scope inside a section can be listed and resolved as a section of its own, inside the resolution
of the whole.  It inherits the entries that are visible where it begins.  The listing links its root
directly to the root of the whole, however, so that its searches pass over the scopes between the
two: an identifier is bound as in the whole exactly if none of these has something to say about it,
or a scope inside the part has.

## Main definitions

* `Tree.Sees` — a scope makes a declaration of a name that is visible where an identifier stands.

## Main results

* `Resolution.regular_nested` — a nested search goes on from its root to the root of the whole.
* `Resolution.latest?_nested` — inside the part both resolutions list the same declarations.
* `Resolution.latest?_inherited` — the part inherits what the whole sees from where it begins.
* `Resolution.nested_agrees_iff` — **where a nested resolution agrees with that of the whole.**
-/

namespace MiddleEnd

/-- A declaration of `name` made directly in `scope` may be used where `x` stands. -/
def Tree.Sees (t : Tree) (root x : NodeId) (name : String) (scope : NodeId) : Prop :=
  ∃ d, Resolution.Declares t root scope name d ∧ t.visibleFrom root d ≤ t.position root x

namespace Resolution

variable {t : Tree} {root b : NodeId}

/-! ### Links -/

/-- A part other than the whole does not contain it. -/
theorem root_notMem (hb : b ∈ t.preorder root) (hne : b ≠ root) : root ∉ t.preorder b := fun h =>
  hne (Nat.le_antisymm (t.le_of_mem_preorder hb) (t.le_of_mem_preorder h))

/-- A nested search goes on from its root to the root of the whole. -/
theorem regular_nested {links : Links} (hscope : t.isScope root = true)
    (hnodup : (t.preorder root).Nodup) (hsize : root < links.size) (hb : b ∈ t.preorder root)
    (hbscope : t.isScope b = true) (hne : b ≠ root) :
    Surroundings.Regular ⟨t, (Section.ofTree t (Section.ofTree t links root none).2 b
      (some (Section.ofTree t links root none).1)).2, b, true⟩ [root] := by
  have hwhole : (Section.ofTree t links root none).2.parent? root = none :=
    Section.parent?_root_ofTree none hnodup hsize
  have hb_size : b < (Section.ofTree t links root none).2.size := by
    rw [Section.size_links_ofTree]
    exact Nat.lt_of_le_of_lt (t.le_of_mem_preorder hb) hsize
  have hb_nodup := Tree.nodup_of_mem hnodup hb
  have hroot_notMem : root ∉ t.preorder b := root_notMem hb hne
  -- The second listing links `b` to the root and leaves the root without a parent.
  have hb_parent := Section.parent?_root_ofTree (some (Section.ofTree t links root none).1) hb_nodup
    hb_size
  have hroot_parent : (Section.ofTree t (Section.ofTree t links root none).2 b
      (some (Section.ofTree t links root none).1)).2.parent? root = none := by
    rw [Section.parent?_ofTree_of_notMem _ hroot_notMem, hwhole]
  constructor
  · exact hbscope
  · exact hb_nodup
  · exact Section.follow_ofTree _ hb_nodup hb_size
  · show b < (Section.ofTree t _ b _).2.size
    rwa [Section.size_links_ofTree]
  · refine .outward (by simp) (Links.enclosingScope?_of_parent hb_parent hscope) ?_
    exact .stop (.inr (Links.enclosingScope?_of_no_parent hroot_parent))
  · exact Nat.le_refl _

/-! ### Entries -/

/-- The latest entries of two tables are the same if they list the same declarations. -/
theorem latest?_congr {n u n' u' : Nat} {entries entries' : List Entry}
    (h : Listed t root n u entries) (h' : Listed t root n' u' entries') {scope : NodeId}
    {name : String}
    (hsame : ∀ d, Declares t root scope name d →
      (t.position root d < n ∧ t.visibleFrom root d < u
        ↔ t.position root d < n' ∧ t.visibleFrom root d < u')) :
    latest? entries (some scope) name = latest? entries' (some scope) name := by
  apply Option.ext
  intro d
  rw [latest?_eq_some_iff h, latest?_eq_some_iff h']
  constructor
  · rintro ⟨⟨hd, hvisible⟩, hall⟩
    refine ⟨⟨hd, (hsame d hd).1 hvisible⟩, fun d' hd' hn' hu' => ?_⟩
    obtain ⟨hn, hu⟩ := (hsame d' hd').2 ⟨hn', hu'⟩
    exact hall d' hd' hn hu
  · rintro ⟨⟨hd, hvisible⟩, hall⟩
    refine ⟨⟨hd, (hsame d hd).2 hvisible⟩, fun d' hd' hn hu => ?_⟩
    obtain ⟨hn', hu'⟩ := (hsame d' hd').1 ⟨hn, hu⟩
    exact hall d' hd' hn' hu'

theorem latest?_append (entries entries' : List Entry) (scope : Option NodeId) (name : String) :
    latest? (entries ++ entries') scope name
      = (latest? entries scope name).or (latest? entries' scope name) := by
  unfold latest?
  rw [List.find?_append, Option.map_or]

theorem latest?_eq_none {entries : List Entry} {scope : Option NodeId} (name : String)
    (h : ∀ e ∈ entries, e.scope ≠ scope) : latest? entries scope name = none := by
  unfold latest?
  rw [Option.map_eq_none_iff, List.find?_eq_none]
  intro e he
  simp [h e he]

/-- There is a latest entry if the name is declared at all. -/
theorem latest?_isSome_iff {n u : Nat} {entries : List Entry} (h : Listed t root n u entries)
    {scope : NodeId} {name : String} :
    (latest? entries (some scope) name).isSome = true
      ↔ ∃ d, Declares t root scope name d ∧ t.position root d < n ∧ t.visibleFrom root d < u := by
  constructor
  · intro hsome
    obtain ⟨d, hd⟩ := Option.isSome_iff_exists.1 hsome
    exact ⟨d, ((latest?_eq_some_iff h).1 hd).1⟩
  · rintro ⟨d, hd, hn, hu⟩
    unfold latest?
    rw [Option.isSome_map, List.find?_isSome]
    refine ⟨⟨some scope, name, d, t.visibleFrom root d⟩, (h.mem_iff _).2 ⟨?_, hn, hu⟩, by simp⟩
    exact ⟨hd.1, hd.2.1, hd.2.2.symm, rfl⟩

/-- What is declared in a scope of the part is in the part. -/
theorem mem_part_of_scopeOf? {scope d : NodeId} (hscope : scope ∈ t.preorder b)
    (hin : t.scopeOf? root d = some scope) : d ∈ t.preorder b ∧ d ≠ b := by
  obtain ⟨-, -, hne, hinside⟩ := Tree.mem_scopesAround.1 (Tree.mem_of_scopeOf? hin)
  refine ⟨t.mem_preorder_trans hscope hinside, ?_⟩
  rintro rfl
  exact hne (Nat.le_antisymm (t.le_of_mem_preorder hscope) (t.le_of_mem_preorder hinside))

section Part

variable (hnodup : (t.preorder root).Nodup) (hb : b ∈ t.preorder root)

include hnodup hb

/-- Positions of the part are counted from where it begins. -/
theorem visibleFrom_add {d : NodeId} (hd : d ∈ t.preorder b) :
    t.visibleFrom root d = t.position root b + t.visibleFrom b d := by
  unfold Tree.visibleFrom
  rw [Tree.position_add hnodup hb hd]
  split
  · rfl
  · rw [Nat.add_assoc]

theorem later_iff_part {d d' : NodeId} (hd : d ∈ t.preorder b) (hd' : d' ∈ t.preorder b) :
    Later t b d d' ↔ Later t root d d' := by
  unfold Later
  rw [visibleFrom_add hnodup hb hd, visibleFrom_add hnodup hb hd', Tree.position_add hnodup hb hd,
    Tree.position_add hnodup hb hd']
  simp only [Nat.add_lt_add_iff_left, Nat.add_right_inj]

variable (hbscope : t.isScope b = true)

include hbscope

/-- The innermost scope around a node of the part is in the part. -/
theorem scopeOf?_part {d : NodeId} (hd : d ∈ t.preorder b) (hne : d ≠ b) :
    t.scopeOf? root d = t.scopeOf? b d := by
  have hsome := Tree.isSome_scopeOf? hbscope hd hne
  unfold Tree.scopeOf? at *
  rw [Tree.scopesAround_append hnodup hb hd, List.head?_append_of_ne_nil]
  rintro hnil
  rw [hnil] at hsome
  cases hsome

/-- Inside the part both sections know the same declarations. -/
theorem declares_iff_part {scope : NodeId} (hscope : scope ∈ t.preorder b) {name : String}
    {d : NodeId} : Declares t b scope name d ↔ Declares t root scope name d := by
  constructor
  · rintro ⟨hd, hname, hin⟩
    have hne : d ≠ b := by
      rintro rfl
      rw [Tree.scopeOf?, Tree.scopesAround_root] at hin
      cases hin
    exact ⟨t.mem_preorder_trans hb hd, hname, (scopeOf?_part hnodup hb hbscope hd hne).trans hin⟩
  · rintro ⟨-, hname, hin⟩
    obtain ⟨hd, hdb⟩ := mem_part_of_scopeOf? hscope hin
    exact ⟨hd, hname, (scopeOf?_part hnodup hb hbscope hd hdb).symm.trans hin⟩

/-- **Inside the part both sections list the same declarations.** -/
theorem latest?_part {n u : Nat} {entries entries' : List Entry} (h : Listed t b n u entries)
    (h' : Listed t root (t.position root b + n) (t.position root b + u) entries') {scope : NodeId}
    (hscope : scope ∈ t.preorder b) (name : String) :
    latest? entries (some scope) name = latest? entries' (some scope) name := by
  have hdeclares (d : NodeId) : Declares t b scope name d ↔ Declares t root scope name d :=
    declares_iff_part hnodup hb hbscope hscope
  have hplace : ∀ d, Declares t b scope name d →
      (t.position b d < n ∧ t.visibleFrom b d < u ↔ t.position root d < t.position root b + n
        ∧ t.visibleFrom root d < t.position root b + u) := by
    intro d hd
    rw [Tree.position_add hnodup hb hd.1, visibleFrom_add hnodup hb hd.1, Nat.add_lt_add_iff_left,
      Nat.add_lt_add_iff_left]
  apply Option.ext
  intro d
  rw [latest?_eq_some_iff h, latest?_eq_some_iff h']
  constructor
  · rintro ⟨⟨hd, hvisible⟩, hall⟩
    refine ⟨⟨(hdeclares d).1 hd, (hplace d hd).1 hvisible⟩, fun d' hd' hn' hu' => ?_⟩
    have hd' := (hdeclares d').2 hd'
    obtain ⟨hn, hu⟩ := (hplace d' hd').2 ⟨hn', hu'⟩
    exact (hall d' hd' hn hu).imp_right (later_iff_part hnodup hb hd.1 hd'.1).1
  · rintro ⟨⟨hd, hvisible⟩, hall⟩
    have hd := (hdeclares d).2 hd
    refine ⟨⟨hd, (hplace d hd).2 hvisible⟩, fun d' hd' hn hu => ?_⟩
    obtain ⟨hn', hu'⟩ := (hplace d' hd').1 ⟨hn, hu⟩
    exact (hall d' ((hdeclares d').1 hd') hn' hu').imp_right
      (later_iff_part hnodup hb hd.1 hd'.1).2

/-- What a scope around the part declares is visible in all of the part or nowhere in it. -/
theorem visible_throughout {scope : NodeId} (hscope : scope ∈ t.scopesAround root b) {name : String}
    {d : NodeId} (hd : Declares t root scope name d) {x : NodeId} (hx : x ∈ t.preorder b) :
    t.visibleFrom root d ≤ t.position root x ↔ t.visibleFrom root d ≤ t.position root b := by
  obtain ⟨-, -, hscopeb, hinside⟩ := Tree.mem_scopesAround.1 hscope
  obtain ⟨hdmem, hname, hin⟩ := hd
  -- Its scope is outside of the part, so that it is no node of the part itself.
  have hdb : d ∉ t.preorder b := by
    intro hd
    have hne : d ≠ b := by
      rintro rfl
      exact Bool.false_ne_true ((Shape.not_isScope_of_declaredName? hname).symm.trans hbscope)
    rw [scopeOf?_part hnodup hb hbscope hd hne] at hin
    have hmem := (Tree.mem_scopesAround.1 (Tree.mem_of_scopeOf? hin)).1
    exact hscopeb (Nat.le_antisymm (t.le_of_mem_preorder hmem) (t.le_of_mem_preorder hinside))
  have hplace : ¬(t.position root b ≤ t.position root d
      ∧ t.position root d < t.position root b + t.weight b) := fun h =>
    hdb ((Tree.mem_preorder_iff_position hnodup hb hdmem).2 h)
  have hxplace := (Tree.mem_preorder_iff_position hnodup hb (t.mem_preorder_trans hb hx)).1 hx
  have hbegin := t.position_le_visibleFrom root d
  by_cases hproc : t.namesProcedure d = true
  · rw [Tree.visibleFrom_of_procedure hproc]
    omega
  · rw [Tree.visibleFrom_of_value (by simpa using hproc)] at hbegin ⊢
    by_cases hbd : b ∈ t.preorder d
    · have hends := Tree.end_le_end hnodup hdmem hbd
      omega
    · have hbplace : ¬(t.position root d ≤ t.position root b
          ∧ t.position root b < t.position root d + t.weight d) := fun h =>
        hbd ((Tree.mem_preorder_iff_position hnodup hdmem hb).2 h)
      omega

end Part

/-! ### Inheriting -/

/-- Inherited entries are as late as those they come from. -/
theorem latest?_map_visibleFrom (entries : List Entry) (scope : Option NodeId) (name : String) :
    latest? (entries.map fun e => { e with visibleFrom := 0 }) scope name
      = latest? entries scope name := by
  unfold latest?
  rw [List.find?_map, Option.map_map]
  rfl

/-- **A part inherits what the whole has listed where the part begins.** -/
theorem Exact.inherited_eq {outer : Resolution} (h : Exact t root [] [] outer)
    (hb : b ∈ t.preorder root) (hbscope : t.isScope b = true) :
    ∃ visible, Listed t root (t.weight root) (t.position root b + 1) visible
      ∧ inherited outer b = visible.map fun e => { e with visibleFrom := 0 } := by
  obtain ⟨own, hentries, hown⟩ := h.own
  have hlt := Tree.position_lt_weight hb
  refine ⟨own.filter (·.visibleFrom ≤ t.position root b), ⟨fun e => ?_, hown.later.filter _⟩, ?_⟩
  · rw [List.mem_filter, hown.mem_iff, decide_eq_true_eq]
    constructor
    · rintro ⟨⟨he, hplace, -⟩, hle⟩
      exact ⟨he, hplace, Nat.lt_succ_of_le hle⟩
    · rintro ⟨he, hplace, hle⟩
      exact ⟨⟨he, hplace, by omega⟩, Nat.le_of_lt_succ hle⟩
  · unfold inherited
    simp only [h.scopePositions b hb hbscope, hentries, List.append_nil]

/-- No scope of the part has an inherited entry. -/
theorem latest?_inherited_part {entries : List Entry} {n : Nat}
    (h : Listed t root n (t.position root b + 1) entries) (hnodup : (t.preorder root).Nodup)
    (hb : b ∈ t.preorder root) {scope : NodeId} (hscope : scope ∈ t.preorder b) (name : String) :
    latest? entries (some scope) name = none := by
  apply latest?_eq_none
  intro e he hin
  obtain ⟨hise, -, hvisible⟩ := (h.mem_iff e).1 he
  rw [hise.scope] at hin
  obtain ⟨hd, hne⟩ := mem_part_of_scopeOf? hscope hin
  have hplace := ((Tree.mem_preorder_iff_position hnodup hb hise.mem).1 hd).1
  have hbegin := t.position_le_visibleFrom root e.decl
  rw [hise.visibleFrom] at hvisible
  exact hne (Tree.position_inj hise.mem (by omega))

/-- The whole is no scope of the part. -/
theorem latest?_own_root {entries : List Entry} {n u : Nat} (h : Listed t b n u entries)
    (hroot : root ∉ t.preorder b) (name : String) : latest? entries (some root) name = none := by
  apply latest?_eq_none
  intro e he hin
  rw [((h.mem_iff e).1 he).1.scope] at hin
  exact hroot (Tree.mem_scopesAround.1 (Tree.mem_of_scopeOf? hin)).1

/-- Where an identifier stands, the visible declarations are those that have been listed. -/
theorem listed_iff_visible {x : NodeId} {name : String} (hname : t.shape x = .ident name)
    {d : NodeId} (hd : d ∈ t.preorder root) (hdecl : (t.shape d).declaredName? ≠ none) :
    t.position root d < t.position root x ∧ t.visibleFrom root d < t.position root x + 1
      ↔ t.visibleFrom root d ≤ t.position root x := by
  have hbegin := t.position_le_visibleFrom root d
  have hne : t.position root d ≠ t.position root x := by
    intro heq
    rw [Tree.position_inj hd heq, hname] at hdecl
    exact hdecl rfl
  omega

theorem sees_iff_latest? {x : NodeId} {name : String} (hname : t.shape x = .ident name)
    {entries : List Entry}
    (h : Listed t root (t.position root x) (t.position root x + 1) entries) (scope : NodeId) :
    t.Sees root x name scope ↔ (latest? entries (some scope) name).isSome = true := by
  rw [latest?_isSome_iff h]
  refine exists_congr fun d => and_congr_right fun hd => ?_
  rw [listed_iff_visible hname hd.1 (by simp [hd.2.1])]

theorem firstOf?_isSome_iff {x : NodeId} {name : String} (hname : t.shape x = .ident name)
    {entries : List Entry}
    (h : Listed t root (t.position root x) (t.position root x + 1) entries) (scopes : List NodeId) :
    (firstOf? entries name scopes).isSome = true ↔ ∃ scope ∈ scopes, t.Sees root x name scope := by
  unfold firstOf?
  rw [List.findSome?_isSome_iff]
  simp only [sees_iff_latest? hname h]

/-- The two searches of an identifier of the part: in the scopes inside the part both have the same
answers, and so they have in the root of the whole, but only the search in the whole asks the scopes
between the two. -/
theorem searches_part {outer inner : Resolution} (hscope : t.isScope root = true)
    (hnodup : (t.preorder root).Nodup) (hb : b ∈ t.preorder root) (hbscope : t.isScope b = true)
    (hne : b ≠ root) (hwhole : Exact t root [] [] outer)
    (hpart : Exact t b (inherited outer b) [root] inner) {x : NodeId} (hx : x ∈ t.preorder b)
    {name : String} (hname : t.shape x = .ident name) :
    ∃ own between, Listed t root (t.position root x) (t.position root x + 1) own
      ∧ t.scopesAround root b = between ++ [root] ∧ root ∉ between
      ∧ outer.declaration? x = (firstOf? own name (t.scopesAround b x)).or
          ((firstOf? own name between).or (firstOf? own name [root]))
      ∧ inner.declaration? x = (firstOf? own name (t.scopesAround b x)).or
          (firstOf? own name [root]) := by
  obtain ⟨own, hown, hfound⟩ := hwhole.bound x (t.mem_preorder_trans hb hx) name hname
  obtain ⟨own', hown', hfound'⟩ := hpart.bound x hx name hname
  obtain ⟨visible, hvisible, hinherited⟩ := hwhole.inherited_eq hb hbscope
  obtain ⟨between, haround, hbetween⟩ := Tree.scopesAround_eq_append_root hnodup hscope hb hne
  -- No scope inside the part has an inherited entry.
  have hinside : firstOf? (own' ++ inherited outer b) name (t.scopesAround b x)
      = firstOf? own name (t.scopesAround b x) := by
    apply firstOf?_congr
    intro scope hin
    have hmem := (Tree.mem_scopesAround.1 hin).1
    rw [Tree.position_add hnodup hb hx, Nat.add_assoc] at hown
    rw [latest?_append, hinherited, latest?_map_visibleFrom,
      latest?_inherited_part hvisible hnodup hb hmem, Option.or_none]
    exact latest?_part hnodup hb hbscope hown' hown hmem name
  -- The root declares nothing in the part, so its entries are inherited; they are visible in all of
  -- it.
  have hattop : firstOf? (own' ++ inherited outer b) name [root] = firstOf? own name [root] := by
    apply firstOf?_congr
    intro scope hin
    obtain rfl := List.mem_singleton.1 hin
    rw [latest?_append, latest?_own_root hown' (root_notMem hb hne), Option.none_or, hinherited,
      latest?_map_visibleFrom]
    refine latest?_congr hvisible hown fun d hd => ?_
    have hplace := Tree.position_lt_weight hd.1
    have hthroughout := visible_throughout hnodup hb hbscope (by simp [haround]) hd hx
    rw [listed_iff_visible hname hd.1 (by simp [hd.2.1]), hthroughout]
    omega
  refine ⟨own, between, hown, haround, hbetween, ?_, ?_⟩
  · rw [hfound, List.append_nil, List.append_nil, Tree.scopesAround_append hnodup hb hx, haround,
      firstOf?_append, firstOf?_append]
  · rw [hfound', firstOf?_append, hinside, hattop]

/-- **A nested resolution agrees with that of the whole** on an identifier exactly if a scope inside
the part has a visible declaration of its name, or no scope between the part and the root has. -/
theorem nested_agrees_iff (t : Tree) (links : Links) (root b : NodeId)
    (hscope : t.isScope root = true) (hnodup : (t.preorder root).Nodup) (hsize : root < links.size)
    (hb : b ∈ t.preorder root) (hbscope : t.isScope b = true) (hne : b ≠ root) :
    let whole := Section.ofTree t links root none
    let part := Section.ofTree t whole.2 b (some whole.1)
    ∃ outer inner, ofSection t whole.2 whole.1 none = .ok outer
      ∧ ofSection t part.2 part.1 (some outer) = .ok inner
      ∧ ∀ x ∈ t.preorder b, ∀ name, t.shape x = .ident name →
        (inner.declaration? x = outer.declaration? x
          ↔ (∃ scope ∈ t.scopesAround b x, t.Sees root x name scope)
            ∨ ∀ scope ∈ t.scopesAround root b, scope ≠ root → ¬t.Sees root x name scope) := by
  intro whole part
  obtain ⟨outer, houter, hwhole⟩ := exact_ofTree none hscope hnodup hsize
  obtain ⟨inner, hinner, hpart⟩ := @exact_of_regular [root] t part.2 part.1 (some outer)
    (regular_nested hscope hnodup hsize hb hbscope hne)
    (Section.nodes_ofTree t whole.2 b _) (fun _ _ => Section.subtreeEnd_ofTree)
  refine ⟨outer, inner, houter, hinner, fun x hx name hname => ?_⟩
  obtain ⟨own, between, hown, haround, hbetween, hfound, hfound'⟩ :=
    searches_part hscope hnodup hb hbscope hne hwhole hpart hx hname
  rw [hfound, hfound', ← firstOf?_isSome_iff hname hown]
  have hpassed : firstOf? own name between = none
      ↔ ∀ scope ∈ t.scopesAround root b, scope ≠ root → ¬t.Sees root x name scope := by
    rw [← Option.not_isSome_iff_eq_none, firstOf?_isSome_iff hname hown, haround]
    constructor
    · intro h scope hin hscoperoot hsees
      rcases List.mem_append.1 hin with hin | hin
      · exact h ⟨scope, hin, hsees⟩
      · exact hscoperoot (List.mem_singleton.1 hin)
    · rintro h ⟨scope, hin, hsees⟩
      exact h scope (List.mem_append_left _ hin) (fun heq => hbetween (heq ▸ hin)) hsees
  rw [← hpassed]
  cases hfirst : firstOf? own name (t.scopesAround b x) with
  | some d => simp
  | none =>
    simp only [Option.none_or, Option.isSome_none, Bool.false_eq_true, false_or]
    cases hpass : firstOf? own name between with
    | none => simp
    | some d =>
      -- A declaration is made in one scope only, so that the two answers differ.
      simp only [Option.some_or, reduceCtorEq, iff_false]
      intro htop
      obtain ⟨scope, hin, hlatest⟩ := List.exists_of_findSome?_eq_some hpass
      obtain ⟨top, hintop, hlatesttop⟩ := List.exists_of_findSome?_eq_some htop
      obtain rfl := List.mem_singleton.1 hintop
      have hd := ((latest?_eq_some_iff hown).1 hlatest).1.1
      have hd' := ((latest?_eq_some_iff hown).1 hlatesttop).1.1
      obtain rfl := Option.some.inj (hd.2.2.symm.trans hd'.2.2)
      exact hbetween hin

end Resolution

/-- `b := 1; f :: proc { b := 2; { b; b := 3; b } }` -/
def Tree.passesOver : Tree where
  nodes :=
    #[⟨.literal (.number "1"), .nowhere⟩, ⟨.var "b" none (some 0), .nowhere⟩,
      ⟨.literal (.number "2"), .nowhere⟩, ⟨.var "b" none (some 2), .nowhere⟩,
      ⟨.ident "b", .nowhere⟩, ⟨.exprStmt 4, .nowhere⟩, ⟨.literal (.number "3"), .nowhere⟩,
      ⟨.var "b" none (some 6), .nowhere⟩, ⟨.ident "b", .nowhere⟩, ⟨.exprStmt 8, .nowhere⟩,
      ⟨.block [5, 7, 9], .nowhere⟩, ⟨.block [3, 10], .nowhere⟩, ⟨.procedure none 11, .nowhere⟩,
      ⟨.constant "f" 12, .nowhere⟩, ⟨.module [1, 13], .nowhere⟩]
  children_lt := by decide

/-- What a section and a scope inside it bind an identifier to. -/
def Resolution.bindings? (t : Tree) (root b x : NodeId) :
    Except Misuse (Option NodeId × Option NodeId) := do
  let whole := Section.ofTree t (.unset t.size) root none
  let part := Section.ofTree t whole.2 b (some whole.1)
  let outer ← ofSection t whole.2 whole.1 none
  let inner ← ofSection t part.2 part.1 (some outer)
  return (outer.declaration? x, inner.declaration? x)

/-- Resolved with the whole, the first use of `b` in the innermost block of `passesOver` is that of
the procedure; resolved with the block, it is that of the module. -/
theorem Tree.passesOver_disagrees :
    (Resolution.bindings? .passesOver 14 10 4).toOption = some (some 3, some 1) := by
  decide +kernel

/-- Both resolve the second use of `b` to the declaration in the block. -/
theorem Tree.passesOver_agrees :
    ∃ outer inner, Resolution.ofSection .passesOver
        (Section.ofTree .passesOver (.unset 15) 14 none).2
        (Section.ofTree .passesOver (.unset 15) 14 none).1 none = .ok outer
      ∧ Resolution.ofSection .passesOver
        (Section.ofTree .passesOver (Section.ofTree .passesOver (.unset 15) 14 none).2 10
          (some (Section.ofTree .passesOver (.unset 15) 14 none).1)).2
        (Section.ofTree .passesOver (Section.ofTree .passesOver (.unset 15) 14 none).2 10
          (some (Section.ofTree .passesOver (.unset 15) 14 none).1)).1 (some outer) = .ok inner
      ∧ inner.declaration? 8 = outer.declaration? 8 := by
  obtain ⟨outer, inner, houter, hinner, hagrees⟩ := Resolution.nested_agrees_iff .passesOver
    (.unset 15) 14 10 (by decide +kernel) (by decide +kernel) (by decide) (by decide +kernel)
    (by decide +kernel) (by decide)
  refine ⟨outer, inner, houter, hinner, (hagrees 8 (by decide +kernel) "b" rfl).2 (.inl ?_)⟩
  exact ⟨10, by decide +kernel, 7,
    ⟨by decide +kernel, by decide +kernel, by decide +kernel⟩, by decide +kernel⟩

end MiddleEnd
