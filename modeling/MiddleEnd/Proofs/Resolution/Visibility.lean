import MiddleEnd.Proofs.Resolution
import MiddleEnd.Proofs.Resolution.Search

/-!
# The table of a scan

Which entries a scan has listed at a position and which ones wait, in terms of the tree: an entry is
listed as soon as its declaration is visible, and the entries are in the order in which that
happens.

## Main definitions

* `Tree.visibleFrom` — the position from which a declaration may be used.
* `Resolution.IsEntry` — the entry that a declaration of a section makes.
* `Resolution.Later` — the order in which declarations become visible.
* `Resolution.Listed`, `Resolution.Waits` — the two halves of the table at a position.

## Main results

* `Resolution.latest?_eq_some_iff` — the latest entry is that of the last declaration to become
  visible.
* `Resolution.release_listed`, `Resolution.release_waits` — releasing lists what has become visible.
* `Resolution.Listed.skip`, `Resolution.Listed.procedure`, `Resolution.Waits.skip`,
  `Resolution.Waits.push` — what a node adds to the table.
-/

namespace MiddleEnd

namespace Tree

variable {t : Tree} {root : NodeId}

variable (t) in
/-- The position from which a declaration may be used: its own if it is a constant that is a
procedure, and the end of its subtree otherwise. -/
def visibleFrom (root d : NodeId) : Nat :=
  if t.namesProcedure d then t.position root d else t.position root d + t.weight d

theorem visibleFrom_of_procedure {d : NodeId} (h : t.namesProcedure d = true) :
    t.visibleFrom root d = t.position root d := if_pos h

theorem visibleFrom_of_value {d : NodeId} (h : t.namesProcedure d = false) :
    t.visibleFrom root d = t.position root d + t.weight d := by
  simp [visibleFrom, h]

theorem position_le_visibleFrom (t : Tree) (root d : NodeId) :
    t.position root d ≤ t.visibleFrom root d := by
  unfold visibleFrom
  split
  · exact Nat.le_refl _
  · exact Nat.le_add_right _ _

theorem visibleFrom_le_end (t : Tree) (root d : NodeId) :
    t.visibleFrom root d ≤ t.position root d + t.weight d := by
  unfold visibleFrom
  split
  · exact Nat.le_add_right _ _
  · exact Nat.le_refl _

/-- Every declaration of a section is visible at its end. -/
theorem visibleFrom_le_weight {d : NodeId} (hd : d ∈ t.preorder root) :
    t.visibleFrom root d ≤ t.weight root :=
  calc
    t.visibleFrom root d ≤ t.position root d + t.weight d := t.visibleFrom_le_end root d
    _ ≤ t.weight root := by
      have hroot : (t.preorder root)[0]? = some root := by rw [t.preorder_eq]; rfl
      have hnested := t.nested hroot (getElem?_position hd) (Nat.zero_le _)
        (by rw [Nat.zero_add]; exact position_lt_weight hd)
      rwa [Nat.zero_add] at hnested

end Tree

namespace Resolution

variable {t : Tree} {root : NodeId}

/-- The entry that a declaration of the section of `root` makes. -/
structure IsEntry (t : Tree) (root : NodeId) (e : Entry) : Prop where
  /-- The declaration is in the section. -/
  mem : e.decl ∈ t.preorder root
  /-- The name is the one it declares. -/
  name : (t.shape e.decl).declaredName? = some e.name
  /-- The scope is the one it is made in. -/
  scope : e.scope = t.scopeOf? root e.decl
  /-- The position is the one from which it may be used. -/
  visibleFrom : e.visibleFrom = t.visibleFrom root e.decl

/-- A declaration makes one entry. -/
theorem IsEntry.unique {e e' : Entry} (h : IsEntry t root e) (h' : IsEntry t root e')
    (hdecl : e.decl = e'.decl) : e = e' := by
  obtain ⟨scope, name, decl, visibleFrom⟩ := e
  obtain ⟨scope', name', decl', visibleFrom'⟩ := e'
  obtain rfl : decl = decl' := hdecl
  have hname := h.name.symm.trans h'.name
  have hscope := h.scope.trans h'.scope.symm
  have hvisible := h.visibleFrom.trans h'.visibleFrom.symm
  simp only [Option.some.injEq] at hname hscope hvisible
  rw [hname, hscope, hvisible]

/-- `d` becomes visible after `d'`.  Of the declarations that become visible at one position those
that end there come first, the inner before the outer, and a procedure that begins there comes
last. -/
def Later (t : Tree) (root d d' : NodeId) : Prop :=
  t.visibleFrom root d' < t.visibleFrom root d
    ∨ t.visibleFrom root d' = t.visibleFrom root d ∧ t.namesProcedure d' = false
      ∧ (t.namesProcedure d = true ∨ t.position root d < t.position root d')

theorem Later.asymm {d d' : NodeId} (h : Later t root d d') : ¬Later t root d' d := by
  intro h'
  rcases h with h | ⟨heq, hvalue, h⟩ <;> rcases h' with h' | ⟨heq', hvalue', h'⟩
  · omega
  · omega
  · omega
  · rcases h with h | h
    · simp [hvalue'] at h
    · rcases h' with h' | h'
      · simp [hvalue] at h'
      · omega

/-- The entries of the declarations before position `n` that are visible before position `u`, the
last to become visible first. -/
structure Listed (t : Tree) (root : NodeId) (n u : Nat) (entries : List Entry) : Prop where
  /-- These are exactly the entries of such declarations. -/
  mem_iff : ∀ e, e ∈ entries ↔ IsEntry t root e ∧ t.position root e.decl < n ∧ e.visibleFrom < u
  /-- They are in order, the last one first. -/
  later : entries.Pairwise fun e e' => Later t root e.decl e'.decl

/-- The entries of the declarations before position `n` that become visible from `u` on, the inner
before the outer. -/
structure Waits (t : Tree) (root : NodeId) (n u : Nat) (waiting : List Entry) : Prop where
  /-- These are exactly the entries of such declarations. -/
  mem_iff : ∀ e, e ∈ waiting ↔ IsEntry t root e ∧ t.position root e.decl < n ∧ u ≤ e.visibleFrom
  /-- They are in order, the inner ones first. -/
  inner : waiting.Pairwise fun e e' =>
    e.visibleFrom ≤ e'.visibleFrom ∧ t.position root e'.decl < t.position root e.decl

/-! ### The latest entry -/

/-- In a list in order the first match is the one before all others. -/
theorem find?_eq_some_iff_of_pairwise {α : Type} {R : α → α → Prop} {p : α → Bool} {l : List α}
    (hl : l.Pairwise R) (hasymm : ∀ a b, R a b → ¬R b a) {a : α} :
    l.find? p = some a ↔ a ∈ l ∧ p a = true ∧ ∀ b ∈ l, p b = true → b = a ∨ R a b := by
  have hfirst : ∀ a, l.find? p = some a → a ∈ l ∧ p a = true ∧ ∀ b ∈ l, p b = true →
      b = a ∨ R a b := by
    intro a ha
    obtain ⟨hpa, before, after, rfl, hbefore⟩ := List.find?_eq_some_iff_append.1 ha
    refine ⟨by simp, hpa, fun b hb hpb => ?_⟩
    rcases List.mem_append.1 hb with hb | hb
    · have hnot := hbefore b hb
      simp [hpb] at hnot
    · rcases List.mem_cons.1 hb with rfl | hb
      · exact .inl rfl
      · exact .inr ((List.pairwise_cons.1 (List.pairwise_append.1 hl).2.1).1 b hb)
  refine ⟨hfirst a, ?_⟩
  rintro ⟨hmem, hpa, hall⟩
  have hsome : (l.find? p).isSome = true := List.find?_isSome.2 ⟨a, hmem, hpa⟩
  obtain ⟨b, hb⟩ := Option.isSome_iff_exists.1 hsome
  obtain ⟨hmemb, hpb, hallb⟩ := hfirst b hb
  rw [hb]
  rcases hall b hmemb hpb with rfl | hab
  · rfl
  · rcases hallb a hmem hpa with rfl | hba
    · rfl
    · exact (hasymm _ _ hab hba).elim

/-- A declaration of `name` made directly in `scope`. -/
def Declares (t : Tree) (root scope : NodeId) (name : String) (d : NodeId) : Prop :=
  d ∈ t.preorder root ∧ (t.shape d).declaredName? = some name ∧ t.scopeOf? root d = some scope

/-- **The latest entry of a name is that of the last declaration to become visible.** -/
theorem latest?_eq_some_iff {n u : Nat} {entries : List Entry} (h : Listed t root n u entries)
    {scope : NodeId} {name : String} {d : NodeId} :
    latest? entries (some scope) name = some d
      ↔ (Declares t root scope name d ∧ t.position root d < n ∧ t.visibleFrom root d < u)
        ∧ ∀ d', Declares t root scope name d' → t.position root d' < n →
          t.visibleFrom root d' < u → d' = d ∨ Later t root d d' := by
  unfold latest?
  rw [Option.map_eq_some_iff]
  -- An entry that matches is that of a declaration of the scope and the name.
  have hentry : ∀ e, IsEntry t root e → ((e.scope == some scope && e.name == name) = true
      ↔ Declares t root scope name e.decl) := by
    intro e he
    rw [Bool.and_eq_true, beq_iff_eq, beq_iff_eq, he.scope]
    constructor
    · rintro ⟨hscope, rfl⟩
      exact ⟨he.mem, he.name, hscope⟩
    · rintro ⟨-, hname, hscope⟩
      exact ⟨hscope, Option.some.inj (he.name.symm.trans hname)⟩
  constructor
  · rintro ⟨e, he, rfl⟩
    obtain ⟨hmem, hmatch, hall⟩ :=
      (find?_eq_some_iff_of_pairwise h.later (fun _ _ => Later.asymm)).1 he
    obtain ⟨hise, hn, hu⟩ := (h.mem_iff e).1 hmem
    refine ⟨⟨(hentry e hise).1 hmatch, hn, hise.visibleFrom ▸ hu⟩, ?_⟩
    intro d' hd' hn' hu'
    -- Another declaration has an entry of its own, which comes later in the list.
    have hise' : IsEntry t root ⟨some scope, name, d', t.visibleFrom root d'⟩ :=
      ⟨hd'.1, hd'.2.1, hd'.2.2.symm, rfl⟩
    rcases hall _ ((h.mem_iff _).2 ⟨hise', hn', hu'⟩) ((hentry _ hise').2 hd') with heq | hlater
    · exact .inl (congrArg Entry.decl heq)
    · exact .inr hlater
  · rintro ⟨⟨hd, hn, hu⟩, hall⟩
    have hise : IsEntry t root ⟨some scope, name, d, t.visibleFrom root d⟩ :=
      ⟨hd.1, hd.2.1, hd.2.2.symm, rfl⟩
    refine ⟨_, (find?_eq_some_iff_of_pairwise h.later (fun _ _ => Later.asymm)).2
      ⟨(h.mem_iff _).2 ⟨hise, hn, hu⟩, (hentry _ hise).2 hd, ?_⟩, rfl⟩
    intro e' he' hmatch
    obtain ⟨hise', hn', hu'⟩ := (h.mem_iff e').1 he'
    refine (hall e'.decl ((hentry e' hise').1 hmatch) hn' (hise'.visibleFrom ▸ hu')).imp_left ?_
    exact fun hdecl => hise'.unique hise hdecl

/-! ### Releasing -/

/-- Releasing splits what waits by the position. -/
theorem release_eq (pos : Nat) {waiting : List Entry}
    (h : waiting.Pairwise fun e e' => e.visibleFrom ≤ e'.visibleFrom) (entries : List Entry) :
    release pos waiting entries
      = (waiting.filter (pos < ·.visibleFrom),
        (waiting.filter (·.visibleFrom ≤ pos)).reverse ++ entries) := by
  induction waiting generalizing entries with
  | nil => rfl
  | cons e waiting ih =>
    obtain ⟨hfirst, hrest⟩ := List.pairwise_cons.1 h
    unfold release
    split
    · -- The first entry is released, so it comes first in the search.
      next hle =>
      rw [ih hrest, List.filter_cons_of_neg (by simpa using hle),
        List.filter_cons_of_pos (by simpa using hle), List.reverse_cons, List.append_assoc]
      rfl
    · -- If the first entry waits, so do all others, since they are sorted.
      next hgt =>
      have hlater : ∀ e' ∈ e :: waiting, pos < e'.visibleFrom := by
        intro e' he'
        rcases List.mem_cons.1 he' with rfl | he'
        · omega
        · have hle := hfirst e' he'
          omega
      have hall : (e :: waiting).filter (pos < ·.visibleFrom) = e :: waiting :=
        List.filter_eq_self.2 fun e' he' => by simpa using hlater e' he'
      have hnone : (e :: waiting).filter (·.visibleFrom ≤ pos) = [] :=
        List.filter_eq_nil_iff.2 fun e' he' => by simpa using hlater e' he'
      rw [hall, hnone]
      rfl

variable {pos : Nat} {entries waiting : List Entry}

theorem release_waits (h : Waits t root pos pos waiting) :
    Waits t root pos (pos + 1) (waiting.filter (pos < ·.visibleFrom)) where
  mem_iff e := by
    rw [List.mem_filter, h.mem_iff, decide_eq_true_eq]
    constructor
    · rintro ⟨⟨he, hpos, -⟩, hlt⟩
      exact ⟨he, hpos, hlt⟩
    · rintro ⟨he, hpos, hlt⟩
      exact ⟨⟨he, hpos, Nat.le_of_succ_le hlt⟩, hlt⟩
  inner := h.inner.filter _

theorem release_listed (h : Listed t root pos pos entries)
    (hwaiting : Waits t root pos pos waiting) :
    Listed t root pos (pos + 1) ((waiting.filter (·.visibleFrom ≤ pos)).reverse ++ entries) where
  mem_iff e := by
    rw [List.mem_append, List.mem_reverse, List.mem_filter, hwaiting.mem_iff, h.mem_iff,
      decide_eq_true_eq]
    constructor
    · rintro (⟨⟨he, hpos, -⟩, hle⟩ | ⟨he, hpos, hlt⟩)
      · exact ⟨he, hpos, Nat.lt_succ_of_le hle⟩
      · exact ⟨he, hpos, Nat.lt_succ_of_lt hlt⟩
    · rintro ⟨he, hpos, hlt⟩
      rcases Nat.lt_or_ge e.visibleFrom pos with hvisible | hvisible
      · exact .inr ⟨he, hpos, hvisible⟩
      · exact .inl ⟨⟨he, hpos, hvisible⟩, Nat.le_of_lt_succ hlt⟩
  later := by
    have hreleased : ∀ e ∈ waiting.filter (·.visibleFrom ≤ pos),
        IsEntry t root e ∧ t.position root e.decl < pos ∧ t.visibleFrom root e.decl = pos := by
      intro e he
      rw [List.mem_filter, hwaiting.mem_iff, decide_eq_true_eq] at he
      obtain ⟨⟨he, hpos, hge⟩, hle⟩ := he
      exact ⟨he, hpos, he.visibleFrom ▸ Nat.le_antisymm hle hge⟩
    refine List.pairwise_append.2 ⟨List.pairwise_reverse.2 ?_, h.later, ?_⟩
    · refine (hwaiting.inner.filter _).imp_of_mem ?_
      intro e e' he he' hinner
      obtain ⟨-, hpos, heq⟩ := hreleased e he
      obtain ⟨-, -, heq'⟩ := hreleased e' he'
      -- A procedure is visible where it begins and never waits.
      have hvalue : t.namesProcedure e.decl = false := by
        by_cases hproc : t.namesProcedure e.decl = true
        · rw [Tree.visibleFrom_of_procedure hproc] at heq
          omega
        · simpa using hproc
      exact .inr ⟨heq.trans heq'.symm, hvalue, .inr hinner.2⟩
    · intro e he e' he'
      obtain ⟨-, -, heq⟩ := hreleased e (List.mem_reverse.1 he)
      obtain ⟨hise', -, hlt⟩ := (h.mem_iff e').1 he'
      rw [hise'.visibleFrom] at hlt
      exact .inl (heq ▸ hlt)

/-! ### Nodes -/

section Nodes

variable {id : NodeId}

/-- The declarations before a position and the node at it are those before the next one. -/
theorem position_lt_succ_iff {d : NodeId} (hd : d ∈ t.preorder root) :
    t.position root d < t.position root id + 1 ↔ t.position root d < t.position root id
      ∨ d = id := by
  rw [Nat.lt_succ_iff_lt_or_eq]
  refine or_congr_right ⟨fun h => Tree.position_inj hd h, fun h => by rw [h]⟩

theorem Listed.skip (h : Listed t root (t.position root id) (t.position root id + 1) entries)
    (hskip : (t.shape id).declaredName? = none ∨ t.namesProcedure id = false) :
    Listed t root (t.position root id + 1) (t.position root id + 1) entries where
  mem_iff e := by
    rw [h.mem_iff]
    constructor
    · rintro ⟨he, hpos, hlt⟩
      exact ⟨he, Nat.lt_succ_of_lt hpos, hlt⟩
    · rintro ⟨he, hpos, hlt⟩
      rcases (position_lt_succ_iff he.mem).1 hpos with hpos | hdecl
      · exact ⟨he, hpos, hlt⟩
      · have hname := he.name
        rw [he.visibleFrom] at hlt
        rw [hdecl] at hlt hname
        rcases hskip with hnone | hvalue
        · simp [hnone] at hname
        · have hweight := t.weight_pos id
          rw [Tree.visibleFrom_of_value hvalue] at hlt
          omega
  later := h.later

theorem Waits.skip (h : Waits t root (t.position root id) (t.position root id + 1) waiting)
    (hskip : (t.shape id).declaredName? = none ∨ t.namesProcedure id = true) :
    Waits t root (t.position root id + 1) (t.position root id + 1) waiting where
  mem_iff e := by
    rw [h.mem_iff]
    constructor
    · rintro ⟨he, hpos, hle⟩
      exact ⟨he, Nat.lt_succ_of_lt hpos, hle⟩
    · rintro ⟨he, hpos, hle⟩
      rcases (position_lt_succ_iff he.mem).1 hpos with hpos | hdecl
      · exact ⟨he, hpos, hle⟩
      · have hname := he.name
        rw [he.visibleFrom] at hle
        rw [hdecl] at hle hname
        rcases hskip with hnone | hproc
        · simp [hnone] at hname
        · rw [Tree.visibleFrom_of_procedure hproc] at hle
          omega
  inner := h.inner

/-- A procedure is listed where it begins. -/
theorem Listed.procedure {e : Entry}
    (h : Listed t root (t.position root id) (t.position root id + 1) entries)
    (hproc : t.namesProcedure id = true) (he : IsEntry t root e) (hdecl : e.decl = id) :
    Listed t root (t.position root id + 1) (t.position root id + 1) (e :: entries) where
  mem_iff e' := by
    have hvisible : e.visibleFrom = t.position root id := by
      rw [he.visibleFrom, hdecl, Tree.visibleFrom_of_procedure hproc]
    rw [List.mem_cons, h.mem_iff]
    constructor
    · rintro (rfl | ⟨he', hpos, hlt⟩)
      · rw [hdecl, hvisible]
        exact ⟨he, Nat.lt_succ_self _, Nat.lt_succ_self _⟩
      · exact ⟨he', Nat.lt_succ_of_lt hpos, hlt⟩
    · rintro ⟨he', hpos, hlt⟩
      rcases (position_lt_succ_iff he'.mem).1 hpos with hpos | hdecl'
      · exact .inr ⟨he', hpos, hlt⟩
      · exact .inl (he'.unique he (hdecl'.trans hdecl.symm))
  later := by
    refine List.pairwise_cons.2 ⟨fun e' he' => ?_, h.later⟩
    obtain ⟨hise', hpos, hlt⟩ := (h.mem_iff e').1 he'
    rw [hise'.visibleFrom] at hlt
    rw [hdecl]
    unfold Later
    rw [Tree.visibleFrom_of_procedure hproc]
    rcases Nat.lt_succ_iff_lt_or_eq.1 hlt with hlt | heq
    · exact .inl hlt
    · -- A procedure that is visible from here on would begin here.
      have hvalue : t.namesProcedure e'.decl = false := by
        by_cases hproc' : t.namesProcedure e'.decl = true
        · rw [Tree.visibleFrom_of_procedure hproc'] at heq
          omega
        · simpa using hproc'
      exact .inr ⟨heq, hvalue, .inl hproc⟩

/-- Any other declaration waits for the end of its subtree, which is inside of what waits
already. -/
theorem Waits.push {e : Entry} (hnodup : (t.preorder root).Nodup)
    (h : Waits t root (t.position root id) (t.position root id + 1) waiting)
    (hvalue : t.namesProcedure id = false) (he : IsEntry t root e) (hdecl : e.decl = id) :
    Waits t root (t.position root id + 1) (t.position root id + 1) (e :: waiting) where
  mem_iff e' := by
    have hvisible : e.visibleFrom = t.position root id + t.weight id := by
      rw [he.visibleFrom, hdecl, Tree.visibleFrom_of_value hvalue]
    rw [List.mem_cons, h.mem_iff]
    constructor
    · rintro (rfl | ⟨he', hpos, hle⟩)
      · rw [hdecl, hvisible]
        exact ⟨he, Nat.lt_succ_self _, Nat.add_le_add_left (t.weight_pos id) _⟩
      · exact ⟨he', Nat.lt_succ_of_lt hpos, hle⟩
    · rintro ⟨he', hpos, hle⟩
      rcases (position_lt_succ_iff he'.mem).1 hpos with hpos | hdecl'
      · exact .inr ⟨he', hpos, hle⟩
      · exact .inl (he'.unique he (hdecl'.trans hdecl.symm))
  inner := by
    refine List.pairwise_cons.2 ⟨fun e' he' => ?_, h.inner⟩
    obtain ⟨hise', hpos, hle⟩ := (h.mem_iff e').1 he'
    have hmem := he.mem
    rw [hdecl] at hmem
    rw [he.visibleFrom, hise'.visibleFrom, hdecl, Tree.visibleFrom_of_value hvalue]
    rw [hise'.visibleFrom] at hle
    have hend := Nat.lt_of_lt_of_le (Nat.lt_of_succ_le hle) (t.visibleFrom_le_end root e'.decl)
    have hinside := (Tree.mem_preorder_iff_position hnodup hise'.mem hmem).2
      ⟨Nat.le_of_lt hpos, hend⟩
    -- What waits and began before the declaration is around it, so that it ends no earlier.
    have hends := Tree.end_le_end hnodup hise'.mem hinside
    by_cases hproc : t.namesProcedure e'.decl = true
    · rw [Tree.visibleFrom_of_procedure hproc] at hle
      omega
    · rw [Tree.visibleFrom_of_value (by simpa using hproc)]
      exact ⟨hends, hpos⟩

end Nodes

end Resolution

end MiddleEnd
