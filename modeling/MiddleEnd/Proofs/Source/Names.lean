import Mathlib.Data.Finset.Card
import Mathlib.Data.Finset.Dedup
import Mathlib.Data.List.TakeWhile
import MiddleEnd.Source.Names

/-!
# Texts and their numbers

A table keeps the text of each number in one place and the number of each text in another.  Both are
filled by `Names.intern` alone, and stay inverse to each other whatever is interned.  The number of
a text is how many others came before it, so that it never changes, and stands for no other text.

## Main definitions

* `Names.internAll`, `Names.internAll?` — number texts one after the other, with as many numbers as
  it takes, or with those of 32 bits.
* `Names.distinctBefore` — how many texts come before another one.
* `Names.Knows` — the table knows what it has seen, and nothing else.

## Main results

* `Names.Knows.intern`, `Names.Knows.internAll` — what a table knows after a text, and after many.
* `Names.Knows.text_intern` — **the number of a text stands for it from then on**.
* `Names.Knows.intern_eq_iff` — two texts have the same number, given at any time, iff they are
  equal.
* `Names.Knows.internAll?_eq` — numbers of 32 bits are given out like any others while there are
  enough.
* `Names.internAll_bijective` — **texts and their numbers are in bijection, whatever is interned**.
-/

namespace MiddleEnd

namespace Names

/-- Number texts one after the other. -/
def internAll (t : Names) : List String → List Nat × Names
  | [] => ([], t)
  | s :: rest =>
    let (n, t) := t.intern s
    let (ns, t) := t.internAll rest
    (n :: ns, t)

/-- Number texts one after the other, until one finds the table full. -/
def internAll? (t : Names) : List String → Option (List Nat × Names)
  | [] => some ([], t)
  | s :: rest => do
    let (n, t) ← t.intern? s
    let (ns, t) ← t.internAll? rest
    return (n :: ns, t)

@[simp] theorem internAll_nil (t : Names) : t.internAll [] = ([], t) := rfl

@[simp] theorem internAll_cons (t : Names) (s : String) (rest : List String) :
    t.internAll (s :: rest)
      = ((t.intern s).1 :: ((t.intern s).2.internAll rest).1, ((t.intern s).2.internAll rest).2) :=
  rfl

theorem internAll?_cons (t : Names) (s : String) (rest : List String) :
    t.internAll? (s :: rest)
      = (t.intern? s).bind fun a => (a.2.internAll? rest).map fun r => (a.1 :: r.1, r.2) := by
  cases ha : t.intern? s with
  | none => simp [internAll?, ha]
  | some a =>
    cases hr : a.2.internAll? rest with
    | none => simp [internAll?, ha, hr]
    | some r => simp [internAll?, ha, hr]

theorem internAll_concat_snd (t : Names) (texts : List String) (s : String) :
    (t.internAll (texts ++ [s])).2 = ((t.internAll texts).2.intern s).2 := by
  induction texts generalizing t with
  | nil => rfl
  | cons x rest ih => exact ih (t.intern x).2

/-! ### Texts before a text -/

/-- How many texts come before the first `s`, each counted once; all of them if there is no `s`. -/
def distinctBefore (seen : List String) (s : String) : Nat :=
  (seen.takeWhile (· != s)).toFinset.card

variable {t : Names} {seen : List String} {s : String}

/-- What comes at `s` or later does not count. -/
theorem distinctBefore_append_cons (seen : List String) (s : String) (more : List String) :
    distinctBefore (seen ++ s :: more) s = distinctBefore seen s := by
  have htake : (seen ++ s :: more).takeWhile (· != s) = seen.takeWhile (· != s) := by
    induction seen with
    | nil => simp
    | cons x rest ih =>
      rw [List.cons_append, List.takeWhile_cons, List.takeWhile_cons, ih]
  unfold distinctBefore
  rw [htake]

theorem distinctBefore_append_of_mem (h : s ∈ seen) (more : List String) :
    distinctBefore (seen ++ more) s = distinctBefore seen s := by
  obtain ⟨before, after, rfl⟩ := List.append_of_mem h
  rw [List.append_assoc, List.cons_append, distinctBefore_append_cons, distinctBefore_append_cons]

/-- The place of a text does not depend on what comes behind `seen`, unless it only comes there. -/
theorem placed_append_iff {more : List String} (h : s ∈ more → s ∈ seen) (n : Nat) :
    s ∈ seen ++ more ∧ distinctBefore (seen ++ more) s = n ↔ s ∈ seen
      ∧ distinctBefore seen s = n := by
  rw [List.mem_append, or_iff_left_of_imp h]
  refine and_congr_right fun hs => ?_
  rw [distinctBefore_append_of_mem hs]

theorem distinctBefore_of_notMem (h : s ∉ seen) : distinctBefore seen s = seen.toFinset.card := by
  have htake : seen.takeWhile (· != s) = seen := by
    refine List.takeWhile_eq_self_iff.2 fun x hx => ?_
    rw [bne_iff_ne]
    rintro rfl
    exact h hx
  unfold distinctBefore
  rw [htake]

theorem card_toFinset_concat_of_mem (h : s ∈ seen) :
    (seen ++ [s]).toFinset.card = seen.toFinset.card := by
  have hsame : (seen ++ [s]).toFinset = seen.toFinset := by
    ext x
    simp only [List.mem_toFinset, List.mem_append, List.mem_singleton, or_iff_left_iff_imp]
    rintro rfl
    exact h
  rw [hsame]

theorem card_toFinset_concat_of_notMem (h : s ∉ seen) :
    (seen ++ [s]).toFinset.card = seen.toFinset.card + 1 := by
  have hinsert : (seen ++ [s]).toFinset = insert s seen.toFinset := by
    ext x
    simp
  rw [hinsert, Finset.card_insert_of_notMem (by simpa using h)]

/-! ### What a table knows -/

/-- The table knows the texts of `seen` by their places, and both of its halves say the same. -/
structure Knows (t : Names) (seen : List String) : Prop where
  /-- A text has the number that its first occurrence has among the different ones. -/
  find?_iff : ∀ s n, t.find? s = some n ↔ s ∈ seen ∧ distinctBefore seen s = n
  /-- Texts and numbers are inverse to each other. -/
  inverse : ∀ s n, t.find? s = some n ↔ t.texts[n]? = some s
  /-- There are as many numbers as different texts. -/
  size_eq : t.size = seen.toFinset.card

theorem find?_insert (t : Names) (s x : String) (n : Nat) (texts : Array String) :
    (Names.mk texts (t.numbers.insert s n)).find? x = if s = x then some n else t.find? x := by
  simp only [find?, Std.HashMap.getElem?_insert, beq_iff_eq]

theorem knows_nothing : Knows ⟨#[], ∅⟩ [] where
  find?_iff s n := by simp [find?]
  inverse s n := by simp [find?]
  size_eq := rfl

namespace Knows

theorem find?_of_mem (h : t.Knows seen) (hs : s ∈ seen) :
    t.find? s = some (distinctBefore seen s) :=
  (h.find?_iff s _).2 ⟨hs, rfl⟩

theorem find?_eq_none_iff (h : t.Knows seen) : t.find? s = none ↔ s ∉ seen := by
  constructor
  · intro hnone hs
    rw [h.find?_of_mem hs] at hnone
    cases hnone
  · intro hs
    refine Option.eq_none_iff_forall_ne_some.2 fun n hn => ?_
    exact hs ((h.find?_iff s n).1 hn).1

/-- A text that has been seen changes nothing. -/
theorem intern_of_mem (h : t.Knows seen) (hs : s ∈ seen) :
    t.intern s = (distinctBefore seen s, t) := by
  unfold Names.intern
  rw [h.find?_of_mem hs]

/-- A new text is added at the end. -/
theorem intern_of_notMem (h : t.Knows seen) (hs : s ∉ seen) :
    t.intern s = (t.size, ⟨t.texts.push s, t.numbers.insert s t.size⟩) := by
  unfold Names.intern
  rw [h.find?_eq_none_iff.2 hs]
  rfl

/-- The number of a text says how many there are before it, whether it is new or not. -/
theorem intern_fst (h : t.Knows seen) (s : String) : (t.intern s).1 = distinctBefore seen s := by
  by_cases hs : s ∈ seen
  · rw [h.intern_of_mem hs]
  · rw [h.intern_of_notMem hs, distinctBefore_of_notMem hs]
    exact h.size_eq

/-- A new text behind the others is known with them. -/
theorem add (h : t.Knows seen) (hs : s ∉ seen) :
    Knows ⟨t.texts.push s, t.numbers.insert s t.size⟩ (seen ++ [s]) where
  find?_iff x n := by
    rw [find?_insert]
    split
    · next hx =>
      subst hx
      have hplace : distinctBefore (seen ++ [s]) s = t.size := by
        rw [distinctBefore_append_cons, distinctBefore_of_notMem hs, h.size_eq]
      rw [hplace]
      simp
    · next hx =>
      have hother : x ∈ [s] → x ∈ seen := fun hxs => absurd (List.mem_singleton.1 hxs).symm hx
      rw [h.find?_iff, placed_append_iff hother]
  inverse x n := by
    -- the next number stands for no text yet
    have hfree : ∀ y, t.find? y ≠ some t.size := by
      intro y hy
      obtain ⟨hlt, -⟩ := Array.getElem?_eq_some_iff.1 ((h.inverse y t.size).1 hy)
      exact Nat.lt_irrefl _ hlt
    rw [find?_insert, Array.getElem?_push]
    by_cases hx : s = x
    · subst hx
      rw [if_pos rfl]
      by_cases hn : n = t.texts.size
      · simp [hn, size]
      · have hnot : t.texts[n]? ≠ some s := by
          intro hn'
          exact hs ((h.find?_iff s n).1 ((h.inverse s n).2 hn')).1
        rw [if_neg hn]
        simp [hnot, size, Ne.symm hn]
    · rw [if_neg hx]
      by_cases hn : n = t.texts.size
      · rw [if_pos hn, hn, Option.some_inj]
        exact iff_of_false (hfree x) hx
      · rw [if_neg hn]
        exact h.inverse x n
  size_eq := by
    rw [card_toFinset_concat_of_notMem hs, ← h.size_eq]
    exact Array.size_push ..

/-- A table that knows some texts knows one more after it. -/
theorem intern (h : t.Knows seen) (s : String) : (t.intern s).2.Knows (seen ++ [s]) := by
  by_cases hs : s ∈ seen
  · rw [h.intern_of_mem hs]
    refine ⟨fun x n => ?_, h.inverse, ?_⟩
    · have hseen : x ∈ [s] → x ∈ seen := fun hxs => List.mem_singleton.1 hxs ▸ hs
      rw [h.find?_iff, placed_append_iff hseen]
    · rw [card_toFinset_concat_of_mem hs]
      exact h.size_eq
  · rw [h.intern_of_notMem hs]
    exact h.add hs

theorem internAll (h : t.Knows seen) (texts : List String) :
    (t.internAll texts).2.Knows (seen ++ texts) := by
  induction texts generalizing t seen with
  | nil => simpa using h
  | cons s rest ih => simpa using ih (h.intern s)

/-- Each text is given the number that it has in the end. -/
theorem internAll_fst (h : t.Knows seen) (texts : List String) :
    (t.internAll texts).1 = texts.map (distinctBefore (seen ++ texts)) := by
  induction texts generalizing t seen with
  | nil => rfl
  | cons s rest ih =>
    have hhead : (t.intern s).1 = distinctBefore (seen ++ s :: rest) s := by
      rw [h.intern_fst, distinctBefore_append_cons]
    have htail := ih (h.intern s)
    rw [List.append_assoc, List.singleton_append] at htail
    rw [internAll_cons, hhead, htail, List.map_cons]

theorem text_of_find? (h : t.Knows seen) {n : Nat} (hn : t.find? s = some n) : t.text n = s := by
  unfold Names.text
  rw [(h.inverse s n).1 hn]
  rfl

/-- **The number of a text stands for it from then on.** -/
theorem text_intern (h : t.Knows seen) (s : String) (later : List String) :
    ((t.intern s).2.internAll later).2.text (t.intern s).1 = s := by
  have hlater := h.internAll (s :: later)
  refine hlater.text_of_find? ((hlater.find?_iff s _).2 ⟨by simp, ?_⟩)
  rw [h.intern_fst, distinctBefore_append_cons]

/-- Two texts have the same number, given at any time, iff they are equal. -/
theorem intern_eq_iff (h : t.Knows seen) (s s' : String) (later : List String) :
    (((t.intern s).2.internAll later).2.intern s').1 = (t.intern s).1 ↔ s' = s := by
  have hlater := h.internAll (s :: later)
  constructor
  · intro heq
    -- both numbers can be read back once both texts are there
    have hnew := hlater.text_intern s' []
    have hold := h.text_intern s (later ++ [s'])
    rw [internAll_concat_snd] at hold
    calc
      s' = _ := hnew.symm
      _ = _ := congrArg _ heq
      _ = s := hold
  · rintro rfl
    calc
      _ = distinctBefore (seen ++ s' :: later) s' := hlater.intern_fst s'
      _ = distinctBefore seen s' := distinctBefore_append_cons ..
      _ = _ := (h.intern_fst s').symm

/-- Numbers are dense: all below the size of the table stand for a text. -/
theorem exists_number_iff (h : t.Knows seen) (n : Nat) :
    (∃ s ∈ seen, (t.intern s).1 = n) ↔ n < t.size := by
  calc
    (∃ s ∈ seen, (t.intern s).1 = n) ↔ ∃ s, t.find? s = some n := by
      refine exists_congr fun s => ?_
      rw [h.find?_iff, h.intern_fst]
    _ ↔ ∃ s, t.texts[n]? = some s := exists_congr fun s => h.inverse s n
    _ ↔ n < t.size := by rw [← Option.isSome_iff_exists, isSome_getElem?]; rfl

/-- A text is left alone iff it has been seen. -/
theorem intern_snd_eq_iff (h : t.Knows seen) (s : String) : (t.intern s).2 = t ↔ s ∈ seen := by
  constructor
  · intro heq
    by_contra hs
    have hsize := (h.intern s).size_eq
    rw [heq, h.size_eq, card_toFinset_concat_of_notMem hs] at hsize
    exact Nat.succ_ne_self _ hsize.symm
  · intro hs
    rw [h.intern_of_mem hs]

/-! ### Numbers of 32 bits -/

/-- A text is numbered unless it is one too many. -/
theorem intern?_eq (h : t.Knows seen) (hroom : seen.toFinset.card ≤ capacity) (s : String) :
    t.intern? s = if (seen ++ [s]).toFinset.card ≤ capacity then some (t.intern s) else none := by
  unfold intern?
  by_cases hs : s ∈ seen
  · rw [card_toFinset_concat_of_mem hs, if_pos hroom, h.find?_of_mem hs]
    rfl
  · rw [card_toFinset_concat_of_notMem hs, h.find?_eq_none_iff.2 hs, ← h.size_eq]
    simp only [Option.isSome_none, Bool.false_or, decide_eq_true_eq, size, Nat.add_one_le_iff]

/-- Numbers of 32 bits are given out like any others while there are enough. -/
theorem internAll?_eq (h : t.Knows seen) (hroom : seen.toFinset.card ≤ capacity)
    (texts : List String) :
    t.internAll? texts
      = if (seen ++ texts).toFinset.card ≤ capacity then some (t.internAll texts) else none := by
  induction texts generalizing t seen with
  | nil =>
    rw [List.append_nil, if_pos hroom]
    rfl
  | cons s rest ih =>
    have hassoc : seen ++ s :: rest = (seen ++ [s]) ++ rest := by simp
    rw [internAll?_cons, h.intern?_eq hroom, hassoc]
    split
    · next hfits =>
      rw [Option.bind_some, ih (h.intern s) hfits]
      split <;> rfl
    · next hfull =>
      have hmore : (seen ++ [s]).toFinset.card ≤ ((seen ++ [s]) ++ rest).toFinset.card := by
        refine Finset.card_le_card fun x hx => ?_
        rw [List.mem_toFinset] at hx ⊢
        exact List.mem_append_left rest hx
      rw [if_neg fun hfits => hfull (Nat.le_trans hmore hfits)]
      rfl

end Knows

/-! ### New tables -/

theorem knows_initial : initial.Knows [""] := knows_nothing.intern ""

/-- **Texts and their numbers are in bijection, whatever is interned** in a new table.  All texts
are numbered iff there are no more of them, the empty one included, than numbers of 32 bits.  Each
was given the number that it would be given now.  A number stands for its text at every later time,
and two texts are given the same one, now and at any later time, iff they are equal.  A text that
has been interned, or is empty, is found, with the number that it is given, and no other text is.
The number says how many texts there are before the first occurrence of its own, and is 0 for the
empty text; all numbers below the size are given out and no others, and the size says how many texts
there are.  To intern a text changes nothing iff it has been seen. -/
theorem internAll_bijective (calls : List String) :
    let seen := "" :: calls
    let answers := (initial.internAll calls).1
    let t := (initial.internAll calls).2
    initial.internAll? calls
    = (if seen.toFinset.card ≤ UInt32.size then some (answers, t) else none)
      ∧ answers = calls.map (fun s => (t.intern s).1)
      ∧ (∀ s later, ((t.intern s).2.internAll later).2.text (t.intern s).1 = s)
      ∧ (∀ s s' later, (((t.intern s).2.internAll later).2.intern s').1 = (t.intern s).1 ↔ s' = s)
      ∧ (∀ s n, t.find? s = some n ↔ (s = "" ∨ s ∈ calls) ∧ (t.intern s).1 = n)
      ∧ (∀ s, (t.intern s).1 = (seen.takeWhile (· != s)).toFinset.card)
      ∧ t.find? "" = some 0
      ∧ (∀ n, (∃ s ∈ seen, (t.intern s).1 = n) ↔ n < t.size)
      ∧ t.size = seen.toFinset.card
      ∧ ∀ s, (t.intern s).2 = t ↔ s ∈ seen := by
  intro seen answers t
  have ht : t.Knows seen := knows_initial.internAll calls
  have hroom : [""].toFinset.card ≤ capacity := by decide
  refine ⟨knows_initial.internAll?_eq hroom calls, ?_, ht.text_intern, ht.intern_eq_iff,
    fun s n => ?_, ht.intern_fst, ?_, ht.exists_number_iff, ht.size_eq, ht.intern_snd_eq_iff⟩
  · have hanswers : answers = calls.map (distinctBefore seen) := knows_initial.internAll_fst calls
    rw [hanswers]
    exact List.map_congr_left fun s _ => (ht.intern_fst s).symm
  · rw [ht.find?_iff, ht.intern_fst, List.mem_cons]
  · exact ht.find?_of_mem List.mem_cons_self

example : (initial.internAll ["alpha", "beta", "alpha", ""]).1 = [1, 2, 1, 0] := by
  rw [knows_initial.internAll_fst]
  decide

end Names

end MiddleEnd
