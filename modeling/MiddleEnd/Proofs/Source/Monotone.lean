import MiddleEnd.Diagnostic.Queue
import MiddleEnd.Proofs.Source.LineTable

/-!
# Positions in the order of offsets

Any byte offset has a position, also one that cuts a character.  The line of such an offset is the
one it is in, but its column is the first of the line.  So the lines of later offsets are never
earlier, whereas a position goes back where an offset cuts a character behind others of its line.

## Main definitions

* `charsBefore` — the characters that end at or before a byte.
* `CutsChar` — a byte offset inside a character.
* `SetsBack` — an offset behind a character, and one that cuts a later character of the same line.

## Main results

* `LineTable.position_eq` — the position of any offset, from the characters before it.
* `LineTable.position_monotone_iff` — **positions are in the order of offsets** in which a queue
  sorts, except where an offset sets back another one.
* `LineTable.not_position_monotone` — there are texts in which that happens.
-/

namespace MiddleEnd

/-! ### Whole characters before an offset -/

/-- The characters that end at or before byte `n`. -/
def charsBefore : List Char → Nat → List Char
  | [], _ => []
  | c :: cs, n => if c.utf8Size ≤ n then c :: charsBefore cs (n - c.utf8Size) else []

/-- They are all the characters, or the next one ends behind byte `n`. -/
theorem charsBefore_append (cs : List Char) (n : Nat) :
    ∃ post, cs = charsBefore cs n ++ post ∧ (utf8Bytes (charsBefore cs n)).length ≤ n
      ∧ ∀ c rest, post = c :: rest → n < (utf8Bytes (charsBefore cs n)).length + c.utf8Size := by
  induction cs generalizing n with
  | nil => exact ⟨[], rfl, Nat.zero_le n, fun _ _ h => by cases h⟩
  | cons c cs ih =>
    unfold charsBefore
    split
    · next hc =>
      obtain ⟨post, hcs, hle, hlt⟩ := ih (n - c.utf8Size)
      refine ⟨post, congrArg (c :: ·) hcs, ?_, fun d rest hpost => ?_⟩
      · rw [utf8Bytes_cons, List.length_append, String.length_utf8EncodeChar]
        omega
      · have hd := hlt d rest hpost
        rw [utf8Bytes_cons, List.length_append, String.length_utf8EncodeChar]
        omega
    · next hc =>
      refine ⟨c :: cs, rfl, Nat.zero_le n, fun d rest hpost => ?_⟩
      obtain ⟨rfl, rfl⟩ := List.cons.inj hpost
      simpa using Nat.lt_of_not_le hc

/-- Before the end of whole characters there are just these. -/
theorem charsBefore_of_append (pre post : List Char) :
    charsBefore (pre ++ post) (utf8Bytes pre).length = pre := by
  induction pre with
  | nil =>
    cases post with
    | nil => rfl
    | cons c post => exact if_neg (Nat.not_le.2 c.utf8Size_pos)
  | cons c cs ih =>
    rw [List.cons_append, utf8Bytes_cons, List.length_append, String.length_utf8EncodeChar,
      charsBefore, if_pos (Nat.le_add_right _ _), Nat.add_sub_cancel_left, ih]

/-- Later offsets have more characters before them. -/
theorem charsBefore_prefix (cs : List Char) {m n : Nat} (h : m ≤ n) :
    charsBefore cs m <+: charsBefore cs n := by
  induction cs generalizing m n with
  | nil => exact List.prefix_refl _
  | cons c cs ih =>
    unfold charsBefore
    by_cases hm : c.utf8Size ≤ m
    · rw [if_pos hm, if_pos (by omega)]
      exact (List.prefix_cons_inj c).2 (ih (by omega))
    · rw [if_neg hm]
      exact List.nil_prefix

/-- A byte offset inside a character of a text. -/
def CutsChar (source : String) (offset : Nat) : Prop :=
  offset < source.utf8ByteSize ∧ ¬(⟨offset⟩ : String.Pos.Raw).IsValid source

instance (source : String) (offset : Nat) : Decidable (CutsChar source offset) :=
  inferInstanceAs (Decidable (_ ∧ _))

/-- `o₁` stands right behind a character of a line, and `o₂` cuts a later character of that line. -/
structure SetsBack (source : String) (o₁ o₂ : Nat) : Prop where
  /-- The first offset is right behind a character that is no newline. -/
  behind : ∃ (before : String) (c : Char) (after : String),
    source = before.push c ++ after ∧ (before.push c).utf8ByteSize = o₁ ∧ c ≠ '\n'
  /-- The second offset is inside a character. -/
  cuts : CutsChar source o₂
  /-- No newline byte is between the two. -/
  sameLine : 10 ∉ (source.toByteArray.data.toList.take o₂).drop o₁

namespace LineTable

variable {source : String} {pre post : List Char} {offset : Nat}

/-- Behind whole characters no character is cut. -/
theorem not_cutsChar_of_append (hsource : source.toList = pre ++ post)
    (hpre : (utf8Bytes pre).length = offset) : ¬CutsChar source offset := by
  rintro ⟨-, hcut⟩
  refine hcut (String.Pos.Raw.isValid_iff_exists_append.2 ⟨.ofList pre, .ofList post, ?_, ?_⟩)
  · rw [← String.ofList_append, ← hsource, String.ofList_toList]
  · have hsize := length_utf8Bytes_toList (.ofList pre)
    rw [String.toList_ofList, hpre] at hsize
    exact congrArg String.Pos.Raw.mk hsize

/-- Between the first byte of a character and its end it is cut. -/
theorem cutsChar_of_append {c : Char} {rest : List Char}
    (hsource : source.toList = pre ++ c :: rest)
    (hlt : (utf8Bytes pre).length < offset) (hend : offset < (utf8Bytes pre).length + c.utf8Size) :
    CutsChar source offset := by
  refine ⟨?_, fun hvalid => ?_⟩
  · have hsize := length_utf8Bytes_toList source
    rw [hsource, utf8Bytes_append, utf8Bytes_cons, List.length_append, List.length_append,
      String.length_utf8EncodeChar] at hsize
    omega
  · obtain ⟨pre', post', hsource', hpre'⟩ := exists_append hvalid
    rcases List.append_eq_append_iff.1 (hsource.symm.trans hsource') with
      ⟨mid, rfl, hmid⟩ | ⟨mid, rfl, -⟩
    · -- A longer prefix has the whole character in it.
      rw [utf8Bytes_append, List.length_append] at hpre'
      cases mid with
      | nil => simp at hpre'; omega
      | cons d mid =>
        obtain ⟨rfl, -⟩ := List.cons.inj hmid
        rw [utf8Bytes_cons, List.length_append, String.length_utf8EncodeChar] at hpre'
        omega
    · rw [utf8Bytes_append, List.length_append] at hlt
      omega

/-- An offset stands behind the whole characters before it, or is past the end, or cuts the next
character. -/
theorem charsBefore_cases (source : String) (offset : Nat) :
    (¬CutsChar source offset
        ∧ (utf8Bytes (charsBefore source.toList offset)).length = min offset source.utf8ByteSize)
      ∨ (CutsChar source offset ∧ ∃ c rest, source.toList = charsBefore source.toList offset
        ++ c :: rest
        ∧ (utf8Bytes (charsBefore source.toList offset)).length < offset
        ∧ offset < (utf8Bytes (charsBefore source.toList offset)).length + c.utf8Size) := by
  obtain ⟨post, hsource, hle, hnext⟩ := charsBefore_append source.toList offset
  have hsize := length_utf8Bytes_toList source
  rw [hsource, utf8Bytes_append, List.length_append] at hsize
  rcases Nat.eq_or_lt_of_le hle with heq | hlt
  · exact .inl ⟨not_cutsChar_of_append hsource heq, by omega⟩
  · cases post with
    | nil =>
      rw [utf8Bytes_nil, List.length_nil, Nat.add_zero] at hsize
      exact .inl ⟨fun hcut => absurd hcut.1 (by omega), by omega⟩
    | cons c rest =>
      exact .inr ⟨cutsChar_of_append hsource hlt (hnext c rest rfl), c, rest, hsource, hlt,
        hnext c rest rfl⟩

/-- Some bytes of a character hold no whole one. -/
theorem charsWithin?_cut (cs : List Char) {c : Char} (more : List Char) {n : Nat} (hpos : 0 < n)
    (hlt : n < c.utf8Size) : charsWithin? (cs ++ c :: more) ((utf8Bytes cs).length + n) = none := by
  induction cs with
  | nil =>
    obtain ⟨n, rfl⟩ := Nat.exists_eq_add_of_lt hpos
    rw [List.nil_append, utf8Bytes_nil, List.length_nil, Nat.zero_add, Nat.zero_add, charsWithin?,
      if_neg (by omega)]
  | cons d cs ih =>
    have hsize : (utf8Bytes (d :: cs)).length = d.utf8Size + (utf8Bytes cs).length := by simp
    obtain ⟨k, hk⟩ : ∃ k, (utf8Bytes (d :: cs)).length + n = k + 1 :=
      ⟨(utf8Bytes (d :: cs)).length + n - 1, by omega⟩
    rw [hk, List.cons_append, charsWithin?, if_pos (by omega),
      show k + 1 - d.utf8Size = (utf8Bytes cs).length + n by omega, ih]
    rfl

/-- An offset that cuts a character is placed at the first column of its line. -/
theorem position_of_cut {c : Char} {rest : List Char} (hsource : source.toList = pre ++ c :: rest)
    (hlt : (utf8Bytes pre).length < offset) (hend : offset < (utf8Bytes pre).length + c.utf8Size) :
    (ofText source).position offset = ⟨1 + pre.count '\n', 1⟩ := by
  have hc : c ≠ '\n' := by
    rintro rfl
    have hone : '\n'.utf8Size = 1 := by decide
    omega
  have hline : (ofText source).lineOf offset = 1 + pre.count '\n' := by
    have htake : source.toByteArray.data.toList.take offset
        = utf8Bytes pre ++ (String.utf8EncodeChar c).take (offset - (utf8Bytes pre).length) := by
      rw [← utf8Bytes_toList, hsource, utf8Bytes_append, utf8Bytes_cons, List.take_append,
        List.take_of_length_le (Nat.le_of_lt hlt),
        List.take_append_of_le_length (by rw [String.length_utf8EncodeChar]; omega)]
    rw [lineOf_ofText, htake, List.count_append, count_newline_take hc, count_newline_utf8Bytes,
      Nat.add_zero]
  -- The line goes on behind the prefix with the character that is cut.
  have hsplit : source.toList = (pre ++ [c]) ++ rest := by rw [hsource, List.append_assoc]; rfl
  obtain ⟨before, more, hbefore, hget⟩ := exists_line_of_append hsplit
  have hsince : sinceNewline (pre ++ [c]) = sinceNewline pre ++ [c] :=
    sinceNewline_append pre (by simpa using Ne.symm hc)
  have hcount : (pre ++ [c]).count '\n' = pre.count '\n' := by
    rw [List.count_append, List.count_singleton]
    simp [hc]
  rw [hsince, ← List.append_assoc, List.append_cancel_right_eq] at hbefore
  rw [hcount, hsince, List.append_assoc] at hget
  have hchars : charsWithin? (sinceNewline pre ++ ([c] ++ more))
      (min offset source.utf8ByteSize - (utf8Bytes before).length) = none := by
    have hsize : (utf8Bytes pre).length
        = (utf8Bytes before).length + (utf8Bytes (sinceNewline pre)).length := by
      rw [← List.length_append, ← utf8Bytes_append, ← hbefore]
    have hwithin := (cutsChar_of_append hsource hlt hend).1
    rw [show min offset source.utf8ByteSize - (utf8Bytes before).length
      = (utf8Bytes (sinceNewline pre)).length + (offset - (utf8Bytes pre).length) by omega]
    exact charsWithin?_cut _ more (by omega) (by omega)
  have hsize : (ofText source).size = source.utf8ByteSize := rfl
  simp only [position, hline, Nat.add_sub_cancel_left, hget, hsize, hchars, Option.getD_none,
    Nat.zero_add]

/-- **The position of any offset**, from the characters before it. -/
theorem position_eq (source : String) (offset : Nat) :
    (ofText source).position offset
      = ⟨1 + (charsBefore source.toList offset).count '\n',
        if CutsChar source offset then 1
        else 1 + (sinceNewline (charsBefore source.toList offset)).length⟩ := by
  rcases charsBefore_cases source offset with ⟨hcut, hpre⟩ | ⟨hcut, c, rest, hsource, hlt, hend⟩
  · obtain ⟨post, hsource, -⟩ := charsBefore_append source.toList offset
    rw [position_of_append hsource hpre, if_neg hcut]
  · rw [position_of_cut hsource hlt hend, if_pos hcut]

/-! ### Order -/

theorem line_position (t : LineTable) (offset : Nat) :
    (t.position offset).line = t.lineOf offset := by
  unfold position
  dsimp only
  split <;> rfl

/-- The newlines among the characters before an offset are the newline bytes before it. -/
theorem count_newline_charsBefore (source : String) (offset : Nat) :
    (charsBefore source.toList offset).count '\n'
      = (source.toByteArray.data.toList.take offset).count 10 := by
  have hline := line_position (ofText source) offset
  rw [position_eq, lineOf_ofText] at hline
  exact Nat.add_left_cancel hline

/-- Between two offsets there are the newlines of the characters between them. -/
theorem newline_mem_iff {o₁ o₂ : Nat} (h : o₁ ≤ o₂) {mid : List Char}
    (hmid : charsBefore source.toList o₁ ++ mid = charsBefore source.toList o₂) :
    '\n' ∈ mid ↔ 10 ∈ (source.toByteArray.data.toList.take o₂).drop o₁ := by
  have hbytes := List.take_append_drop o₁ (source.toByteArray.data.toList.take o₂)
  rw [List.take_take, Nat.min_eq_left h] at hbytes
  have hcount := count_newline_charsBefore source o₂
  rw [← hmid, ← hbytes, List.count_append, List.count_append, count_newline_charsBefore] at hcount
  rw [← List.count_pos_iff, ← List.count_pos_iff, Nat.add_left_cancel hcount]

/-- Where no character is cut, an offset is behind a character of its line, or at the beginning of
the line. -/
theorem behind_iff (hwithin : offset < source.utf8ByteSize) :
    (∃ (before : String) (c : Char) (after : String),
        source = before.push c ++ after ∧ (before.push c).utf8ByteSize = offset ∧ c ≠ '\n')
      ↔ ¬CutsChar source offset ∧ sinceNewline (charsBefore source.toList offset) ≠ [] := by
  constructor
  · -- The characters of the line up to the offset end with `c`.
    rintro ⟨before, c, after, hsource, hsize, hc⟩
    have hlist : source.toList = (before.toList ++ [c]) ++ after.toList := by
      rw [hsource, String.toList_append, String.toList_push]
    have hlength : (utf8Bytes (before.toList ++ [c])).length = offset := by
      rw [← String.toList_push, length_utf8Bytes_toList, hsize]
    refine ⟨not_cutsChar_of_append hlist hlength, ?_⟩
    rw [hlist, ← hlength, charsBefore_of_append, sinceNewline_append _ (by simpa using Ne.symm hc)]
    simp
  · -- The last character before the offset is the one that is asked for.
    rintro ⟨hcut, hsince⟩
    obtain ⟨post, hsource, -⟩ := charsBefore_append source.toList offset
    rcases charsBefore_cases source offset with ⟨-, hlength⟩ | ⟨hcut', -⟩
    · rw [Nat.min_eq_left (Nat.le_of_lt hwithin)] at hlength
      generalize charsBefore source.toList offset = pre at hsince hsource hlength
      cases pre using List.reverseRecOn with
      | nil => exact (hsince rfl).elim
      | append_singleton cs c =>
        refine ⟨.ofList cs, c, .ofList post, ?_, ?_, ?_⟩
        · rw [← String.toList_inj, hsource, String.toList_append, String.toList_push,
            String.toList_ofList, String.toList_ofList]
        · rw [← length_utf8Bytes_toList, String.toList_push, String.toList_ofList, hlength]
        · rintro rfl
          exact hsince (sinceNewline_newline cs)
    · exact (hcut hcut').elim

/-- **A later offset has no earlier position, unless it sets the earlier one back.** -/
theorem order_le_iff {o₁ o₂ : Nat} (h : o₁ ≤ o₂) :
    ((ofText source).position o₁).order ≤ ((ofText source).position o₂).order
      ↔ ¬SetsBack source o₁ o₂ := by
  obtain ⟨mid, hmid⟩ := charsBefore_prefix source.toList h
  have hnewline := newline_mem_iff h hmid
  unfold Position.order
  rw [Prod.Lex.toLex_le_toLex, position_eq, position_eq, ← hmid, List.count_append]
  by_cases hline : '\n' ∈ mid
  · have hpos := List.count_pos_iff.2 hline
    exact iff_of_true (.inl (by simpa using hpos)) fun hback => hback.sameLine (hnewline.1 hline)
  · rw [List.count_eq_zero.2 hline, sinceNewline_append _ hline, List.length_append]
    simp only [Nat.add_zero, lt_irrefl, true_and, false_or]
    -- On one line the columns decide, and a character that is cut is in the first one.
    by_cases hcut : CutsChar source o₂
    · have hwithin : o₁ < source.utf8ByteSize := Nat.lt_of_le_of_lt h hcut.1
      have hbehind := behind_iff hwithin
      have hback : SetsBack source o₁ o₂
          ↔ ¬CutsChar source o₁ ∧ sinceNewline (charsBefore source.toList o₁) ≠ [] := by
        rw [← hbehind]
        exact ⟨SetsBack.behind, fun hb => ⟨hb, hcut, hline ∘ hnewline.2⟩⟩
      rw [hback, if_pos hcut, ← List.length_pos_iff]
      split <;> grind
    · rw [if_neg hcut]
      refine iff_of_true ?_ fun hback => hcut hback.cuts
      split <;> omega

end LineTable

/-- A queue is sorted in the order of positions. -/
theorem Placed.atOrBefore_iff (p q : Placed) :
    p.atOrBefore q = true ↔ p.position.order ≤ q.position.order := by
  unfold Position.order
  rw [Prod.Lex.toLex_le_toLex]
  simp [atOrBefore]

namespace LineTable

/-- **Positions are in the order of offsets**, except where an offset sets back an earlier one: its
diagnostics are then put before those of the other, on the same line.  Lines are always in the order
of offsets. -/
theorem position_monotone_iff (source : String) {o₁ o₂ : Nat} (h : o₁ ≤ o₂) :
    ((ofText source).position o₁).line ≤ ((ofText source).position o₂).line
      ∧ (((ofText source).position o₁).order ≤ ((ofText source).position o₂).order
        ↔ ¬SetsBack source o₁ o₂)
      ∧ ∀ d₁ d₂ : Diagnostic,
        Placed.atOrBefore ⟨d₁, (ofText source).position o₁⟩ ⟨d₂, (ofText source).position o₂⟩ = true
          ↔ ¬SetsBack source o₁ o₂ := by
  refine ⟨?_, order_le_iff h, fun d₁ d₂ => ?_⟩
  · obtain ⟨mid, hmid⟩ := charsBefore_prefix source.toList h
    rw [position_eq, position_eq, ← hmid, List.count_append]
    exact Nat.add_le_add_left (Nat.le_add_right _ _) 1
  · rw [Placed.atOrBefore_iff]
    exact order_le_iff h

/-- In `aé` the offset 2, inside of `é`, sets back the offset 1, behind `a`. -/
theorem setsBack_accented : SetsBack "aé" 1 2 where
  behind := ⟨"", 'a', "é", by decide, by decide, by decide⟩
  cuts := by decide
  sameLine := by decide +kernel

/-- There, the offset 2 is put before the offset 1, but behind the beginning of the line. -/
theorem position_monotone_iff_accented :
    1 ≤ 2 ∧ SetsBack "aé" 1 2
      ∧ ¬((ofText "aé").position 1).order ≤ ((ofText "aé").position 2).order
      ∧ ((ofText "aé").position 0).order ≤ ((ofText "aé").position 2).order
      ∧ ((ofText "aé").position 1).order ≤ ((ofText "aé").position 3).order := by
  refine ⟨by decide, setsBack_accented, fun h => ?_, ?_, ?_⟩
  · exact (position_monotone_iff "aé" (show 1 ≤ 2 by decide)).2.1.1 h setsBack_accented
  · refine (position_monotone_iff "aé" (show 0 ≤ 2 by decide)).2.1.2 fun hback => ?_
    -- Nothing is in front of the offset 0.
    obtain ⟨before, c, -, -, hsize, -⟩ := hback.behind
    have hpos := c.utf8Size_pos
    rw [String.utf8ByteSize_push] at hsize
    omega
  · refine (position_monotone_iff "aé" (show 1 ≤ 3 by decide)).2.1.2 fun hback => ?_
    exact absurd hback.cuts (by decide)

/-- **Positions are not always in the order of offsets.** -/
theorem not_position_monotone :
    ¬∀ (source : String) (o₁ o₂ : Nat), o₁ ≤ o₂ →
      ((ofText source).position o₁).order ≤ ((ofText source).position o₂).order := fun h =>
  (order_le_iff (by decide)).1 (h "aé" 1 2 (by decide)) setsBack_accented

end LineTable

end MiddleEnd
