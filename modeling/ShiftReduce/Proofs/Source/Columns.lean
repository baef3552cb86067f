import ShiftReduce.Proofs.Source.Lines
import ShiftReduce.Proofs.Text.Chunks

/-!
# Columns and the order of positions

A rune never moves the column back, and it moves on by a tab stop's width at most, or by one. So as
long as the widths of all runes of a line fit in a word, every word that the column is computed from
is the natural number it stands for (`LineCursor.Unwrapped`, `LineCursor.column_unwrapped`).

A line that is cut somewhere has the runes of the whole line up to the cut, and perhaps a malformed
one in the place of the rune that is cut through. That is not a tab, for a tab has one byte, so the
column at the cut is not behind the column at the end of the line (`LineCursor.column_take_le`).
With the line breaks, which only get more, this orders the positions of a text by their offsets
(`Position.of_le_of`).
-/

namespace ShiftReduce

/-! ## Tabs -/

namespace TabStops

/-- The most columns that a rune moves on by. -/
def stride (tabs : TabStops) : Nat := max 1 tabs.width.toNat

theorem toNat_max (a b : UInt64) : (max a b).toNat = max a.toNat b.toNat := by
  have hmax : max a b = if a ≤ b then b else a := rfl
  rw [hmax]
  split <;> rename_i h <;> rw [UInt64.le_iff_toNat_le] at h <;> omega

theorem toNat_min (a b : UInt64) : (min a b).toNat = min a.toNat b.toNat := by
  have hmin : min a b = if a ≤ b then a else b := rfl
  rw [hmin]
  split <;> rename_i h <;> rw [UInt64.le_iff_toNat_le] at h <;> omega

/-- As long as a tab's width behind the column fits in a word, the words that the next column is
computed from are the natural numbers they stand for: no sum is too large, and no difference
negative. -/
theorem toNat_advance (tabs : TabStops) {column : UInt64} (hpos : 1 ≤ column.toNat)
    (h : column.toNat + tabs.width.toNat < 2 ^ 64) :
    let far := column + tabs.width.toUInt64
    let back := (far - 1) % tabs.alignment.toUInt64
    far.toNat = column.toNat + tabs.width.toNat ∧ (far - 1).toNat + 1 = far.toNat ∧
      (far - back).toNat + back.toNat = far.toNat := by
  intro far back
  have hfar : far.toNat = column.toNat + tabs.width.toNat := by
    rw [UInt64.toNat_add, UInt32.toNat_toUInt64]
    exact Nat.mod_eq_of_lt h
  have hone : (1 : UInt64) ≤ far := by
    rw [UInt64.le_iff_toNat_le, hfar, UInt64.toNat_one]
    omega
  have hless : (far - 1).toNat + 1 = far.toNat := by
    rw [UInt64.toNat_sub_of_le _ _ hone, UInt64.toNat_one]
    omega
  have hback : back.toNat ≤ far.toNat := by
    have hmod : back.toNat ≤ (far - 1).toNat := by
      rw [UInt64.toNat_mod]
      exact Nat.mod_le ..
    omega
  refine ⟨hfar, hless, ?_⟩
  rw [UInt64.toNat_sub_of_le _ _ (UInt64.le_iff_toNat_le.2 hback)]
  omega

/-- A tab moves the column on by its width at most, and not back. -/
theorem advance_bounds (tabs : TabStops) {column : UInt64} (hpos : 1 ≤ column.toNat)
    (h : column.toNat + tabs.width.toNat < 2 ^ 64) :
    column.toNat ≤ (tabs.advance column).toNat ∧
      (tabs.advance column).toNat ≤ column.toNat + tabs.width.toNat := by
  obtain ⟨hfar, -, -⟩ := tabs.toNat_advance hpos h
  unfold advance
  simp only [toNat_max, toNat_min]
  omega

end TabStops

namespace LineCursor

/-- The words that the column after a rune is computed from are the natural numbers they stand
for. -/
def Unwrapped (tabs : TabStops) (column : UInt64) (rune : Char) : Prop :=
  if rune = '\t' then
    let far := column + tabs.width.toUInt64
    let back := (far - 1) % tabs.alignment.toUInt64
    far.toNat = column.toNat + tabs.width.toNat ∧ (far - 1).toNat + 1 = far.toNat ∧
      (far - back).toNat + back.toNat = far.toNat
  else (column + 1).toNat = column.toNat + 1

section Bounds

variable {tabs : TabStops} {column : UInt64} (hpos : 1 ≤ column.toNat)

include hpos

/-- One rune moves the column on by at most one stride, and not back. -/
theorem columnAfter_bounds (h : column.toNat + tabs.stride < 2 ^ 64) (rune : Char) :
    Unwrapped tabs column rune ∧ column.toNat ≤ (columnAfter tabs column rune).toNat ∧
      (columnAfter tabs column rune).toNat ≤ column.toNat + tabs.stride := by
  have hone : 1 ≤ tabs.stride := Nat.le_max_left ..
  have hwidth : tabs.width.toNat ≤ tabs.stride := Nat.le_max_right ..
  unfold Unwrapped columnAfter
  by_cases htab : rune = '\t'
  · rw [if_pos htab, if_pos htab]
    have hbounds := tabs.advance_bounds hpos (by omega)
    exact ⟨tabs.toNat_advance hpos (by omega), hbounds.1, by omega⟩
  · rw [if_neg htab, if_neg htab]
    have hnext : (column + 1).toNat = column.toNat + 1 := by
      rw [UInt64.toNat_add, UInt64.toNat_one]
      exact Nat.mod_eq_of_lt (by omega)
    exact ⟨hnext, by omega, by omega⟩

/-- Runes move the column on by a stride each at most, and not back. -/
theorem foldl_columnAfter_bounds {runes : List Char}
    (h : column.toNat + runes.length * tabs.stride < 2 ^ 64) :
    column.toNat ≤ (runes.foldl (columnAfter tabs) column).toNat ∧
      (runes.foldl (columnAfter tabs) column).toNat ≤
        column.toNat + runes.length * tabs.stride := by
  induction runes generalizing column with
  | nil => simp
  | cons rune runes ih =>
    rw [List.length_cons, Nat.succ_mul] at h
    have hroom : column.toNat + tabs.stride < 2 ^ 64 := by omega
    obtain ⟨-, hle, hmost⟩ := columnAfter_bounds hpos hroom rune
    obtain ⟨hle', hmost'⟩ := ih (Nat.le_trans hpos hle) (by omega)
    rw [List.foldl_cons, List.length_cons, Nat.succ_mul]
    omega

end Bounds

/-- The column at a cut of a line is the one behind some first runes of the line. -/
theorem exists_column_take (tabs : TabStops) (line : Bytes) (k : Nat) : ∃ front back,
    Utf8.runes line = front ++ back ∧
      column tabs (line.take k) = front.foldl (columnAfter tabs) 1 := by
  by_cases hk : k ≤ line.length
  · obtain ⟨before, c, -, -, hwhole, hcut⟩ := Utf8.chunks_take hk
    unfold column Utf8.runes
    rw [hwhole, List.map_append]
    rcases hcut with ⟨rfl, hcut⟩ | ⟨hlt, hinside, hcut⟩
    · exact ⟨_, _, rfl, by rw [hcut]⟩
    · -- the rune that is cut through has more than one byte, so it is no tab
      have hne : line.drop c ≠ [] := by
        rw [← List.length_pos_iff, List.length_drop]
        omega
      have htab : (Utf8.decode (line.drop c)).1 ≠ '\t' := fun htab => by
        rw [Utf8.headSize_of_tab htab] at hinside
        omega
      rw [Utf8.chunks_eq_cons hne, List.map_cons, List.append_cons]
      refine ⟨_, _, rfl, ?_⟩
      rw [hcut, List.map_append, List.map_singleton, List.foldl_concat, List.foldl_concat,
        columnAfter, columnAfter, if_neg htab,
        if_neg (show Utf8.replacement ≠ '\t' by decide)]
  · rw [List.take_of_length_le (by omega)]
    exact ⟨_, [], (List.append_nil _).symm, rfl⟩

section Line

variable {tabs : TabStops} {line : Bytes} (h : 1 + line.length * tabs.stride < 2 ^ 64)

include h

/-- Between the runes of a line the column leaves room for the runes behind it. -/
theorem column_room {before after : List Char} (hrunes : Utf8.runes line = before ++ after) :
    let column := before.foldl (columnAfter tabs) 1
    1 ≤ column.toNat ∧ column.toNat + after.length * tabs.stride < 2 ^ 64 := by
  have hone : (1 : UInt64).toNat = 1 := UInt64.toNat_one
  have hlength : before.length + after.length ≤ line.length := by
    rw [← List.length_append, ← hrunes]
    exact Utf8.length_runes_le line
  have hstrides := Nat.mul_le_mul_right tabs.stride hlength
  rw [Nat.add_mul] at hstrides
  have hroom : (1 : UInt64).toNat + before.length * tabs.stride < 2 ^ 64 := by omega
  obtain ⟨hle, hmost⟩ := foldl_columnAfter_bounds (Nat.le_of_eq hone.symm) hroom
  exact ⟨by omega, by omega⟩

theorem one_le_column : 1 ≤ (column tabs line).toNat :=
  (column_room h (List.append_nil _).symm).1

/-- Nothing wraps around while the column is counted. -/
theorem column_unwrapped {before after : List Char} {rune : Char}
    (hrunes : Utf8.runes line = before ++ rune :: after) :
    Unwrapped tabs (before.foldl (columnAfter tabs) 1) rune := by
  obtain ⟨hpos, hroom⟩ := column_room h hrunes
  rw [List.length_cons, Nat.succ_mul] at hroom
  exact (columnAfter_bounds hpos (by omega) rune).1

/-- The column at a cut of a line is not behind the column at its end. -/
theorem column_take_le (k : Nat) : column tabs (line.take k) ≤ column tabs line := by
  obtain ⟨front, back, hrunes, hcut⟩ := exists_column_take tabs line k
  obtain ⟨hpos, hroom⟩ := column_room h hrunes
  rw [UInt64.le_iff_toNat_le, hcut, column, hrunes, List.foldl_append]
  exact (foldl_columnAfter_bounds hpos hroom).1

end Line

end LineCursor

/-! ## The order of positions -/

namespace Bytes

theorem lineBreaks_le_append (text more : Bytes) : lineBreaks text ≤ lineBreaks (text ++ more) := by
  induction more using List.reverseRecOn with
  | nil => rw [List.append_nil]
  | append_singleton more b ih =>
    rw [← List.append_assoc, lineBreaks_concat]
    omega

theorem lastLine_of_return {text : Bytes} (h : text.getLastD 0 = 0x0D) : lastLine text = [] := by
  cases text using List.reverseRecOn with
  | nil => rfl
  | append_singleton text b =>
    rw [List.getLastD_concat] at h
    rw [lastLine_concat, h]
    rfl

/-- Bytes without a line break go on with the line. They may complete a line break, and then there
is nothing on the line before them. -/
theorem lastLine_prefix_append {text more : Bytes}
    (h : lineBreaks (text ++ more) = lineBreaks text) :
    lastLine text <+: lastLine (text ++ more) := by
  induction more using List.reverseRecOn with
  | nil => exact (List.append_nil text).symm ▸ List.prefix_rfl
  | append_singleton more b ih =>
    have hle := lineBreaks_le_append text more
    rw [← List.append_assoc, lineBreaks_concat] at h
    have hline := ih (by omega)
    rw [← List.append_assoc, lastLine_concat]
    cases hends : endsLine b with
    | false => exact hline.trans (List.prefix_append _ _)
    | true =>
      have hnone : ¬(b = 0x0D ∨ b = 0x0A ∧ (text ++ more).getLastD 0 ≠ 0x0D) := fun hbreak => by
        rw [if_pos hbreak] at h
        omega
      have hreturn : (text ++ more).getLastD 0 = 0x0D := by
        simp only [endsLine, Bool.or_eq_true, beq_iff_eq] at hends
        by_contra hlast
        exact hnone (hends.imp_right fun hfeed => ⟨hfeed, hlast⟩)
      rwa [lastLine_of_return hreturn] at hline

end Bytes

namespace Position

variable {tabs : TabStops} {text : Bytes} (h : 1 + text.length * tabs.stride < 2 ^ 64)

include h

theorem length_lt_of_strides : text.length + 1 < UInt64.size := by
  have hone : 1 ≤ tabs.stride := Nat.le_max_left ..
  have hle := Nat.mul_le_mul_left text.length hone
  have hsize : UInt64.size = 2 ^ 64 := rfl
  omega

theorem lastLine_room (m : Nat) :
    1 + (Bytes.lastLine (text.take m)).length * tabs.stride < 2 ^ 64 := by
  have hline : (Bytes.lastLine (text.take m)).length ≤ text.length :=
    (List.rtakeWhile_suffix _ _).length_le.trans (List.length_take_le' m text)
  have hle := Nat.mul_le_mul_right tabs.stride hline
  omega

/-- Later offsets have no earlier positions. -/
theorem of_le_of {i j : Nat} (hij : i ≤ j) : Position.of tabs text i ≤ Position.of tabs text j := by
  have hlength := length_lt_of_strides h
  have hi := toNat_line_of tabs hlength i
  have hj := toNat_line_of tabs hlength j
  obtain ⟨more, hmore⟩ : text.take (min i text.length) <+: text.take (min j text.length) :=
    List.take_prefix_take_left (by omega)
  have hbreaks := Bytes.lineBreaks_le_append (text.take (min i text.length)) more
  rw [hmore] at hbreaks
  rintro (hline | ⟨hline, hcolumn⟩)
  · rw [UInt64.lt_iff_toNat_lt] at hline
    omega
  · -- on one line the bytes before the one offset are the first bytes before the other
    rw [← UInt64.toNat_inj] at hline
    have hsame : Bytes.lineBreaks (text.take (min i text.length) ++ more) =
        Bytes.lineBreaks (text.take (min i text.length)) := by
      rw [hmore]
      omega
    have hfront := Bytes.lastLine_prefix_append hsame
    rw [hmore] at hfront
    have hle := LineCursor.column_take_le (lastLine_room h (min j text.length))
      (Bytes.lastLine (text.take (min i text.length))).length
    rw [← List.prefix_iff_eq_take.1 hfront] at hle
    exact UInt64.not_lt.2 hle hcolumn

theorem one_le_of (i : Nat) :
    1 ≤ (Position.of tabs text i).line ∧ 1 ≤ (Position.of tabs text i).column := by
  have hline := toNat_line_of tabs (length_lt_of_strides h) i
  rw [UInt64.le_iff_toNat_le, UInt64.le_iff_toNat_le, UInt64.toNat_one, hline]
  exact ⟨Nat.le_add_right .., LineCursor.one_le_column (lastLine_room h _)⟩

end Position

end ShiftReduce
