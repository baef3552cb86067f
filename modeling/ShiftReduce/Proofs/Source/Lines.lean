import Mathlib.Data.List.DropRight
import ShiftReduce.Source.LineCursor

/-!
# Positions without a cursor

`Position.of` is the position of an offset as a reader would count it: one line more than there are
line breaks in the bytes before it, and the column by the runes of the line that those bytes end in.
It knows the text and the tab stops and nothing else.

A cursor is on a text if it holds the line structure of the bytes before it (`LineCursor.ofPrefix`).
Moving over a byte keeps that (`LineCursor.step_ofPrefix`), also between a carriage return and its
line feed, where the last byte is what tells the cursor that the line has begun already. So a cursor
answers the position, wherever on the text it was before (`LineCursor.positionAt_ofPrefix`).

A line feed ends a line whatever comes behind it, so two texts of which the first ends in one have
the line breaks of both, and the columns of the second are its own (`Position.of_append`).
-/

namespace ShiftReduce

namespace Bytes

/-- A byte that ends a line, be it alone or together with the one before. -/
def endsLine (b : UInt8) : Bool := b == 0x0D || b == 0x0A

/-- The bytes after the last byte that ends a line. -/
def lastLine (text : Bytes) : Bytes := text.rtakeWhile fun b => !endsLine b

/-- At the offset there is a line feed, and not right behind a carriage return. -/
def feedsAt (text : Bytes) (i : Nat) : Bool :=
  text[i]? = some 0x0A ∧ ¬(0 < i ∧ text[i - 1]? = some 0x0D)

/-- The number of line breaks: the carriage returns, and the line feeds that are not right behind a
carriage return. -/
def lineBreaks (text : Bytes) : Nat :=
  text.count 0x0D + (List.range text.length).countP (feedsAt text)

theorem drop_eq_lastLine (text : Bytes) :
    text.drop (text.length - (lastLine text).length) = lastLine text :=
  (List.suffix_iff_eq_drop.1 (List.rtakeWhile_suffix _ text)).symm

theorem lastLine_concat (text : Bytes) (b : UInt8) :
    lastLine (text ++ [b]) = if endsLine b then [] else lastLine text ++ [b] := by
  rw [lastLine, List.rtakeWhile_concat]
  cases endsLine b <;> rfl

theorem feedsAt_append {text : Bytes} {i : Nat} (hi : i < text.length) (more : Bytes) :
    feedsAt (text ++ more) i = feedsAt text i := by
  simp only [feedsAt, List.getElem?_append_left hi,
    List.getElem?_append_left (show i - 1 < text.length by omega)]

/-- A line feed behind a text begins a line unless the text ends with a carriage return. -/
theorem feedsAt_concat (text : Bytes) (b : UInt8) :
    feedsAt (text ++ [b]) text.length = true ↔ b = 0x0A ∧ text.getLastD 0 ≠ 0x0D := by
  have hlast : text.getLastD 0 = 0x0D ↔
      0 < text.length ∧ (text ++ [b])[text.length - 1]? = some 0x0D := by
    cases text using List.reverseRecOn with
    | nil => simp
    | append_singleton text c => simp
  rw [feedsAt, decide_eq_true_iff, List.getElem?_concat_length, Option.some_inj, ne_eq, hlast]

/-- One more byte is one more line break if it is a carriage return, or a line feed that is not
right behind one. -/
theorem lineBreaks_concat (text : Bytes) (b : UInt8) :
    lineBreaks (text ++ [b]) =
      lineBreaks text + if b = 0x0D ∨ b = 0x0A ∧ text.getLastD 0 ≠ 0x0D then 1 else 0 := by
  have hbefore : (List.range text.length).countP (feedsAt (text ++ [b])) =
      (List.range text.length).countP (feedsAt text) :=
    List.countP_congr fun i hi => by rw [feedsAt_append (List.mem_range.1 hi)]
  simp only [lineBreaks, List.length_append, List.length_singleton, List.range_succ,
    List.countP_append, hbefore, List.count_append, List.countP_singleton, List.count_singleton,
    beq_iff_eq, feedsAt_concat]
  by_cases hreturn : b = 0x0D
  · subst hreturn
    rw [if_pos rfl, if_neg fun h => absurd h.1 (by decide), if_pos (.inl rfl)]
    omega
  · simp only [hreturn, false_or, if_false]
    omega

theorem lineBreaks_le_length (text : Bytes) : lineBreaks text ≤ text.length := by
  induction text using List.reverseRecOn with
  | nil => exact Nat.le_refl _
  | append_singleton text b ih =>
    rw [lineBreaks_concat, List.length_append, List.length_singleton]
    split <;> omega

/-! ### Behind a line feed -/

section LineFeed

variable {text : Bytes} (h : text.getLast? = some lineFeed)

include h

/-- A line feed is no carriage return, and so is the start of a text. -/
theorem getLastD_append_eq_return_iff (more : Bytes) :
    (text ++ more).getLastD 0 = 0x0D ↔ more.getLastD 0 = 0x0D := by
  cases more using List.reverseRecOn with
  | nil =>
    rw [List.append_nil, List.getLastD_eq_getLast?, h]
    decide
  | append_singleton more b =>
    rw [← List.append_assoc, List.getLastD_concat, List.getLastD_concat]

theorem lineBreaks_append (more : Bytes) :
    lineBreaks (text ++ more) = lineBreaks text + lineBreaks more := by
  induction more using List.reverseRecOn with
  | nil => rw [List.append_nil, show lineBreaks [] = 0 from rfl, Nat.add_zero]
  | append_singleton more b ih =>
    simp only [← List.append_assoc, lineBreaks_concat, ih, ne_eq,
      getLastD_append_eq_return_iff h more, Nat.add_assoc]

theorem lastLine_append (more : Bytes) : lastLine (text ++ more) = lastLine more := by
  induction more using List.reverseRecOn with
  | nil =>
    obtain ⟨before, rfl⟩ := List.getLast?_eq_some_iff.1 h
    rw [List.append_nil, lastLine_concat]
    rfl
  | append_singleton more b ih => rw [← List.append_assoc, lastLine_concat, lastLine_concat, ih]

end LineFeed

end Bytes

/-- The position of an offset, from the text and the tab stops alone. An offset past the end of the
text counts as its end. -/
def Position.of (tabs : TabStops) (text : Bytes) (index : Nat) : Position :=
  let before := text.take (min index text.length)
  { line := .ofNat (1 + Bytes.lineBreaks before)
    column := LineCursor.column tabs (Bytes.lastLine before) }

/-- The line number does not wrap around in a text that can be indexed. -/
theorem Position.toNat_line_of (tabs : TabStops) {text : Bytes}
    (h : text.length + 1 < UInt64.size) (index : Nat) :
    (Position.of tabs text index).line.toNat =
      1 + Bytes.lineBreaks (text.take (min index text.length)) := by
  have hbreaks := Bytes.lineBreaks_le_length (text.take (min index text.length))
  rw [List.length_take] at hbreaks
  exact UInt64.toNat_ofNat_of_lt' (by omega)

/-- Behind a text that ends in a line feed there are more lines, and the columns are the same. -/
theorem Position.of_append (tabs : TabStops) {text : Bytes}
    (h : text.getLast? = some Bytes.lineFeed) (more : Bytes) (index : Nat) :
    Position.of tabs (text ++ more) (text.length + index) =
      { line := (Position.of tabs more index).line + .ofNat (Bytes.lineBreaks text)
        column := (Position.of tabs more index).column } := by
  have hbefore : (text ++ more).take (min (text.length + index) (text ++ more).length) =
      text ++ more.take (min index more.length) := by
    rw [List.length_append, Nat.add_min_add_left, List.take_length_add_append]
  have hline : UInt64.ofNat (1 + Bytes.lineBreaks (text ++ more.take (min index more.length))) =
      .ofNat (1 + Bytes.lineBreaks (more.take (min index more.length))) +
        .ofNat (Bytes.lineBreaks text) := by
    rw [← UInt64.ofNat_add, Bytes.lineBreaks_append h, Nat.add_comm (Bytes.lineBreaks text),
      Nat.add_assoc]
  simp only [Position.of, hbefore, hline, Bytes.lastLine_append h]

namespace LineCursor

/-- The cursor behind some bytes: their line structure. -/
def ofPrefix (before : Bytes) : LineCursor where
  index := before.length
  lineStart := before.length - (Bytes.lastLine before).length
  line := .ofNat (1 + Bytes.lineBreaks before)
  last := before.getLastD 0

theorem step_ofPrefix (before : Bytes) (b : UInt8) :
    (ofPrefix before).step b = ofPrefix (before ++ [b]) := by
  have hline : UInt64.ofNat (1 + (Bytes.lineBreaks before + 1)) =
      .ofNat (1 + Bytes.lineBreaks before) + 1 := by
    rw [← Nat.add_assoc, UInt64.ofNat_add]
    rfl
  unfold ofPrefix step
  simp only [Bytes.lineBreaks_concat, Bytes.lastLine_concat, List.length_append,
    List.length_singleton, List.getLastD_concat]
  by_cases hbreak : b = 0x0D ∨ b = 0x0A ∧ before.getLastD 0 ≠ 0x0D
  · have hends : Bytes.endsLine b = true := by
      rcases hbreak with rfl | ⟨rfl, -⟩ <;> rfl
    simp only [if_pos hbreak, hends, if_true, hline, List.length_nil, Nat.sub_zero]
  · rw [if_neg hbreak, if_neg hbreak]
    -- a line feed that is no line break still moves the start of the line
    by_cases hfeed : b = 0x0A
    · have hends : Bytes.endsLine b = true := by rw [hfeed]; rfl
      simp only [if_pos hfeed, hends, if_true, Nat.add_zero, List.length_nil, Nat.sub_zero]
    · have hends : Bytes.endsLine b = false := by
        simp only [Bytes.endsLine, Bool.or_eq_false_iff, beq_eq_false_iff_ne]
        exact ⟨fun h => hbreak (.inl h), hfeed⟩
      simp only [if_neg hfeed, hends, Bool.false_eq_true, if_false, Nat.add_zero,
        List.length_append, List.length_singleton, Nat.add_sub_add_right]

theorem foldl_step_ofPrefix (before bytes : Bytes) :
    bytes.foldl step (ofPrefix before) = ofPrefix (before ++ bytes) := by
  induction bytes generalizing before with
  | nil => rw [List.foldl_nil, List.append_nil]
  | cons b bytes ih =>
    rw [List.foldl_cons, step_ofPrefix, ih, List.append_assoc, List.singleton_append]

/-- Wherever on a text a cursor is, forwards or backwards it gets to the same place. -/
theorem seek_ofPrefix (text : Bytes) (k : Nat) {index : Nat} (h : index ≤ text.length) :
    (ofPrefix (text.take k)).seek text index = ofPrefix (text.take index) := by
  have hforwards : ∀ before, before <+: text → before.length ≤ index →
      ((text.drop (ofPrefix before).index).take (index - (ofPrefix before).index)).foldl step
        (ofPrefix before) = ofPrefix (text.take index) := by
    rintro before ⟨bytes, rfl⟩ hle
    have hindex : (ofPrefix before).index = before.length := rfl
    rw [hindex, List.drop_left, foldl_step_ofPrefix, List.take_append, List.take_of_length_le hle]
  unfold seek
  split
  · -- the cursor starts over: it is where no byte comes before it
    exact hforwards [] List.nil_prefix (Nat.zero_le _)
  · rename_i hle
    exact hforwards _ (List.take_prefix k text) (Nat.le_of_not_lt hle)

/-- The line that a cursor is on, up to the cursor. -/
theorem line_ofPrefix (text : Bytes) (m : Nat) :
    let lineStart := (ofPrefix (text.take m)).lineStart
    (text.drop lineStart).take (m - lineStart) = Bytes.lastLine (text.take m) := by
  intro lineStart
  rw [← List.drop_take]
  exact Bytes.drop_eq_lastLine (text.take m)

theorem positionAt_ofPrefix (tabs : TabStops) (text : Bytes) (k index : Nat) :
    (ofPrefix (text.take k)).positionAt tabs text index =
      (.of tabs text index, ofPrefix (text.take (min index text.length))) := by
  have hle : min index text.length ≤ text.length := Nat.min_le_right ..
  simp only [positionAt, seek_ofPrefix text k hle, line_ofPrefix]
  rfl

end LineCursor

end ShiftReduce
