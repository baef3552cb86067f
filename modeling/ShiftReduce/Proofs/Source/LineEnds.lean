import ShiftReduce.Proofs.Source.Lines

/-!
# Line ends

A text whose lines end in line feeds can be written with another line end in the place of each of
them (`LineEnd.rewrite`). The line breaks are as many then, and the line that the text ends in is the
same, since a carriage return begins a line and a line feed right behind it does not begin another
one. So every place of the text keeps its position (`LineEnd.position_offset`).
-/

namespace ShiftReduce

/-- A text without carriage returns does not end in one. -/
theorem Bytes.getLastD_ne_return {text : Bytes} (h : 0x0D ∉ text) : text.getLastD 0 ≠ 0x0D := by
  cases text using List.reverseRecOn with
  | nil => decide
  | append_singleton text b =>
    rw [List.mem_append, List.mem_singleton, not_or] at h
    rw [List.getLastD_concat]
    exact h.2 ∘ Eq.symm

/-- How a line can end, other than in a line feed. -/
inductive LineEnd where
  | returnFeed | «return»
deriving DecidableEq, Repr

namespace LineEnd

def bytes : LineEnd → Bytes
  | returnFeed => [0x0D, 0x0A]
  | «return» => [0x0D]

variable (lineEnd : LineEnd)

/-- What is written for a byte: the line end for a line feed, any other byte for itself. -/
def image (b : UInt8) : Bytes := if b = 0x0A then lineEnd.bytes else [b]

/-- The text with every line feed replaced by the line end. -/
def rewrite (text : Bytes) : Bytes := text.flatMap lineEnd.image

/-- The offset in the rewritten text at which the image of the byte at an offset begins. -/
def offset (text : Bytes) (index : Nat) : Nat := (lineEnd.rewrite (text.take index)).length

theorem rewrite_take_append_drop (text : Bytes) (index : Nat) :
    lineEnd.rewrite (text.take index) ++ lineEnd.rewrite (text.drop index) =
      lineEnd.rewrite text := by
  rw [rewrite, rewrite, rewrite, ← List.flatMap_append, List.take_append_drop]

theorem drop_offset (text : Bytes) (index : Nat) :
    (lineEnd.rewrite text).drop (lineEnd.offset text index) =
      lineEnd.rewrite (text.drop index) := by
  rw [← lineEnd.rewrite_take_append_drop text index, offset, List.drop_left]

theorem take_offset (text : Bytes) (index : Nat) :
    (lineEnd.rewrite text).take (lineEnd.offset text index) =
      lineEnd.rewrite (text.take index) := by
  rw [← lineEnd.rewrite_take_append_drop text index, offset, List.take_left]

theorem offset_le (text : Bytes) (index : Nat) :
    lineEnd.offset text index ≤ (lineEnd.rewrite text).length := by
  rw [← lineEnd.rewrite_take_append_drop text index, List.length_append]
  exact Nat.le_add_right ..

/-- A line end behind any text is one line break, and there is nothing on the line behind it. -/
theorem lines_append_bytes (text : Bytes) :
    Bytes.lineBreaks (text ++ lineEnd.bytes) = Bytes.lineBreaks text + 1 ∧
      Bytes.lastLine (text ++ lineEnd.bytes) = [] := by
  have hreturn : Bytes.lineBreaks (text ++ [0x0D]) = Bytes.lineBreaks text + 1 := by
    rw [Bytes.lineBreaks_concat, if_pos (.inl rfl)]
  cases lineEnd with
  | «return» => exact ⟨hreturn, Bytes.lastLine_concat text 0x0D⟩
  | returnFeed =>
    -- the line feed finds the carriage return before it
    have hlast : (text ++ [0x0D]).getLastD 0 = 0x0D := List.getLastD_concat
    have hnone : ¬((0x0A : UInt8) = 0x0D ∨
        (0x0A : UInt8) = 0x0A ∧ (text ++ [0x0D]).getLastD 0 ≠ 0x0D) := by
      rw [hlast]
      decide
    have hsplit : text ++ bytes .returnFeed = text ++ [0x0D] ++ [0x0A] := by
      rw [List.append_assoc]
      rfl
    rw [hsplit, Bytes.lineBreaks_concat, if_neg hnone, hreturn, Bytes.lastLine_concat]
    exact ⟨rfl, rfl⟩

/-- With other line ends a text has as many line breaks, and ends in the same line. -/
theorem lines_rewrite {text : Bytes} (h : 0x0D ∉ text) :
    Bytes.lineBreaks (lineEnd.rewrite text) = Bytes.lineBreaks text ∧
      Bytes.lastLine (lineEnd.rewrite text) = Bytes.lastLine text := by
  induction text using List.reverseRecOn with
  | nil => exact ⟨rfl, rfl⟩
  | append_singleton text b ih =>
    rw [List.mem_append, List.mem_singleton, not_or] at h
    obtain ⟨htext, hb⟩ := h
    obtain ⟨hbreaks, hline⟩ := ih htext
    have hrewrite : lineEnd.rewrite (text ++ [b]) = lineEnd.rewrite text ++ lineEnd.image b := by
      rw [rewrite, List.flatMap_append, List.flatMap_singleton, rewrite]
    rw [hrewrite, Bytes.lineBreaks_concat, Bytes.lastLine_concat]
    by_cases hfeed : b = 0x0A
    · have hlast := Bytes.getLastD_ne_return htext
      obtain ⟨hmore, hnothing⟩ := lineEnd.lines_append_bytes (lineEnd.rewrite text)
      rw [image, if_pos hfeed, hmore, hnothing, hbreaks, if_pos (.inr ⟨hfeed, hlast⟩), hfeed]
      exact ⟨rfl, rfl⟩
    · have hnone (last : UInt8) : ¬(b = 0x0D ∨ b = 0x0A ∧ last ≠ 0x0D) := by
        rintro (hreturn | ⟨hfeed', -⟩)
        · exact hb hreturn.symm
        · exact hfeed hfeed'
      rw [image, if_neg hfeed, Bytes.lineBreaks_concat, Bytes.lastLine_concat, hbreaks, hline,
        if_neg (hnone _), if_neg (hnone _)]
      exact ⟨rfl, rfl⟩

/-- The positions of a text are those of the same places with other line ends. -/
theorem position_offset (tabs : TabStops) {text : Bytes} (h : 0x0D ∉ text) (index : Nat) :
    Position.of tabs (lineEnd.rewrite text) (lineEnd.offset text index) =
      Position.of tabs text index := by
  have hbefore : 0x0D ∉ text.take index := fun hmem => h (List.mem_of_mem_take hmem)
  obtain ⟨hbreaks, hline⟩ := lineEnd.lines_rewrite hbefore
  rw [Position.of, Position.of, Nat.min_eq_left (lineEnd.offset_le text index),
    lineEnd.take_offset, hbreaks, hline, List.take_eq_take_min]

end LineEnd

end ShiftReduce
