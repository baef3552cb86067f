import ShiftReduce.Source.Position
import ShiftReduce.Source.TabStops
import ShiftReduce.Text.Utf8

/-!
# Lines and columns

A line ends at a carriage return, at a line feed, or at the two together. A column counts the runes
between the start of the line and the place in question, one column each, tabs excepted.

`LineCursor` keeps the line structure of the part of a text that was looked at last, so that asking
for places in increasing order reads each byte once; a place before the cursor starts over from the
head of the text. What was asked before never shows in an answer.
-/

namespace ShiftReduce

/-- The line structure of the first `index` bytes of a text: the number of the line that the next
byte is on, the offset of that line's first byte, and the last byte (zero when there is none). -/
structure LineCursor where
  index : Nat := 0
  lineStart : Nat := 0
  line : UInt64 := 1
  last : UInt8 := 0
deriving DecidableEq, Repr

namespace LineCursor

/-- Moves over one byte. A line feed right after a carriage return only moves the start of the line
that the carriage return began. -/
def step (c : LineCursor) (b : UInt8) : LineCursor :=
  let moved := { c with index := c.index + 1, last := b }
  if b = 0x0D ∨ b = 0x0A ∧ c.last ≠ 0x0D then
    { moved with line := c.line + 1, lineStart := c.index + 1 }
  else if b = 0x0A then { moved with lineStart := c.index + 1 }
  else moved

/-- Moves to an offset of the text the cursor is on. -/
def seek (c : LineCursor) (text : Bytes) (index : Nat) : LineCursor :=
  let c := if index < c.index then {} else c
  ((text.drop c.index).take (index - c.index)).foldl step c

def columnAfter (tabs : TabStops) (column : UInt64) (rune : Char) : UInt64 :=
  if rune = '\t' then tabs.advance column else column + 1

def column (tabs : TabStops) (line : Bytes) : UInt64 :=
  (Utf8.runes line).foldl (columnAfter tabs) 1

/-- The position of an offset, and the cursor moved there. An offset past the end of the text
counts as its end. -/
def positionAt (c : LineCursor) (tabs : TabStops) (text : Bytes) (index : Nat) :
    Position × LineCursor :=
  let index := min index text.length
  let c := c.seek text index
  let line := (text.drop c.lineStart).take (index - c.lineStart)
  ({ line := c.line, column := column tabs line }, c)

end LineCursor

end ShiftReduce
