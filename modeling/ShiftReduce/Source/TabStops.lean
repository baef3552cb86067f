/-!
# Tab stops

A tab moves on by `width` columns and then back to the last column that is one more than a multiple
of `alignment`, but never back behind the column it started from. An alignment of zero means one
(`withAlignment`), so the remainder is always taken by a number that is not zero.
-/

namespace ShiftReduce

structure TabStops where
  width : UInt32 := 8
  alignment : UInt32 := 8
  alignment_ne_zero : alignment ≠ 0 := by decide
deriving DecidableEq, Repr

namespace TabStops

/-- A tab stop every eight columns. -/
def standard : TabStops := {}

def withWidth (tabs : TabStops) (width : UInt32) : TabStops := { tabs with width }

/-- Sets the alignment; zero is taken as one. -/
def withAlignment (tabs : TabStops) (alignment : UInt32) : TabStops :=
  if h : alignment = 0 then { tabs with alignment := 1, alignment_ne_zero := by decide }
  else { tabs with alignment, alignment_ne_zero := h }

/-- The column after a tab that starts in `column`. -/
def advance (tabs : TabStops) (column : UInt64) : UInt64 :=
  let far := column + tabs.width.toUInt64
  let aligned := far - (far - 1) % tabs.alignment.toUInt64
  max (min far aligned) column

end TabStops

end ShiftReduce
