import ShiftReduce.Text.Bytes

/-!
# Places in a source text

A `Position` is what a reader is shown, line and column counted from one; positions are ordered
line first. A `Range` is what the stream works with, the offset and the size of a run of bytes.
-/

namespace ShiftReduce

structure Position where
  line : UInt64
  column : UInt64
deriving DecidableEq, Repr

namespace Position

instance : LT Position where
  lt p q := p.line < q.line ∨ p.line = q.line ∧ p.column < q.column

instance : LE Position where
  le p q := ¬ q < p

instance (p q : Position) : Decidable (p < q) :=
  inferInstanceAs (Decidable (p.line < q.line ∨ p.line = q.line ∧ p.column < q.column))

instance (p q : Position) : Decidable (p ≤ q) := inferInstanceAs (Decidable (¬ q < p))

/-- A position is written `line:column`. -/
def render (p : Position) : Bytes :=
  Bytes.decimal p.line.toNat ++ Bytes.ofAscii ":" ++ Bytes.decimal p.column.toNat

end Position

/-- A run of bytes of a text: the offset of the first and their number. -/
structure Range where
  index : Nat := 0
  size : Nat := 0
deriving DecidableEq, Repr

end ShiftReduce
