import ShiftReduce.Text.Bytes

/-!
# Symbols

A symbol names a kind of node. It carries the scope of the generator that issued it and its number
there, so symbols of different generators differ. Symbols are ordered scope first.
-/

namespace ShiftReduce

structure Symbol where
  scope : UInt64
  sequence : UInt64
deriving DecidableEq, Repr

namespace Symbol

instance : LT Symbol where
  lt a b := a.scope < b.scope ∨ a.scope = b.scope ∧ a.sequence < b.sequence

instance : LE Symbol where
  le a b := ¬ b < a

instance (a b : Symbol) : Decidable (a < b) :=
  inferInstanceAs (Decidable (a.scope < b.scope ∨ a.scope = b.scope ∧ a.sequence < b.sequence))

instance (a b : Symbol) : Decidable (a ≤ b) := inferInstanceAs (Decidable (¬ b < a))

/-- A symbol is written `#scope.sequence`. -/
def render (a : Symbol) : Bytes :=
  .ofAscii "#" ++ Bytes.decimal a.scope.toNat ++ .ofAscii "." ++ Bytes.decimal a.sequence.toNat

/-- A number that mixes the two parts: the scope, shifted both ways and moved on by the golden ratio
of 64 bits, is folded into the sequence. -/
def digest (a : Symbol) : UInt64 :=
  let shifted := (a.scope <<< (6 : UInt64)) + (a.scope >>> (2 : UInt64))
  a.scope ^^^ (a.sequence + 0x9E3779B97F4A7C15 + shifted)

instance : Hashable Symbol where
  hash := digest

end Symbol

end ShiftReduce
