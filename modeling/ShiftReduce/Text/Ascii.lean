import ShiftReduce.Text.Bytes

/-!
# ASCII letters and digits

The byte classes that recognizers are made of. They know ASCII only: a byte above `0x7F` is neither
a letter nor a digit and has no other case. `spanEnd` measures the run of bytes of one class that
starts at an offset; it is the only scanning loop of the recognizers.
-/

namespace ShiftReduce.Ascii

def isUpper (b : UInt8) : Bool := 0x41 ≤ b && b ≤ 0x5A

def isLower (b : UInt8) : Bool := 0x61 ≤ b && b ≤ 0x7A

def isAlpha (b : UInt8) : Bool := isUpper b || isLower b

def isDigit (b : UInt8) : Bool := 0x30 ≤ b && b ≤ 0x39

def isAlnum (b : UInt8) : Bool := isAlpha b || isDigit b

/-- The upper-case form of a letter; any other byte is its own. -/
def toUpper (b : UInt8) : UInt8 := if isLower b then b - 0x20 else b

/-- Equality up to the case of letters. -/
def equalFold (x y : Bytes) : Bool := x.map toUpper == y.map toUpper

/-- The offset at which the run of `p`-bytes that starts at `first` ends. An offset past the end of
the text is its own answer. -/
def spanEnd (p : UInt8 → Bool) (s : Bytes) (first : Nat := 0) : Nat :=
  first + ((s.drop first).takeWhile p).length

theorem spanEnd_le {p : UInt8 → Bool} {s : Bytes} {first : Nat} (h : first ≤ s.length) :
    spanEnd p s first ≤ s.length := by
  have := (List.takeWhile_prefix (l := s.drop first) p).length_le
  simp only [List.length_drop] at this
  simp only [spanEnd]
  omega

/-- The run that starts at the head of a text. -/
theorem take_spanEnd (p : UInt8 → Bool) (s : Bytes) : s.take (spanEnd p s) = s.takeWhile p := by
  rw [spanEnd, List.drop_zero, Nat.zero_add]
  exact (List.prefix_iff_eq_take.1 (List.takeWhile_prefix p)).symm

theorem spanEnd_eq_length (p : UInt8 → Bool) (s : Bytes) : spanEnd p s = (s.takeWhile p).length := by
  rw [spanEnd, List.drop_zero, Nat.zero_add]

end ShiftReduce.Ascii
