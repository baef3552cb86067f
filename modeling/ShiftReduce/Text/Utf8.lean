import ShiftReduce.Text.Bytes

/-!
# UTF-8

`decode` takes one rune from the head of a byte string that need not be well-formed. It feeds the
bytes to an automaton: each byte has one of twelve classes (`byteClasses`), and the class and the
state give the next state (`transitions`). A state is the offset of its row in the table. The
automaton is in `accept` before a sequence and after it, and in `reject` when a sequence breaks off
or cannot be continued; overlong forms, surrogates and values above `U+10FFFF` are rejected.

A malformed sequence stands for the replacement rune: the offending byte goes with it, and so do the
continuation bytes after it (`isLead`). Every decoding step consumes at least one byte
(`decode_length_lt`), so a text is cut into `chunks`, each with its rune; `runes` lists the runes and
`count` their number.
-/

namespace ShiftReduce.Utf8

/-- The rune that stands for a malformed sequence, `U+FFFD`. -/
def replacement : Char := '\uFFFD'

/-- A byte at which a sequence may begin: any but the continuation bytes `0x80` to `0xBF`. -/
def isLead (b : UInt8) : Bool := b &&& 0xC0 != 0x80

/-- The state before a sequence and at its end. -/
def accept : UInt8 := 0

/-- The state after a byte that cannot continue the sequence. -/
def reject : UInt8 := 12

set_option maxRecDepth 1000 in
/-- The class of every byte. For a lead byte it is also how many of its high bits are not part of the
rune. -/
def byteClasses : Vector UInt8 256 :=
  #v[
     0,  0,  0,  0,  0,  0,  0,  0,  0,  0,  0,  0,  0,  0,  0,  0,
     0,  0,  0,  0,  0,  0,  0,  0,  0,  0,  0,  0,  0,  0,  0,  0,
     0,  0,  0,  0,  0,  0,  0,  0,  0,  0,  0,  0,  0,  0,  0,  0,
     0,  0,  0,  0,  0,  0,  0,  0,  0,  0,  0,  0,  0,  0,  0,  0,
     0,  0,  0,  0,  0,  0,  0,  0,  0,  0,  0,  0,  0,  0,  0,  0,
     0,  0,  0,  0,  0,  0,  0,  0,  0,  0,  0,  0,  0,  0,  0,  0,
     0,  0,  0,  0,  0,  0,  0,  0,  0,  0,  0,  0,  0,  0,  0,  0,
     0,  0,  0,  0,  0,  0,  0,  0,  0,  0,  0,  0,  0,  0,  0,  0,
     1,  1,  1,  1,  1,  1,  1,  1,  1,  1,  1,  1,  1,  1,  1,  1,
     9,  9,  9,  9,  9,  9,  9,  9,  9,  9,  9,  9,  9,  9,  9,  9,
     7,  7,  7,  7,  7,  7,  7,  7,  7,  7,  7,  7,  7,  7,  7,  7,
     7,  7,  7,  7,  7,  7,  7,  7,  7,  7,  7,  7,  7,  7,  7,  7,
     8,  8,  2,  2,  2,  2,  2,  2,  2,  2,  2,  2,  2,  2,  2,  2,
     2,  2,  2,  2,  2,  2,  2,  2,  2,  2,  2,  2,  2,  2,  2,  2,
    10,  3,  3,  3,  3,  3,  3,  3,  3,  3,  3,  3,  3,  4,  3,  3,
    11,  6,  6,  6,  5,  8,  8,  8,  8,  8,  8,  8,  8,  8,  8,  8]

/-- The next states: a row of twelve for every state, with an entry for every class. -/
def transitions : Array UInt8 :=
  #[
     0, 12, 24, 36, 60, 96, 84, 12, 12, 12, 48, 72,
    12, 12, 12, 12, 12, 12, 12, 12, 12, 12, 12, 12,
    12,  0, 12, 12, 12, 12, 12,  0, 12,  0, 12, 12,
    12, 24, 12, 12, 12, 12, 12, 24, 12, 24, 12, 12,
    12, 12, 12, 12, 12, 12, 12, 24, 12, 12, 12, 12,
    12, 24, 12, 12, 12, 12, 12, 12, 12, 24, 12, 12,
    12, 12, 12, 12, 12, 12, 12, 36, 12, 36, 12, 12,
    12, 36, 12, 12, 12, 12, 12, 36, 12, 36, 12, 12,
    12, 36, 12, 12, 12, 12, 12, 12, 12, 12, 12, 12]

def byteClass (b : UInt8) : UInt8 := byteClasses.get b.toFin

/-- The state after one more byte. -/
def nextState (state b : UInt8) : UInt8 :=
  transitions.getD (state.toNat + (byteClass b).toNat) reject

/-- The bits of the rune after one more byte: a lead byte begins anew with its own bits, a
continuation byte adds six. -/
def nextRune (rune : UInt32) (state b : UInt8) : UInt32 :=
  if state = accept then b.toUInt32 &&& ((0xFF : UInt32) >>> (byteClass b).toUInt32)
  else (b.toUInt32 &&& (0x3F : UInt32)) ||| (rune <<< (6 : UInt32))

/-- What the head of a byte string is: a sequence with its scalar value, or a malformed one; either
way with the bytes after those that were looked at. -/
inductive Scan where
  | rune (value : Nat) (rest : Bytes)
  | malformed (rest : Bytes)
deriving DecidableEq, Repr

/-- Feeds the automaton until it accepts or rejects. A sequence that breaks off is malformed. -/
def scanFrom (rune : UInt32) (state : UInt8) : Bytes → Scan
  | [] => .malformed []
  | b :: s =>
    let rune := nextRune rune state b
    let state := nextState state b
    if state = accept then .rune rune.toNat s
    else if state = reject then .malformed s
    else scanFrom rune state s

/-- Reads one sequence. The empty string is malformed. -/
def scan : Bytes → Scan := scanFrom 0 accept

/-- The first rune of a byte string and the bytes after it. After a malformed sequence decoding goes
on at the next lead byte. -/
def decode (s : Bytes) : Char × Bytes :=
  match scan s with
  | .rune value rest => (Char.ofNat value, rest)
  | .malformed rest => (replacement, rest.dropWhile fun b => !isLead b)

def Scan.rest : Scan → Bytes
  | .rune _ rest => rest
  | .malformed rest => rest

theorem scanFrom_rest_length_le (rune : UInt32) (state b : UInt8) (s : Bytes) :
    (scanFrom rune state (b :: s)).rest.length ≤ s.length := by
  induction s generalizing rune state b with
  | nil =>
    simp only [scanFrom]
    split
    · exact Nat.le_refl _
    · split <;> exact Nat.le_refl _
  | cons c s ih =>
    rw [scanFrom]
    split
    · exact Nat.le_refl _
    · split
      · exact Nat.le_refl _
      · exact Nat.le_succ_of_le (ih ..)

theorem decode_length_le (s : Bytes) : (decode s).2.length ≤ (scan s).rest.length := by
  simp only [decode]
  split <;> rename_i h <;> rw [h]
  · exact Nat.le_refl _
  · exact (List.dropWhile_suffix _).length_le

/-- A decoding step consumes at least one byte. -/
theorem decode_length_lt {s : Bytes} (h : s ≠ []) : (decode s).2.length < s.length := by
  cases s with
  | nil => exact absurd rfl h
  | cons b s =>
    have h₁ := decode_length_le (b :: s)
    have h₂ : (scan (b :: s)).rest.length ≤ s.length := scanFrom_rest_length_le 0 accept b s
    simp only [List.length_cons]
    omega

/-- A byte string cut up by decoding: each rune with the bytes it was read from. -/
def chunks : Bytes → List (Char × Bytes)
  | [] => []
  | b :: s =>
    let rest := (decode (b :: s)).2
    ((decode (b :: s)).1, (b :: s).take ((b :: s).length - rest.length)) :: chunks rest
termination_by s => s.length
decreasing_by exact decode_length_lt (List.cons_ne_nil b s)

/-- The runes of a byte string, one for every decoding step. -/
def runes (s : Bytes) : List Char := (chunks s).map Prod.fst

def count (s : Bytes) : Nat := (runes s).length

end ShiftReduce.Utf8
