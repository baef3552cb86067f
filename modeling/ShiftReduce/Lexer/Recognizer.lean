import ShiftReduce.Lexer.Basic
import ShiftReduce.Text.Ascii

/-!
# Stock recognizers

Words, identifiers, integers, quoted text, single bytes. They only look at their input, and each
leaves a proper suffix of it when it succeeds.
-/

namespace ShiftReduce.Recognizer

variable {τ : Type}

/-- One of a list of words, in any case of letters. The whole leading run of letters has to be the
word; the first entry that fits it decides. -/
def keyword (words : List (Bytes × τ)) : Recognizer Id τ := fun input =>
  let n := Ascii.spanEnd Ascii.isAlpha input
  if n = 0 then .ignored
  else
    match words.find? fun entry => Ascii.equalFold (input.take n) entry.1 with
    | some (_, token) => .success token (.after input n)
    | none => .ignored

/-- A letter and the letters and digits after it. -/
def identifier (make : Bytes → τ) : Recognizer Id τ := fun input =>
  match input with
  | [] => .ignored
  | first :: _ =>
    if Ascii.isAlpha first then
      let n := Ascii.spanEnd Ascii.isAlnum input 1
      .success (make (input.take n)) (.after input n)
    else .ignored

inductive IntegerType where
  | unsigned8 | signed8 | unsigned16 | signed16 | unsigned32 | signed32 | unsigned64 | signed64
deriving DecidableEq, Repr

def IntegerType.greatest : IntegerType → Nat
  | unsigned8 => UInt8.size - 1
  | signed8 => UInt8.size / 2 - 1
  | unsigned16 => UInt16.size - 1
  | signed16 => UInt16.size / 2 - 1
  | unsigned32 => UInt32.size - 1
  | signed32 => UInt32.size / 2 - 1
  | unsigned64 => UInt64.size - 1
  | signed64 => UInt64.size / 2 - 1

def IntegerType.isSigned : IntegerType → Bool
  | signed8 | signed16 | signed32 | signed64 => true
  | unsigned8 | unsigned16 | unsigned32 | unsigned64 => false

def IntegerType.least (type : IntegerType) : Int :=
  if type.isSigned then -(type.greatest + 1 : Int) else 0

/-- The value of a list of digits, most significant first. -/
def digitsValue (digits : Bytes) : Nat :=
  digits.foldl (fun value d => value * 10 + (d - 0x30).toNat) 0

/-- What a text begins with when it is read as a number: a number, one that the type does not hold,
or none. The first two say how many bytes are the number's. -/
inductive Numeral where
  | value (number : Int) (size : Nat)
  | outOfRange (size : Nat)
  | missing
deriving DecidableEq, Repr

/-- Reads a decimal number: as many digits as there are, and in front of them a minus if the type is
signed. -/
def IntegerType.read (type : IntegerType) (text : Bytes) : Numeral :=
  let negative := type.isSigned && text.head? == some 0x2D
  let digits := (text.drop negative.toNat).takeWhile Ascii.isDigit
  let number : Int := if negative then -digitsValue digits else digitsValue digits
  let size := negative.toNat + digits.length
  if digits.isEmpty then .missing
  else if type.least ≤ number ∧ number ≤ type.greatest then .value number size
  else .outOfRange size

/-- The whole leading run of digits, as a number of the given type. A value that the type does not
hold is a failure, also with zeros in front, and so is a run that is not a number from its first to
its last digit. -/
def integer (type : IntegerType) (make : Nat → τ) : Recognizer Id τ := fun input =>
  let n := Ascii.spanEnd Ascii.isDigit input
  if n = 0 then .ignored
  else
    let literal := input.take n
    match type.read literal with
    | .outOfRange _ => .failed (.ofAscii "integer literal out of range: " ++ literal)
    | .missing => .failed (.ofAscii "invalid integer literal: " ++ literal)
    | .value number size =>
      if size = n then .success (make number.toNat) (.after input n)
      else .failed (.ofAscii "invalid integer literal: " ++ literal)

/-- The text between two quote bytes, the quotes excluded. Nothing escapes a quote. -/
def quoted (make : Bytes → τ) (quote : UInt8 := 0x22) : Recognizer Id τ := fun input =>
  match input with
  | [] => .ignored
  | first :: text =>
    if first = quote then
      let content := text.takeWhile (· != quote)
      if content.length < text.length then
        .success (make content) (.after input (content.length + 2))
      else .failed (.ofAscii "unterminated string literal")
    else .ignored

/-- One byte of a table; the first entry for it decides. -/
def character (table : List (UInt8 × τ)) : Recognizer Id τ := fun input =>
  match input with
  | [] => .ignored
  | first :: _ =>
    match table.find? fun entry => entry.1 == first with
    | some (_, token) => .success token (.after input 1)
    | none => .ignored

def byteClass (accept : UInt8 → Bool) (make : UInt8 → τ) : Recognizer Id τ := fun input =>
  match input with
  | [] => .ignored
  | first :: _ =>
    if accept first then .success (make first) (.after input 1) else .ignored

end ShiftReduce.Recognizer
