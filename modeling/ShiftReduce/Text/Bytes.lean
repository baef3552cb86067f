/-!
# Byte strings

Source text, tokens and messages are lists of bytes: every index and every size counts bytes, and
no text has to be well-formed in any encoding. Fixed wording is written as ASCII
(`Bytes.ofAscii`), and numbers are written in decimal without leading zeros (`Bytes.decimal`).
-/

namespace ShiftReduce

abbrev Bytes := List UInt8

namespace Bytes

/-- The bytes of a text that holds ASCII characters only. -/
def ofAscii (s : String) : Bytes := s.toList.map fun c => UInt8.ofNat c.toNat

def digit (d : Nat) : UInt8 := 0x30 + UInt8.ofNat d

/-- The decimal numeral of a number: no sign, no leading zero, `0` for zero. -/
def decimal (n : Nat) : Bytes :=
  if n < 10 then [digit n] else decimal (n / 10) ++ [digit (n % 10)]

/-- The bytes before the first zero byte, which ends a text wherever its length is not known. -/
def beforeZero (s : Bytes) : Bytes := s.takeWhile (· != 0)

/-- The byte of a line feed, which ends a printed line. -/
def lineFeed : UInt8 := 0x0A

def line (s : Bytes) : Bytes := s ++ [lineFeed]

end Bytes

end ShiftReduce
