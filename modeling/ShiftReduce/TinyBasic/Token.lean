import ShiftReduce.Text.Bytes

/-!
# Tokens of Tiny BASIC

Keywords, the variables `A` to `Z`, numbers of 64 bits, strings, single punctuation marks and the
end of a line.
-/

namespace ShiftReduce.TinyBasic

inductive Keyword where
  | print | «if» | «then» | goto | input | «let» | gosub | «return» | clear | list | run | «end»
deriving DecidableEq, Repr

namespace Keyword

def all : List Keyword :=
  [print, «if», «then», goto, input, «let», gosub, «return», clear, list, run, «end»]

def name : Keyword → Bytes
  | print => .ofAscii "PRINT"
  | «if» => .ofAscii "IF"
  | «then» => .ofAscii "THEN"
  | goto => .ofAscii "GOTO"
  | input => .ofAscii "INPUT"
  | «let» => .ofAscii "LET"
  | gosub => .ofAscii "GOSUB"
  | «return» => .ofAscii "RETURN"
  | clear => .ofAscii "CLEAR"
  | list => .ofAscii "LIST"
  | run => .ofAscii "RUN"
  | «end» => .ofAscii "END"

end Keyword

inductive Punctuator where
  | less | greater | equals | plus | minus | times | divide | comma
deriving DecidableEq, Repr

namespace Punctuator

def all : List Punctuator := [less, greater, equals, plus, minus, times, divide, comma]

/-- The byte it is written with: `<`, `>`, `=`, `+`, `-`, `*`, `/` and `,`. -/
def byte : Punctuator → UInt8
  | less => 0x3C
  | greater => 0x3E
  | equals => 0x3D
  | plus => 0x2B
  | minus => 0x2D
  | times => 0x2A
  | divide => 0x2F
  | comma => 0x2C

end Punctuator

inductive Token where
  | keyword (word : Keyword)
  | var (letter : Fin 26)
  | number (value : UInt64)
  | string (text : Bytes)
  | punctuator (mark : Punctuator)
  | newline
deriving DecidableEq, Repr

namespace Token

def isVar : Token → Bool
  | var _ => true
  | _ => false

def isNumber : Token → Bool
  | number _ => true
  | _ => false

def isString : Token → Bool
  | string _ => true
  | _ => false

def isNewline : Token → Bool
  | newline => true
  | _ => false

section Kinds

variable {token : Token}

theorem isNumber_iff : token.isNumber = true ↔ ∃ value, token = .number value := by
  cases token <;> simp [isNumber]

theorem isString_iff : token.isString = true ↔ ∃ text, token = .string text := by
  cases token <;> simp [isString]

theorem isVar_iff : token.isVar = true ↔ ∃ letter, token = .var letter := by
  cases token <;> simp [isVar]

theorem isNewline_iff : token.isNewline = true ↔ token = .newline := by
  cases token <;> simp [isNewline]

end Kinds

def letterByte (letter : Fin 26) : UInt8 := 0x41 + UInt8.ofNat letter.val

/-- A token as it is shown in trees and traces: its kind, and in brackets what it holds. -/
def describe : Token → Bytes
  | keyword word => .ofAscii "KEYWORD(" ++ word.name ++ .ofAscii ")"
  | var letter => .ofAscii "VAR(" ++ [letterByte letter] ++ .ofAscii ")"
  | number value => .ofAscii "NUMBER(" ++ Bytes.decimal value.toNat ++ .ofAscii ")"
  | string text => .ofAscii "STRING(\"" ++ text ++ .ofAscii "\")"
  | punctuator mark => .ofAscii "SYMBOL(" ++ [mark.byte] ++ .ofAscii ")"
  | newline => .ofAscii "NEWLINE"

end Token

end ShiftReduce.TinyBasic
