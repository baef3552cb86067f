import ShiftReduce.Lexer.Recognizer
import ShiftReduce.TinyBasic.Token

/-!
# The lexer of Tiny BASIC

Strings, keywords, punctuation marks, numbers, variables and line feeds, asked in this order.
Anything else, such as a blank, is skipped. Letters may be of either case.
-/

namespace ShiftReduce.TinyBasic

def Token.ofLetter (b : UInt8) : Token := .var (Fin.ofNat 26 (Ascii.toUpper b - 0x41).toNat)

def lexer : Lexer Id Token where
  recognizers := [
    Recognizer.quoted Token.string,
    Recognizer.keyword (Keyword.all.map fun word => (word.name, .keyword word)),
    Recognizer.character (Punctuator.all.map fun mark => (mark.byte, .punctuator mark)),
    Recognizer.integer .unsigned64 fun value => .number (UInt64.ofNat value),
    Recognizer.byteClass Ascii.isAlpha Token.ofLetter,
    Recognizer.character [(Bytes.lineFeed, Token.newline)]]

end ShiftReduce.TinyBasic
