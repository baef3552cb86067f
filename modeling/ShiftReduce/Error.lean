import ShiftReduce.Source.Diagnostic

/-!
# Errors

Everything that can go wrong, by cause. `lexical` is the fault of the source text, `raised` is
raised by the caller's own code, and the others are mistakes in how the library is used. Each has a
wording (`Error.wording`); what is reported of it ends before its first zero byte (`Error.message`).
-/

namespace ShiftReduce

inductive Error where
  /-- An outcome was asked for a part that it does not have. -/
  | badOutcomeAccess
  /-- A tree was asked for a part that it does not have. -/
  | badTreeAccess
  /-- A stream item was asked for a part that it does not have. -/
  | badItemAccess
  /-- A node was asked for a child that it does not have. -/
  | noSuchChild
  /-- A recognizer succeeded with a remainder that is no suffix of what it was offered. -/
  | badRemainder
  /-- A recognizer succeeded without consuming anything. -/
  | stalledRecognizer
  /-- A stream was pulled while another pull on the same lexer was under way. -/
  | lexerReentered
  /-- A reducer was used from inside one of its own callbacks. -/
  | reducerReentered
  /-- A lexer was given no recognizer where it needs one. -/
  | badRecognizer
  /-- A rule was given no predicate where it needs one. -/
  | badPredicate
  /-- The text could not be lexed. -/
  | lexical (diagnostic : Diagnostic)
  /-- The caller's code gave up. -/
  | raised (text : Bytes)
deriving DecidableEq, Repr

/-- The full wording of an error. -/
def Error.wording : Error → Bytes
  | badOutcomeAccess => .ofAscii "lexer outcome does not hold the requested alternative"
  | badTreeAccess => .ofAscii "parse tree does not hold the requested alternative"
  | badItemAccess => .ofAscii "token result does not hold the requested alternative"
  | noSuchChild => .ofAscii "parse tree has no child at the requested index"
  | badRemainder => .ofAscii "recognizer remainder is not a suffix of its input"
  | stalledRecognizer => .ofAscii "recognizer succeeded without consuming input"
  | lexerReentered => .ofAscii "token stream is non-reenterant"
  | reducerReentered => .ofAscii "reduction is non-reenterant"
  | badRecognizer => .ofAscii "null or invalid recognizer"
  | badPredicate => .ofAscii "null terminal predicate"
  | lexical diagnostic => diagnostic.render
  | raised text => text

/-- The wording of an error as it is reported. A zero byte, which only the text of others can bring
in, ends it. -/
def Error.message (error : Error) : Bytes := error.wording.beforeZero

end ShiftReduce
