import ShiftReduce.Callback
import ShiftReduce.Lexer.Stream

/-!
# Recognizers that pull

A recognizer may hold a stream on its own lexer and pull it. During a pull such a call meets the
raised flag and is refused, so the recognizers that would answer it are never asked
(`CallbackLexer.refusing`). A recognizer that is asked outside of any pull finds the flag down; its
call is an ordinary pull.
-/

namespace ShiftReduce

/-- A lexer whose recognizers have a state of type `σ` and can pull streams on it. -/
abbrev CallbackLexer (σ τ : Type) := Lexer (Callback σ Stream fun _ => Pull τ) τ

namespace CallbackLexer

variable {σ τ : Type}

/-- The lexer as a pull from within a pull sees it: asking it is refused. -/
def refusing (lexer : CallbackLexer σ τ) : Lexer (Action (Scene Bool σ)) τ :=
  lexer.map fun _ => throw .lexerReentered

/-- The lexer as a pull runs it. -/
def duringPull (lexer : CallbackLexer σ τ) : Lexer (Action (Scene Bool σ)) τ :=
  lexer.map (Callback.run fun stream => stream.next lexer.refusing)

/-- The lexer as it is asked outside of any pull. -/
def outsidePull (lexer : CallbackLexer σ τ) : Lexer (Action (Scene Bool σ)) τ :=
  lexer.map (Callback.run fun stream => stream.next lexer.duringPull)

end CallbackLexer

end ShiftReduce
