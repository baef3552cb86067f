import ShiftReduce.Lexer.Tokens
import ShiftReduce.Reducer.Callback

/-!
# Parsing text

The tokens of a text go to the reducer one by one as they are pulled, so an error of the lexer finds
the reducer as the tokens before it left it. The lexer and the reducer run in two scenes side by
side, each with its own callers' state.
-/

namespace ShiftReduce

variable {τ ω ν σ : Type}

abbrev ParseScene (τ ω ν : Type) := Scene Bool ω × Scene (Reducer τ) ν

def parseText (lexer : Lexer (Action (Scene Bool ω)) τ)
    (e : Engine (Action (Scene (Reducer τ) ν)) τ) (text : Bytes) :
    Action (ParseScene τ ω ν) (Option (Tree τ)) := do
  Action.onSecond e.reset
  let _ ← Stream.collectTokens (β := Unit) (fun stream => Action.onFirst (stream.nextToken lexer))
    (fun token => Action.onSecond do discard (e.push token); pure []) (.ofText text)
  Action.onSecond e.finish

/-- Parses a text with a reducer of its own, which is dropped afterwards. -/
def CallbackEngine.parseTextApart (e : CallbackEngine σ τ)
    (lexer : Lexer (Action (Scene Bool ω)) τ) (text : Bytes) :
    Action (ParseScene τ ω σ) (Option (Tree τ)) :=
  Action.onPart (fun (lexing, world) => (lexing, { subject := {}, world }))
    (fun (lexing, scene) _ => (lexing, scene.world)) (parseText lexer e.apart text)

end ShiftReduce
