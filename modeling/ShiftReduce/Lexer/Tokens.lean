import ShiftReduce.Lexer.Stream

/-!
# Using up a stream

`drain` pulls until there is nothing more and reports every item with its range. `collectTokens`
hands the tokens on one by one, as they are pulled, and turns a diagnostic into an error;
`tokenize` collects the tokens themselves.

A pull that delivers a token moves the stream on, so the number of bytes of the text bounds the
number of tokens, and one more pull finds the end. The loops count down from there.
-/

namespace ShiftReduce

/-- What a stream delivered: the items with their ranges, the error that stopped it if there was
one, and the stream as it was left. -/
structure Drained (τ : Type) where
  items : List (Item τ × Range)
  error? : Option Error
  stream : Stream

namespace Stream

variable {τ ω s β : Type}

def drainWithin (lexer : Lexer (Action (Scene Bool ω)) τ) :
    Nat → Stream → StateM (Scene Bool ω) (Drained τ)
  | 0, stream => pure { items := [], error? := none, stream }
  | n + 1, stream => do
    let p ← stream.next lexer
    match p.result with
    | .error error => pure { items := [], error? := some error, stream := p.stream }
    | .ok none => pure { items := [], error? := none, stream := p.stream }
    | .ok (some item) =>
      let rest ← drainWithin lexer n p.stream
      pure { rest with items := (item, p.stream.lastRange) :: rest.items }

def drain (lexer : Lexer (Action (Scene Bool ω)) τ) (stream : Stream) :
    StateM (Scene Bool ω) (Drained τ) :=
  drainWithin lexer stream.pullBound stream

/-- The next token and the stream after it. A diagnostic is an error. -/
def nextToken (lexer : Lexer (Action (Scene Bool ω)) τ) (stream : Stream) :
    Action (Scene Bool ω) (Option (τ × Stream)) := do
  let p ← (stream.next lexer : StateM (Scene Bool ω) (Pull τ))
  match p.result with
  | .error error => throw error
  | .ok none => pure none
  | .ok (some (.diagnostic complaint)) => throw (.lexical complaint)
  | .ok (some (.token token)) => pure (some (token, p.stream))

/-- Uses at most `n` tokens. -/
def collectTokensWithin (pull : Stream → Action s (Option (τ × Stream)))
    (use : τ → Action s (List β)) : Nat → Stream → Action s (List β)
  | 0, _ => pure []
  | n + 1, stream => do
    match ← pull stream with
    | none => pure []
    | some (token, stream) =>
      let here ← use token
      let later ← collectTokensWithin pull use n stream
      pure (here ++ later)

/-- Hands each token of a stream to `use` before the next one is pulled, and joins what it
yields. -/
def collectTokens (pull : Stream → Action s (Option (τ × Stream)))
    (use : τ → Action s (List β)) (stream : Stream) : Action s (List β) :=
  collectTokensWithin pull use stream.pullBound stream

end Stream

def Lexer.tokenize {τ ω : Type} (lexer : Lexer (Action (Scene Bool ω)) τ) (text : Bytes) :
    Action (Scene Bool ω) (List τ) :=
  Stream.collectTokens (Stream.nextToken lexer) (fun token => pure [token]) (.ofText text)

end ShiftReduce
