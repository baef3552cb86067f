import ShiftReduce.Lexer.Stream

/-!
# Iterating over a stream

An iterator holds the item pulled last. Once a pull has delivered nothing it leaves its stream, and
then it is at the end. Moving it pulls; a pull that ends in an error leaves it where it was.
-/

namespace ShiftReduce

structure Iterator (τ : Type) where
  onStream : Bool := false
  current : Option (Item τ) := none
deriving DecidableEq, Repr

/-- What moving an iterator comes to: a result or an error, and the iterator and its stream after
it. -/
structure Move (τ α : Type) where
  result : Except Error α
  iterator : Iterator τ
  stream : Stream

namespace Iterator

variable {τ ω : Type}

def atEnd : Iterator τ := {}

/-- Iterators are equal if they are on the same stream, so one that is on none equals the end. -/
def isAtEnd (it : Iterator τ) : Bool := !it.onStream

/-- What there is to look at before the end. -/
def item? (it : Iterator τ) : Option (Item τ) := if it.isAtEnd then none else it.current

def advance (lexer : Lexer (Action (Scene Bool ω)) τ) (it : Iterator τ) (stream : Stream) :
    StateM (Scene Bool ω) (Move τ Unit) := do
  let p ← stream.next lexer
  match p.result with
  | .ok current =>
    let onStream := if current.isNone then false else it.onStream
    pure { result := .ok (), iterator := { onStream, current }, stream := p.stream }
  | .error error => pure { result := .error error, iterator := it, stream := p.stream }

/-- Pulls the next item and returns the one that was held before. -/
def postAdvance (lexer : Lexer (Action (Scene Bool ω)) τ) (it : Iterator τ) (stream : Stream) :
    StateM (Scene Bool ω) (Move τ (Option (Item τ))) := do
  let move ← it.advance lexer stream
  pure { move with result := move.result.map fun _ => it.current }

/-- An iterator that is made pulls at once. If that ends in an error there is no iterator, and the
end stands for it. -/
def start (lexer : Lexer (Action (Scene Bool ω)) τ) (stream : Stream) :
    StateM (Scene Bool ω) (Move τ Unit) := do
  let move ← ({ onStream := true } : Iterator τ).advance lexer stream
  match move.result with
  | .ok _ => pure move
  | .error _ => pure { move with iterator := atEnd }

/-- The items from an iterator on, moving it at most `n` times. -/
def itemsWithin (lexer : Lexer (Action (Scene Bool ω)) τ) :
    Nat → Move τ Unit → StateM (Scene Bool ω) (Move τ (List (Item τ)))
  | 0, move => pure { move with result := move.result.map fun _ => [] }
  | n + 1, move =>
    match move.result, move.iterator.item? with
    | .error error, _ => pure { move with result := .error error }
    | .ok _, none => pure { move with result := .ok [] }
    | .ok _, some item => do
      let rest ← itemsWithin lexer n (← move.iterator.advance lexer move.stream)
      pure { rest with result := rest.result.map (item :: ·) }

def items (lexer : Lexer (Action (Scene Bool ω)) τ) (stream : Stream) :
    StateM (Scene Bool ω) (Move τ (List (Item τ))) := do
  itemsWithin lexer stream.pullBound (← start lexer stream)

end Iterator

end ShiftReduce
