import ShiftReduce.Action
import ShiftReduce.Lexer.Basic
import ShiftReduce.Source.LineCursor

/-!
# Token streams

A stream is a text with the place lexing has reached in it. Each pull (`Stream.next`) offers the
rest of the text to the lexer, skips a byte as long as everything is ignored, and delivers one item;
after a diagnostic, an error or the end of the text there is nothing more.

All streams of a lexer share one flag, the subject of the scene they run in, which is up while one
of them is being pulled. A pull that finds the flag up is refused before it touches its stream; a
pull takes the flag down again however it ends.
-/

namespace ShiftReduce

/-- Whether a stream goes on, has come to its end, or ended with a diagnostic. -/
inductive Phase where
  | streaming | done | failed
deriving DecidableEq, Repr

structure Stream where
  text : Bytes
  index : Nat := 0
  lastRange : Range := {}
  phase : Phase := .streaming
  cursor : LineCursor := {}
deriving DecidableEq, Repr

/-- What a pull comes to: an item, nothing more, or an error; and the stream after it. -/
structure Pull (τ : Type) where
  result : Except Error (Option (Item τ))
  stream : Stream

namespace Stream

variable {τ ω : Type} {m : Type → Type}

def ofText (text : Bytes) : Stream := { text }

def remaining (s : Stream) : Bytes := s.text.drop s.index

/-- A number of pulls that uses up any stream: each delivers a token of at least one byte, ends the
stream, or finds it ended. -/
def pullBound (s : Stream) : Nat := s.text.length + 1

/-- The stream delivers nothing more. -/
def isDone (s : Stream) : Bool := s.phase != .streaming

def isFailed (s : Stream) : Bool := s.phase == .failed

/-- The position of an offset of the text, and the stream with its line cursor moved there. -/
def positionAt (s : Stream) (tabs : TabStops) (index : Nat) : Position × Stream :=
  let (position, cursor) := s.cursor.positionAt tabs s.text index
  (position, { s with cursor })

/-- Offers the text that starts at `index` to the lexer, and as long as it is ignored the text that
starts one byte later. Ends with the offset where something else happened and with what that was;
`ignored` means the end of the text. -/
def skipIgnored (lexer : Lexer (Action (Scene Bool ω)) τ) (index : Nat) :
    Bytes → StateM (Scene Bool ω) (Nat × Except Error (Outcome τ))
  | [] => pure (index, .ok .ignored)
  | b :: rest => do
    match ← (lexer.recognize (b :: rest)).attempt with
    | .ok .ignored => skipIgnored lexer (index + 1) rest
    | decision => pure (index, decision)

/-- The stream after a decision about the text at `index`, and what it delivers. -/
def settle (s : Stream) (tabs : TabStops) (index : Nat) : Except Error (Outcome τ) → Pull τ
  | .ok (.success token remainder) =>
    match remainder.consumedFrom (s.text.drop index) with
    | .ok n =>
      let stream := { s with index := index + n, lastRange := { index, size := n } }
      { result := .ok (some (.token token)), stream }
    | .error error => { result := .error error, stream := { s with index, phase := .done } }
  | .ok .ignored => { result := .ok none, stream := { s with index, phase := .done } }
  | .ok (.failed message) =>
    let (position, s) := s.positionAt tabs index
    { result := .ok (some (.diagnostic { message, index, position }))
      stream := { s with index, phase := .failed } }
  | .error error => { result := .error error, stream := { s with index, phase := .done } }

/-- Raises the lexer's flag for the time of a pull; refuses it if the flag is up already. -/
def exclusively (s : Stream) (pull : StateM (Scene Bool ω) (Pull τ)) :
    StateM (Scene Bool ω) (Pull τ) := fun scene =>
  if scene.subject then ({ result := .error .lexerReentered, stream := s }, scene)
  else
    let (p, scene) := pull { scene with subject := true }
    (p, { scene with subject := false })

/-- While the flag is up a pull is refused and changes neither the stream nor the scene. -/
theorem exclusively_of_raised (s : Stream) (pull : StateM (Scene Bool ω) (Pull τ))
    {scene : Scene Bool ω} (h : scene.subject = true) :
    (s.exclusively pull).run scene =
      ({ result := .error .lexerReentered, stream := s }, scene) :=
  if_pos h

/-- While the flag is down a pull is performed, and it leaves the flag down. -/
theorem exclusively_of_lowered (s : Stream) (pull : StateM (Scene Bool ω) (Pull τ))
    {scene : Scene Bool ω} (h : scene.subject = false) :
    (s.exclusively pull).run scene =
      ((pull.run { scene with subject := true }).1,
        { (pull.run { scene with subject := true }).2 with subject := false }) :=
  if_neg (by simp [h])

def next (lexer : Lexer (Action (Scene Bool ω)) τ) (s : Stream) : StateM (Scene Bool ω) (Pull τ) :=
  if s.isDone then pure { result := .ok none, stream := s }
  else s.exclusively do
    let (index, decision) ← skipIgnored lexer s.index s.remaining
    pure (s.settle lexer.tabs index decision)

end Stream

end ShiftReduce
