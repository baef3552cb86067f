import ShiftReduce.Source.Position

/-!
# Diagnostics

The complaint of a recognizer about the text, with the place where it was called.
-/

namespace ShiftReduce

structure Diagnostic where
  message : Bytes
  index : Nat
  position : Position
deriving DecidableEq, Repr

/-- A diagnostic is written `line:column: message`. -/
def Diagnostic.render (d : Diagnostic) : Bytes :=
  d.position.render ++ Bytes.ofAscii ": " ++ d.message

end ShiftReduce
