import ShiftReduce.Text.Bytes

/-!
# Input sources

Bytes that are still to be read, with the three conditions a source can be in: its end was met
(`ended`), a read found less than it asked for (`failed`), the device broke (`broken`). A source in
any of them reads nothing more. `readAll` takes everything that is left and counts finding nothing
as a failure.
-/

namespace ShiftReduce

structure Input where
  rest : Bytes
  ended : Bool := false
  failed : Bool := false
  broken : Bool := false
deriving DecidableEq, Repr

namespace Input

/-- A source that can be read from. -/
def ready (input : Input) : Bool := !(input.ended || input.failed || input.broken)

/-- The source reports a failure: a read fell short or the device broke. -/
def reportsFailure (input : Input) : Bool := input.failed || input.broken

/-- Forgets every condition; the bytes left stay as they are. -/
def clear (input : Input) : Input := { rest := input.rest }

/-- Discards exactly `n` bytes. Too few of them is an end and a failure. -/
def skip (n : Nat) (input : Input) : Input :=
  if !input.ready then { input with failed := true }
  else if n ≤ input.rest.length then { input with rest := input.rest.drop n }
  else { input with rest := [], ended := true, failed := true }

/-- Everything that is left. A source that is not ready yields nothing and fails; one that has
nothing left is at its end and fails. -/
def readAll (input : Input) : Bytes × Input :=
  if !input.ready then ([], { input with failed := true })
  else (input.rest, { input with rest := [], ended := true, failed := input.rest.isEmpty })

end Input

end ShiftReduce
