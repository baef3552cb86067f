import ShiftReduce.Error

/-!
# Outcomes and items

A recognizer that is offered the rest of a text ignores it, fails with a message, or succeeds with a
token and a remainder. The remainder is a byte string that the recognizer is free to choose, so it
comes with the one fact about its place that matters, whether it ends where the input ends; only
`Remainder.consumedFrom` trusts it.

An item is what a stream delivers: a token, or the diagnostic that ends the stream.
-/

namespace ShiftReduce

/-- What a recognizer leaves over: the bytes, and whether they end where its input ends. -/
structure Remainder where
  text : Bytes
  reachesEnd : Bool
deriving DecidableEq, Repr

namespace Remainder

/-- The remainder of an input after its first `n` bytes. -/
def after (input : Bytes) (n : Nat) : Remainder := { text := input.drop n, reachesEnd := true }

/-- How many bytes of the input are consumed. An empty remainder leaves nothing, wherever it is; any
other has to be a suffix of the input, and shorter. -/
def consumedFrom (input : Bytes) (remainder : Remainder) : Except Error Nat :=
  if remainder.text.isEmpty then .ok input.length
  else if input.length < remainder.text.length ∨ remainder.reachesEnd = false then
    .error .badRemainder
  else if remainder.text.length = input.length then .error .stalledRecognizer
  else .ok (input.length - remainder.text.length)

/-- What is consumed of an input that is not empty is at least one byte and no more than the
input. -/
theorem consumedFrom_bounds {input : Bytes} {remainder : Remainder} {n : Nat} (h : input ≠ [])
    (hn : remainder.consumedFrom input = .ok n) : 0 < n ∧ n ≤ input.length := by
  have := List.length_pos_iff.2 h
  unfold consumedFrom at hn
  split at hn
  · cases hn; omega
  · rename_i h₁
    have := List.length_pos_iff.2 (mt List.isEmpty_iff.2 h₁)
    split at hn
    · cases hn
    · split at hn
      · cases hn
      · cases hn; omega

end Remainder

inductive Outcome (τ : Type) where
  | success (token : τ) (remainder : Remainder)
  | ignored
  | failed (message : Bytes)
deriving DecidableEq, Repr

namespace Outcome

variable {τ : Type}

def isSuccess : Outcome τ → Bool
  | success .. => true
  | _ => false

def isIgnored : Outcome τ → Bool
  | ignored => true
  | _ => false

def isFailed : Outcome τ → Bool
  | failed _ => true
  | _ => false

def token : Outcome τ → Except Error τ
  | success token _ => .ok token
  | _ => .error .badOutcomeAccess

def remainder : Outcome τ → Except Error Remainder
  | success _ remainder => .ok remainder
  | _ => .error .badOutcomeAccess

def message : Outcome τ → Except Error Bytes
  | failed message => .ok message
  | _ => .error .badOutcomeAccess

end Outcome

inductive Item (τ : Type) where
  | token (value : τ)
  | diagnostic (complaint : Diagnostic)
deriving DecidableEq, Repr

namespace Item

variable {τ : Type}

def hasToken : Item τ → Bool
  | .token _ => true
  | .diagnostic _ => false

def hasDiagnostic (item : Item τ) : Bool := !item.hasToken

def token? : Item τ → Except Error τ
  | .token value => .ok value
  | .diagnostic _ => .error .badItemAccess

def diagnostic? : Item τ → Except Error Diagnostic
  | .token _ => .error .badItemAccess
  | .diagnostic complaint => .ok complaint

end Item

end ShiftReduce
