import ShiftReduce.Lexer.Outcome
import ShiftReduce.Source.TabStops

/-!
# Lexers

A lexer is a list of recognizers and the tab stops that columns are counted with. The recognizers
are asked in order, and the first that does not ignore the input decides (`Lexer.recognize`).

Recognizers answer in a monad `m`: `Id` for those that only look at their input, the monad of
callbacks for those that do more. `Lexer.map` changes the monad.
-/

namespace ShiftReduce

/-- Looks at the head of a text. It is offered texts that are not empty. -/
abbrev Recognizer (m : Type → Type) (τ : Type) := Bytes → m (Outcome τ)

structure Lexer (m : Type → Type) (τ : Type) where
  recognizers : List (Recognizer m τ) := []
  tabs : TabStops := .standard

namespace Lexer

variable {m n : Type → Type} {τ : Type}

def size (lexer : Lexer m τ) : Nat := lexer.recognizers.length

def isEmpty (lexer : Lexer m τ) : Bool := lexer.recognizers.isEmpty

/-- The outcome of the first recognizer that does not ignore the input; no later one is asked. -/
def firstDecision [Monad m] (input : Bytes) : List (Recognizer m τ) → m (Outcome τ)
  | [] => pure .ignored
  | recognizer :: others => do
    match ← recognizer input with
    | .ignored => firstDecision input others
    | decision => pure decision

def recognize [Monad m] (lexer : Lexer m τ) (input : Bytes) : m (Outcome τ) :=
  firstDecision input lexer.recognizers

/-- The same lexer with its recognizers' answers carried to another monad. -/
def map (f : m (Outcome τ) → n (Outcome τ)) (lexer : Lexer m τ) : Lexer n τ :=
  { lexer with recognizers := lexer.recognizers.map fun recognizer input => f (recognizer input) }

/-- A lexer of recognizers that only look at their input, for use in any monad. -/
def lift [Pure m] (lexer : Lexer Id τ) : Lexer m τ :=
  lexer.map fun decision : Id (Outcome τ) => pure decision.run

end Lexer

end ShiftReduce
