import ShiftReduce.Action
import ShiftReduce.Lexer.Basic

/-!
# Building lexers

A builder collects recognizers in the order in which they are to be asked. What is added may be
missing, which is refused (`badRecognizer`). `build` hands the recognizers over and leaves the
builder without any; the tab settings stay.
-/

namespace ShiftReduce

/-- A lexer under construction. The tab alignment is kept as it was given; `build` makes it fit. -/
structure LexerBuilder (m : Type → Type) (τ : Type) where
  recognizers : List (Recognizer m τ) := []
  tabWidth : UInt32 := 8
  tabAlignment : UInt32 := 8

namespace LexerBuilder

variable {m : Type → Type} {τ : Type}

def size (builder : LexerBuilder m τ) : Nat := builder.recognizers.length

def add : Option (Recognizer m τ) → Action (LexerBuilder m τ) Unit
  | none => throw .badRecognizer
  | some recognizer =>
    modify fun builder => { builder with recognizers := builder.recognizers ++ [recognizer] }

/-- Appends recognizers one by one. Those before a missing one stay appended. -/
def addAll : List (Option (Recognizer m τ)) → Action (LexerBuilder m τ) Unit
  | [] => pure ()
  | recognizer :: others => do
    add recognizer
    addAll others

/-- The lexer that was built up, and the builder emptied for the next one. -/
def build (builder : LexerBuilder m τ) : Lexer m τ × LexerBuilder m τ :=
  let tabs := TabStops.standard.withWidth builder.tabWidth |>.withAlignment builder.tabAlignment
  ({ recognizers := builder.recognizers, tabs }, { builder with recognizers := [] })

end LexerBuilder

end ShiftReduce
