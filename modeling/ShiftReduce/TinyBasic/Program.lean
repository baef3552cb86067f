import ShiftReduce.Parse
import ShiftReduce.TinyBasic.Token

/-!
# Programs

A program is parsed line by line: the reducer is finished at every newline token. Tokens after the
last newline are a line too; the newline that ends it is supplied.
-/

namespace ShiftReduce.TinyBasic

variable {ω ν : Type}

/-- Pushes a token and, if it ends a line, finishes the line. -/
def pushToken (e : Engine (Action (Scene (Reducer Token) ν)) Token) (token : Token) :
    Action (Scene (Reducer Token) ν) (List (Option (Tree Token))) := do
  discard (e.push token)
  if token.isNewline then return [← e.finish] else return []

/-- Ends the last line if it is not ended yet. -/
def endProgram (e : Engine (Action (Scene (Reducer Token) ν)) Token) :
    Action (Scene (Reducer Token) ν) (List (Option (Tree Token))) := do
  if (← Engine.reducer).depth = 0 then return [] else pushToken e .newline

/-- The lines of a program; none for a line that has no result. -/
def parseProgram (lexer : Lexer (Action (Scene Bool ω)) Token)
    (e : Engine (Action (Scene (Reducer Token) ν)) Token) (text : Bytes) :
    Action (ParseScene Token ω ν) (List (Option (Tree Token))) := do
  Action.onSecond e.reset
  let lines ← Stream.collectTokens (fun stream => Action.onFirst (stream.nextToken lexer))
    (fun token => Action.onSecond (pushToken e token)) (.ofText text)
  let last ← Action.onSecond (endProgram e)
  return lines ++ last

end ShiftReduce.TinyBasic
