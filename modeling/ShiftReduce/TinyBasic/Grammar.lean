import ShiftReduce.Grammar.Basic
import ShiftReduce.TinyBasic.Token
import ShiftReduce.Tree.Printer

/-!
# The grammar of Tiny BASIC

A line is a number, a statement and a newline. A statement is one of

* `PRINT` and a string, `INPUT` and a variable, `GOTO` or `GOSUB` and a number,
* `LET`, a variable, an equals sign and a number,
* `RETURN`, `CLEAR`, `LIST`, `RUN` or `END` alone,
* a statement, a comma and a string or a variable.
-/

namespace ShiftReduce.TinyBasic

structure LineGrammar where
  line : Symbol
  statement : Symbol
  grammar : Grammar Id Token

namespace LineGrammar

def word (k : Keyword) : Schema Id Token := .terminal fun t => t == .keyword k

def mark (p : Punctuator) : Schema Id Token := .terminal fun t => t == .punctuator p

def lineRule (line statement : Symbol) : Rule Id Token :=
  { symbol := line
    schemas := [.terminal Token.isNumber, .nonterminal statement, .terminal Token.isNewline] }

/-- The right-hand sides of statements, in order of priority. -/
def statementSchemas (statement : Symbol) : List (List (Schema Id Token)) := [
  [word .print, .terminal Token.isString],
  [.nonterminal statement, mark .comma, .terminal Token.isString],
  [.nonterminal statement, mark .comma, .terminal Token.isVar],
  [word .input, .terminal Token.isVar],
  [word .goto, .terminal Token.isNumber],
  [word .gosub, .terminal Token.isNumber],
  [word .let, .terminal Token.isVar, mark .equals, .terminal Token.isNumber],
  [word .return],
  [word .clear],
  [word .list],
  [word .run],
  [word .end]]

/-- The grammar over two symbols of a generator. -/
def create (g : Generator) : LineGrammar :=
  let (line, g) := g.issue
  let (statement, g) := g.issue
  { line
    statement
    grammar := {
      generator := g
      defaultRule := lineRule line statement
      others := (statementSchemas statement).map fun schemas => { symbol := statement, schemas } } }

def nameOf (g : LineGrammar) (symbol : Symbol) : Bytes :=
  if symbol = g.line then .ofAscii "line"
  else if symbol = g.statement then .ofAscii "statement"
  else .ofAscii "symbol"

/-- The text of a tree, with symbols and tokens named. -/
def print (g : LineGrammar) (t : Tree Token) : Bytes := t.print Token.describe g.nameOf

end LineGrammar

end ShiftReduce.TinyBasic
