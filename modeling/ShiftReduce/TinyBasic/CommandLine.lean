import ShiftReduce.Reducer.Trace
import ShiftReduce.Text.FileSystem
import ShiftReduce.TinyBasic.Grammar
import ShiftReduce.TinyBasic.Lexer
import ShiftReduce.TinyBasic.Program

/-!
# The command line

Reads a program from a file or from the standard input and prints the trees of its lines. Lines that
are no statement, and everything that goes wrong, are reported on the error output, and the status
is then one. With tracing on, every step of the reducer is logged there as well.

The whole of it is a function of the arguments and of a way to open a source (`respond`), such as a
file system and the bytes on the standard input (`respondIn`).
-/

namespace ShiftReduce.TinyBasic.CommandLine

inductive Source where
  | standardInput
  | file (name : Bytes)
deriving DecidableEq, Repr

def Source.name : Source → Bytes
  | standardInput => .ofAscii "-"
  | file name => name

structure Options where
  source : Source := .standardInput
  trace : Bool := false
deriving DecidableEq, Repr

inductive Request where
  | help
  | run (options : Options)
  | refuse (argument : Bytes)
deriving DecidableEq, Repr

/-- What is written to the two outputs, and the exit status. -/
structure Report where
  status : UInt32 := 0
  output : Bytes := []
  errors : Bytes := []
deriving DecidableEq, Repr

/-- Reads the arguments in order. A request for help and an unknown option end the reading; the
last file named is the one that counts, and `-` stands for the standard input. -/
def Request.ofArguments (options : Options) : List Bytes → Request
  | [] => .run options
  | argument :: arguments =>
    if argument = .ofAscii "-h" ∨ argument = .ofAscii "--help" then .help
    else if argument = .ofAscii "-t" ∨ argument = .ofAscii "--trace" then
      ofArguments { options with trace := true } arguments
    else if argument = .ofAscii "-" then
      ofArguments { options with source := .standardInput } arguments
    else if argument.head? = some 0x2D then .refuse argument
    else ofArguments { options with source := .file argument } arguments

def usage : Bytes :=
  Bytes.line (.ofAscii "Usage: sred-basic [options] [file|-]") ++
  Bytes.line (.ofAscii "Options:") ++
  Bytes.line (.ofAscii "  -t, --trace       Log shifts and reductions to stderr") ++
  Bytes.line (.ofAscii "  -h, --help        Show this help") ++
  Bytes.line (.ofAscii "If no file is specified, reads from stdin.")

/-- The report of a run that went wrong, after what was logged. -/
def failure (log message : Bytes) : Report :=
  { status := 1, errors := log ++ Bytes.line (.ofAscii "ERROR: " ++ message) }

def traceLine (g : LineGrammar) : Event Token → Bytes
  | .reset => Bytes.line (.ofAscii "reset")
  | .shift token depth =>
    Bytes.line (.ofAscii "shift  " ++ token.describe ++ shownDepth depth)
  | .reduce lhs node depth =>
    Bytes.line (.ofAscii "reduce " ++ g.nameOf lhs ++ .ofAscii " <- " ++
      Bytes.decimal node.arity ++ .ofAscii " element(s)" ++ shownDepth depth)
  | .finish result residue _ =>
    Bytes.line (.ofAscii "finish " ++ .ofAscii (if result.isSome then "tree" else "nothing") ++
      .ofAscii ", " ++ Bytes.decimal residue ++ .ofAscii " left over")
where
  shownDepth (depth : Nat) : Bytes :=
    .ofAscii " (depth " ++ Bytes.decimal depth ++ .ofAscii ")"

/-- Hooks that keep a log, one entry for each event. -/
def tracing (g : LineGrammar) :
    Hooks (Action (Scene (Reducer Token) (Array Bytes))) Token :=
  .observing fun event =>
    modify fun scene => { scene with world := scene.world.push (traceLine g event) }

/-- The message about a line that is no statement. -/
def notStatement (number : Nat) : Bytes :=
  Bytes.line (.ofAscii "line " ++ Bytes.decimal number ++ .ofAscii ": not a statement")

/-- The report of the lines of a program, counted from one. -/
def reportLines (g : LineGrammar) (log : Bytes) (lines : List (Option (Tree Token))) : Report :=
  let missing (entry : Option (Tree Token) × Nat) : Bytes :=
    match entry with
    | (some _, _) => []
    | (none, k) => notStatement (k + 1)
  { status := if lines.all Option.isSome then 0 else 1
    output := lines.flatMap fun line => (line.map g.print).getD []
    errors := log ++ lines.zipIdx.flatMap missing }

def lineGrammar : LineGrammar := .create { scope := 0 }

/-- The reducer that parses the program, with a log of its steps or without. -/
def engine (trace : Bool) : Engine (Action (Scene (Reducer Token) (Array Bytes))) Token :=
  { grammar := lineGrammar.grammar.lift, hooks := if trace then tracing lineGrammar else .none }

/-- The reducer is strict, and the log is empty at first. -/
def start : ParseScene Token Unit (Array Bytes) :=
  ({ subject := false, world := () }, { subject := { policy := .strict }, world := #[] })

def run (trace : Bool) (text : Bytes) : Report :=
  let (result, (_, scene)) := (parseProgram lexer.lift (engine trace) text).run start
  let log := scene.world.toList.flatten
  match result with
  | .ok lines => reportLines lineGrammar log lines
  | .error (.lexical complaint) => failure log complaint.render
  | .error error => failure log error.message

/-- What the program does when it is called with arguments. -/
def respond {m : Type → Type} [Monad m] (openSource : Source → m Opening)
    (arguments : List Bytes) : m Report := do
  match Request.ofArguments {} arguments with
  | .help => return { output := usage }
  | .refuse argument => return failure [] (.ofAscii "Unknown option: " ++ argument)
  | .run options =>
    match ← openSource options.source with
    | .opened input => return run options.trace input.readAll.1
    | .directory =>
      return failure []
        (.ofAscii "basic_filebuf::underflow error reading the file: Is a directory")
    | .missing => return failure [] (.ofAscii "Failed to open file: " ++ options.source.name)

/-- What the program does in a file system, with the given bytes on the standard input. A zero byte
ends an argument. -/
def respondIn (files : FileSystem) (standardInput : Bytes) (arguments : List Bytes) : Report :=
  let openSource : Source → Id Opening
    | .standardInput => pure (.opened { rest := standardInput })
    | .file name => pure (files.openPath name)
  (respond openSource (arguments.map Bytes.beforeZero)).run

end ShiftReduce.TinyBasic.CommandLine
