import ShiftReduce.TinyBasic.CommandLine

/-!
# The program

Reads the source that the arguments name and writes the report.
-/

open ShiftReduce ShiftReduce.TinyBasic

/-- Everything that is left in a stream, after what was read before. -/
partial def readToEnd (stream : IO.FS.Stream) (before : ByteArray := .empty) : IO ByteArray := do
  let chunk ← stream.read 65536
  if chunk.isEmpty then return before else readToEnd stream (before ++ chunk)

def openSource : CommandLine.Source → IO Opening
  | .standardInput => return .opened { rest := (← readToEnd (← IO.getStdin)).toList }
  | .file name => do
    let some path := String.fromUTF8? ⟨name.toArray⟩ | return .missing
    try
      return .opened { rest := (← IO.FS.readBinFile path).toList }
    catch
      | .inappropriateType .. => return .directory
      | _ => return .missing

def main (arguments : List String) : IO UInt32 := do
  let report ← CommandLine.respond openSource
    (arguments.map fun argument => argument.toUTF8.toList)
  (← IO.getStdout).write ⟨report.output.toArray⟩
  (← IO.getStderr).write ⟨report.errors.toArray⟩
  return report.status
