import SchemaCodec.CommandLine.Run

/-!
The program as it is started: it reads the files that its arguments name, and writes what is left
behind.
-/

namespace SchemaCodec

/-- What is found at a path. A file that cannot be opened counts as missing. -/
def readFileState (path : String) : IO FileState := do
  try
    match String.fromUTF8? (← IO.FS.readBinFile path) with
    | some content => return .text content
    | none => return .unreadable
  catch _ => return .missing

end SchemaCodec

open SchemaCodec in
def main (arguments : List String) : IO UInt32 := do
  let found ← (CommandLine.filesNamed arguments).mapM fun path => do
    return (path, ← readFileState path)
  let input ← if CommandLine.readsStandardInput arguments
    then (← IO.getStdin).readToEnd
    else pure ""
  let files : Files := fun path => (found.lookup path).getD .missing
  let ending := CommandLine.run arguments ⟨files, input⟩
  (← IO.getStdout).putStr ending.standardOutput
  (← IO.getStderr).putStr ending.standardError
  return ending.code.toUInt32
