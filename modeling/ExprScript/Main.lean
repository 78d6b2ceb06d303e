import ExprScript.CommandLine

/-!
# The program

Reads files and lines and prints reports.  What is printed is decided in
`ExprScript.CommandLine`; this module only asks for it at the right moment, so
that an interactive session answers each line as it is entered.
-/

namespace ExprScript.Main

/-- The bytes up to and including the next line feed, or up to the end. -/
partial def readLine (input : IO.FS.Stream) (line : ByteArray) : IO ByteArray := do
  let bytes ← input.read 1
  if bytes.isEmpty then
    return line
  else
    let line := line ++ bytes
    if bytes[0]? = some 10 then return line else readLine input line

def printReport (report : CommandLine.Report) : IO UInt32 := do
  (← IO.getStdout).putStr report.stdout
  (← IO.getStderr).putStr report.stderr
  return report.code.toUInt32

/-- Answers lines until the input ends. -/
partial def interact (ast : Bool) (s : Session) : IO UInt32 := do
  let output ← IO.getStdout
  output.putStr CommandLine.prompt
  output.flush
  let bytes ← readLine (← IO.getStdin) .empty
  if bytes.isEmpty then
    return 0
  else
    match CommandLine.decode bytes.toList with
    | none =>
      (← IO.getStderr).putStr CommandLine.invalidInput
      return 1
    | some line =>
      let (out, err, s) := CommandLine.respond ast s line
      output.putStr out
      (← IO.getStderr).putStr err
      interact ast s

def contents (path : String) : IO (Option (List UInt8)) := do
  try
    return some (← IO.FS.readBinFile path).toList
  catch _ =>
    return none

end ExprScript.Main

open ExprScript in
def main (arguments : List String) : IO UInt32 := do
  match CommandLine.Request.ofArguments arguments with
  | .version => IO.print CommandLine.versionText; return 0
  | .help => IO.print CommandLine.helpText; return 0
  | .misuse argument => Main.printReport (CommandLine.misused argument)
  | .run ⟨_, ast, none⟩ => Main.interact ast .start
  | .run ⟨true, ast, some path⟩ =>
    Main.printReport (CommandLine.runFile ast path (← Main.contents path))
  | .run ⟨false, ast, some script⟩ => Main.printReport (CommandLine.runScript ast script)
