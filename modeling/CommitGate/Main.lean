import CommitGate.Dialogue

/-!
The command line. The process that starts this one runs the commands: for each it reads a request
from standard output and writes the answer to standard input. In the end the log goes to standard
error, the report to standard output, and the status says whether the commit may go on.
-/

namespace CommitGate.Main

def environment : IO Hook.Environment := do
  return ⟨(← IO.getEnv "COMMIT_GATE_PHP").map String.toList,
    (← IO.getEnv (String.ofList Log.variableName)).map String.toList⟩

def printLog (s : Session) : IO Unit := do
  (← IO.getStderr).putStr (String.ofList (Log.render s.log))

/-- Leaves the lint log where the run has written it. -/
def keepLintLog (s : Session) : IO Unit := do
  let scratch := Path.ofText Hook.scratchDirectory
  let log := scratch.child Check.lintLogName
  if let .ok content := s.tree.read log.toText then
    IO.FS.createDirAll (String.ofList scratch.toText)
    IO.FS.writeBinFile (String.ofList log.toText) ⟨content.toArray⟩

partial def converse (environment : Hook.Environment) (transcript : Dialogue.Transcript) :
    IO UInt32 := do
  match Dialogue.standing environment transcript with
  | .asks command =>
    let output ← IO.getStdout
    output.putStrLn (String.ofList (Dialogue.request command))
    output.flush
    let line ← (← IO.getStdin).getLine
    match Dialogue.reply? line.toList with
    | some reply => converse environment (transcript ++ [reply])
    | none =>
      IO.eprintln "commit-gate: no answer to a request"
      return 1
  | .stopped fault s =>
    printLog s
    keepLintLog s
    IO.eprintln (String.ofList (fault.message?.getD "a program printed what is not text".toList))
    return 1
  | .decided verdict s =>
    printLog s
    keepLintLog s
    IO.print (String.ofList verdict.output)
    return verdict.status.toUInt32

end CommitGate.Main

def main : IO UInt32 := do
  CommitGate.Main.converse (← CommitGate.Main.environment) []
