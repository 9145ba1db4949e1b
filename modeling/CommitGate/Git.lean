import CommitGate.Session
import CommitGate.Text.Utf8

/-!
Git commands. One that does not start or does not exit with status zero is a git failure; of the
others the output counts, read as text.
-/

namespace CommitGate.Git

open Session

def run (programs : Programs) (subcommand : Text) (arguments : List Text) : Action Text := do
  match ← invoke programs ("git".toList :: subcommand :: arguments) with
  | .notStarted failure => throw (.git (.notStarted subcommand failure.text))
  | .completed c =>
    match Utf8.read? c.output, Utf8.read? c.errors with
    | some output, some errors =>
      if c.status = 0 then return output
      else throw (.git (.exited subcommand c.status (Text.trim errors)))
    | _, _ => throw .undecodableOutput

def head : Text := "HEAD".toList

/-- What the staged files are compared with: the last commit, or the empty tree before the first. -/
def diffBase (programs : Programs) : Action Text := do
  match ← attempt (run programs "rev-parse".toList ["--verify".toList, "-q".toList, head]) with
  | .ok _ => return head
  | .error _ =>
    let id ← run programs "hash-object".toList ["-t".toList, "tree".toList, "/dev/null".toList]
    return Text.trim id

def checkout (programs : Programs) (scratch : Path) (path : Text) : Action Unit := do
  let _ ← run programs Command.checkoutWord
    ["-f".toList, Command.placeWord ++ scratch.toText ++ [Path.slash], "--".toList, path]

end CommitGate.Git
