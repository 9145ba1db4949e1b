import CommitGate.Session
import CommitGate.Text.Utf8

/-!
The PHP program as a linter: it checks a file's syntax, and it prints a file without its comments.
Either is left out when there is no such program.
-/

namespace CommitGate

structure Linter where
  program : Text
  deriving DecidableEq, Repr

structure LintResult where
  status : Int
  output : Text
  deriving DecidableEq, Repr

namespace LintResult

/-- The status of the linter for a file that it cannot parse. Any other is information only. -/
def parseErrorStatus : Int := 255

def isParseError (r : LintResult) : Bool := r.status = parseErrorStatus

end LintResult

namespace Linter

open Session

def defaultProgram : Text := "php".toList

/-- The program asked for, or the one the environment names, or the usual one. -/
def ofSettings (asked environment : Option Text) : Linter :=
  match asked with
  | some (c :: name) => ⟨c :: name⟩
  | _ => ⟨environment.getD defaultProgram⟩

def notFoundStatus : Int := 127

def check (programs : Programs) (linter : Linter) (path : Path) : Action LintResult := do
  match ← invoke programs [linter.program, "-l".toList, path.toText] with
  | .notStarted failure =>
    if failure.kind = .notFound then
      record .warning (linter.program ++ " not found; skipping syntax check of ".toList ++
        path.toText)
      return ⟨notFoundStatus, linter.program ++ ": command not found\n".toList⟩
    else throw (.linterNotStarted failure)
  | .completed c =>
    match Utf8.read? (c.output ++ c.errors) with
    | some output => return ⟨c.status, output⟩
    | none => throw .undecodableOutput

def strip? (programs : Programs) (linter : Linter) (path : Path) : Action (Option Text) := do
  match ← invoke programs [linter.program, "-w".toList, path.toText] with
  | .notStarted failure =>
    if failure.kind = .notFound then return none else throw (.linterNotStarted failure)
  | .completed c =>
    if c.status = 0 then return some (Utf8.readLossy c.output)
    else
      record .debug (linter.program ++ " -w exited ".toList ++ Text.ofInt c.status ++
        " for ".toList ++ path.toText)
      return none

end Linter

end CommitGate
