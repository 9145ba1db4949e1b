import CommitGate.Command
import CommitGate.FileFault

/-!
What can stop a step of the gate, by cause, and how each cause is worded.
-/

namespace CommitGate

/-- A git command that could not be started, or that did not exit with status zero. -/
inductive GitFailure where
  | notStarted (subcommand reason : Text)
  | exited (subcommand : Text) (status : Int) (complaint : Text)
  deriving DecidableEq, Repr

def GitFailure.message : GitFailure → Text
  | .notStarted subcommand reason => "git ".toList ++ subcommand ++ ": ".toList ++ reason
  | .exited subcommand status complaint =>
    "git ".toList ++ subcommand ++ " exited ".toList ++ Text.ofInt status ++ ": ".toList ++ complaint

inductive Fault where
  | git (failure : GitFailure)
  | linterNotStarted (failure : StartFailure)
  | undecodableOutput
  | file (fault : FileFault)
  /-- A record of staged files does not have its five fields. -/
  | malformedRecord (fieldCount : Nat)
  | missingLintOutput (path : Text)
  /-- Work on a staged copy gave up for a reason of its own. -/
  | interrupted (reason : Text)
  deriving DecidableEq, Repr

def recordFieldCount : Nat := 5

def malformedRecordMessage (fieldCount : Nat) : Text :=
  if fieldCount < recordFieldCount then
    "not enough values to unpack (expected ".toList ++ Text.ofNat recordFieldCount ++
      ", got ".toList ++ Text.ofNat fieldCount ++ ")".toList
  else "too many values to unpack (expected ".toList ++ Text.ofNat recordFieldCount ++ ")".toList

/-- The wording of a fault. Undecodable output has none. -/
def Fault.message? : Fault → Option Text
  | .git failure => some failure.message
  | .linterNotStarted failure => some failure.text
  | .undecodableOutput => none
  | .file fault => some fault.message
  | .malformedRecord fieldCount => some (malformedRecordMessage fieldCount)
  | .missingLintOutput path => some (Text.quoted path)
  | .interrupted reason => some reason

end CommitGate
