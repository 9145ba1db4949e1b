import CommitGate.Text.Quoted

/-!
What an operating system answers when it refuses an operation on a path.
-/

namespace CommitGate

inductive FileFault.Cause where
  | notFound
  | alreadyExists
  | notADirectory
  | isADirectory
  deriving DecidableEq, Repr

structure FileFault where
  cause : FileFault.Cause
  path : Text
  deriving DecidableEq, Repr

namespace FileFault

def Cause.number : Cause → Nat
  | .notFound => 2
  | .alreadyExists => 17
  | .notADirectory => 20
  | .isADirectory => 21

def Cause.message : Cause → Text
  | .notFound => "No such file or directory".toList
  | .alreadyExists => "File exists".toList
  | .notADirectory => "Not a directory".toList
  | .isADirectory => "Is a directory".toList

def message (f : FileFault) : Text :=
  "[Errno ".toList ++ Text.ofNat f.cause.number ++ "] ".toList ++ f.cause.message ++ ": ".toList ++
    Text.quoted f.path

end FileFault

end CommitGate
