import CommitGate.Path

/-!
Paths as they are written, which is how an operating system takes them: it follows the names between
the slashes one after the other, and an empty name or `.` stays where it is.
-/

namespace CommitGate.WrittenPath

def isAbsolute (path : Text) : Bool := path.head? = some Path.slash

/-- What the system follows. -/
def steps (path : Text) : List Text := path.splitOn Path.slash

/-- A path without the slashes at its end. One of slashes alone is left as it is. -/
def withoutEndSlashes (path : Text) : Text :=
  if path.all (· = Path.slash) then path else (path.reverse.dropWhile (· = Path.slash)).reverse

def splitLast (path : Text) : Text × Text :=
  (withoutEndSlashes (path.reverse.dropWhile (· ≠ Path.slash)).reverse,
    (path.reverse.takeWhile (· ≠ Path.slash)).reverse)

def directoryOf (path : Text) : Text := (splitLast path).1

/-- A path before its last name, and that name. Slashes at its end do not count. -/
def splitName (path : Text) : Text × Text :=
  let s := splitLast path
  if s.2 = [] then splitLast s.1 else s

structure Rung where
  path : Text
  name : Text
  deriving DecidableEq, Repr

def rungs : Nat → Text → List Rung
  | 0, _ => []
  | count + 1, path =>
    let s := splitName path
    ⟨path, s.2⟩ :: if s.1 = [] || s.2 = [] then [] else rungs count s.1

def ladder (path : Text) : List Rung := rungs (path.length + 1) path

end CommitGate.WrittenPath
