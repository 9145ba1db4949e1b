import CommitGate.Path

/-!
What a run of the gate has found so far.
-/

namespace CommitGate

structure Findings where
  scratch : Path
  abortRequested : Bool
  debugReports : List Text
  lintLog : Text
  /-- The lint output of each path, one entry a path, oldest path first. -/
  lintOutput : List (Text × Text)
  syntaxErrorFiles : List Text
  deriving DecidableEq, Repr

namespace Findings

def fresh (scratch : Path) : Findings := ⟨scratch, false, [], [], [], []⟩

/-- The outputs with a new one for `path`, which keeps its place if it has one. -/
def withOutput (outputs : List (Text × Text)) (path output : Text) : List (Text × Text) :=
  match outputs with
  | [] => [(path, output)]
  | (p, o) :: rest =>
    if p = path then (p, output) :: rest else (p, o) :: withOutput rest path output

def addReport (f : Findings) (block : Text) : Findings :=
  { f with debugReports := f.debugReports ++ [block], abortRequested := true }

def addLintOutput (f : Findings) (path output : Text) : Findings :=
  { f with lintLog := f.lintLog ++ output, lintOutput := withOutput f.lintOutput path output }

def addSyntaxError (f : Findings) (path : Text) : Findings :=
  { f with syntaxErrorFiles := f.syntaxErrorFiles ++ [path], abortRequested := true }

end Findings

end CommitGate
