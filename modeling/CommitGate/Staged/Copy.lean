import CommitGate.Git

/-!
Copies of staged files. A copy is there for as long as it is worked on; afterwards it goes, however
the work ends, and with it each directory below the scratch directory that it leaves empty.
-/

namespace CommitGate.Staged

open Session

def prune (t : FileTree) : List Path → FileTree
  | [] => t
  | p :: rest =>
    match t.rmdir? p.toText with
    | some t' => prune t' rest
    | none => t

/-- The directories a copy stands in, nearest first, that lie strictly below the scratch one. -/
def ownDirectories (copy scratch : Path) : List Path :=
  copy.ancestors.takeWhile (·.isBelow scratch)

/-- Removes a copy, which may be gone already, and the directories that it leaves empty. -/
def remove (copy scratch : Path) : Action Unit := do
  changeTree <| .single fun t =>
    match t.unlink copy.toText with
    | .ok t' => .ok t'
    | .error fault => if fault.cause = .notFound then .ok t else .error fault
  modify fun s => { s with tree := prune s.tree (ownDirectories copy scratch) }

def withCopy (programs : Programs) (scratch : Path) (path : Text) (work : Path → Action α) :
    Action α := do
  Git.checkout programs scratch path
  let copy := scratch.child path
  thenAlways (work copy) (remove copy scratch)

end CommitGate.Staged
