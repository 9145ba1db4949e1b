import CommitGate.FileTree.Operation

/-!
Directories made together with what they stand in, and files together with the directory that they
stand in. These take several operations, and those done before one is refused stay done.
-/

namespace CommitGate

namespace FileTree

/-- A change in one or more operations. -/
abbrev Change := EStateM FileFault FileTree Unit

def Change.single (operation : FileTree → Except FileFault FileTree) : Change := fun t =>
  match operation t with
  | .ok t' => .ok () t'
  | .error fault => .error fault t

/-- Makes a directory. If asked to reuse, one that is there already is as good. -/
def makeDirectory (reuse : Bool) (path : Text) : Change := fun t =>
  match t.mkdir path with
  | .ok t' => .ok () t'
  | .error fault =>
    if reuse ∧ t.entry? path = some .directory then .ok () t else .error fault t

/-- Makes the first of some paths a directory. Only when it turns out to stand in nothing, the next
one is made first. -/
def ensureFirst : List Path → Change
  | [] => fun t => .ok () t
  | p :: above => fun t =>
    match makeDirectory true p.toText t with
    | .ok _ t' => .ok () t'
    | .error fault t' =>
      if fault.cause = .notFound ∧ above ≠ [] then
        match ensureFirst above t' with
        | .ok _ t'' => makeDirectory true p.toText t''
        | .error fault' t'' => .error fault' t''
      else .error fault t'

def ensureDirectory (p : Path) : Change := ensureFirst (p :: p.ancestors)

/-- Makes the first rung of a ladder a directory. The next rung is looked at before, and made first
if nothing is there. -/
def makeRungs (reuse : Bool) : List WrittenPath.Rung → Change
  | [] => fun t => .ok () t
  | [rung] => makeDirectory reuse rung.path
  | rung :: next :: above => fun t =>
    if (t.entry? next.path).isSome then makeDirectory reuse rung.path t
    else
      match makeRungs reuse (next :: above) t with
      | .ok _ t' =>
        if rung.name = Path.here then .ok () t' else makeDirectory reuse rung.path t'
      | .error fault t' =>
        if fault.cause ≠ .alreadyExists then .error fault t'
        else if rung.name = Path.here then .ok () t'
        else makeDirectory reuse rung.path t'

def makeDirectories (reuse : Bool) (path : Text) : Change :=
  makeRungs reuse (WrittenPath.ladder path)

def deposit (path : Text) (content : Bytes) : Change := fun t =>
  let directory := WrittenPath.directoryOf path
  let made := if directory = [] then .ok () t else makeDirectories true directory t
  match made with
  | .ok _ t' => Change.single (·.write path content) t'
  | .error fault t' => .error fault t'

end FileTree

end CommitGate
