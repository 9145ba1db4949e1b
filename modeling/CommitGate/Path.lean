import CommitGate.Text.Basic

/-!
Paths of a hierarchical file system, as names below a start. Empty names and `.` say nothing and
are dropped when a path is read; `..` is kept, since what it means depends on the file tree.
-/

namespace CommitGate

namespace Path

def slash : Char := '/'

def here : Text := ['.']

def above : Text := ['.', '.']

def isName (name : Text) : Bool := name ≠ [] && name ≠ here && !name.contains slash

end Path

/-- A path is relative when nothing leads it. Of several leading slashes, exactly two have a
meaning of their own and are kept; any other number is the same as one. -/
structure Path where
  leading : Fin 3
  names : List Text
  valid : ∀ name ∈ names, Path.isName name
  deriving DecidableEq, Repr

namespace Path

def leadingOf (slashes : Nat) : Fin 3 := if h : slashes < 3 then ⟨slashes, h⟩ else 1

def ofText (text : Text) : Path where
  leading := leadingOf (text.takeWhile (· = slash)).length
  names := (text.splitOn slash).filter isName
  valid _ h := (List.mem_filter.1 h).2

/-- The path as it is written. The empty relative path is `.`. -/
def toText (p : Path) : Text :=
  if p.leading = 0 ∧ p.names = [] then here
  else List.replicate p.leading slash ++ [slash].intercalate p.names

/-- What `text` names as seen from `p`; an absolute path is what it is from anywhere. -/
def child (p : Path) (text : Text) : Path :=
  let q := ofText text
  if q.leading = 0 then
    { leading := p.leading
      names := p.names ++ q.names
      valid := fun _ h => (List.mem_append.1 h).elim (p.valid _) (q.valid _) }
  else q

def parent (p : Path) : Path where
  leading := p.leading
  names := p.names.dropLast
  valid _ h := p.valid _ (List.dropLast_subset _ h)

def nearestAbove (p : Path) : Nat → List Path
  | 0 => []
  | count + 1 => p.parent :: nearestAbove p.parent count

def ancestors (p : Path) : List Path := p.nearestAbove p.names.length

/-- Whether `p` lies strictly below `ancestor`, going by names alone. -/
def isBelow (p ancestor : Path) : Bool :=
  p.leading = ancestor.leading && ancestor.names.isPrefixOf p.names &&
    ancestor.names.length < p.names.length

end Path

end CommitGate
