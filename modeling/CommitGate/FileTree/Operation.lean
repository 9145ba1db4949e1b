import CommitGate.FileFault
import CommitGate.FileTree.Basic
import CommitGate.WrittenPath

/-!
What a program does to single files and directories, by path as it is written. Each operation
refuses with the cause that an operating system gives, and then changes nothing.
-/

namespace CommitGate

namespace FileTree

/-- Follows names from a key. Every entry on the way has to be a directory, also where a name stays
at it; the last name need not stand for anything. -/
def follow (t : FileTree) (key : Key) : List Text → Except FileFault.Cause Key
  | [] => .ok key
  | name :: rest =>
    match t.find key with
    | none => .error .notFound
    | some (.file _) => .error .notADirectory
    | some .directory => t.follow (Key.step key name) rest

def startOf (path : Text) : Key := if WrittenPath.isAbsolute path then [Key.systemRoot] else []

def locate (t : FileTree) (path : Text) : Except FileFault.Cause Key :=
  if path = [] then .error .notFound else t.follow (startOf path) (WrittenPath.steps path)

def entry? (t : FileTree) (path : Text) : Option Entry :=
  match t.locate path with
  | .ok key => t.find key
  | .error _ => none

def read (t : FileTree) (path : Text) : Except FileFault Bytes :=
  match t.locate path with
  | .error cause => .error ⟨cause, path⟩
  | .ok key =>
    match t.find key with
    | none => .error ⟨.notFound, path⟩
    | some .directory => .error ⟨.isADirectory, path⟩
    | some (.file content) => .ok content

def write (t : FileTree) (path : Text) (content : Bytes) : Except FileFault FileTree :=
  match t.locate path with
  | .error cause => .error ⟨cause, path⟩
  | .ok key =>
    if hfree : t.find key = some .directory then .error ⟨.isADirectory, path⟩
    else if hparent : t.find key.dropLast = some .directory then
      .ok (t.place key (.file content) hparent hfree)
    else .error ⟨.notFound, path⟩

theorem find_of_write {t t' : FileTree} {path : Text} {content : Bytes}
    (h : t.write path content = .ok t') :
    ∃ key, t.locate path = .ok key ∧ t.find key ≠ some .directory ∧
      ∀ k, t'.find k = if k = key then some (.file content) else t.find k := by
  rw [write] at h
  cases hl : t.locate path with
  | error cause => simp [hl] at h
  | ok key =>
    simp only [hl] at h
    split at h
    · cases h
    · rename_i hfree
      split at h
      · cases h
        exact ⟨key, rfl, hfree, fun k => find_place k⟩
      · cases h

def append (t : FileTree) (path : Text) (content : Bytes) : Except FileFault FileTree :=
  match t.read path with
  | .ok old => t.write path (old ++ content)
  | .error fault => if fault.cause = .notFound then t.write path content else .error fault

def unlink (t : FileTree) (path : Text) : Except FileFault FileTree :=
  match t.locate path with
  | .error cause => .error ⟨cause, path⟩
  | .ok key =>
    match h : t.find key with
    | none => .error ⟨.notFound, path⟩
    | some .directory => .error ⟨.isADirectory, path⟩
    | some (.file _) =>
      .ok (t.discard key (not_isAnchor_of_find_ne (t := t) (by simp [h])) (find_below_file h))

theorem find_of_unlink {t t' : FileTree} {path : Text} (h : t.unlink path = .ok t') :
    ∃ key, t.locate path = .ok key ∧ (∃ content, t.find key = some (.file content)) ∧
      ∀ k, t'.find k = if k = key then none else t.find k := by
  rw [unlink] at h
  cases hl : t.locate path with
  | error cause => simp [hl] at h
  | ok key =>
    simp only [hl] at h
    split at h
    · cases h
    · cases h
    · rename_i content hf
      cases h
      exact ⟨key, rfl, ⟨content, hf⟩, fun k => find_discard k⟩

/-- Removes an empty directory. A path that ends in the name of the directory above is refused. -/
def rmdir? (t : FileTree) (path : Text) : Option FileTree :=
  if (WrittenPath.steps path).getLast? = some Path.above then none
  else match t.locate path with
    | .error _ => none
    | .ok key =>
      if h : Key.isAnchor key = false ∧ t.find key = some .directory ∧ t.hasNothingBelow key then
        some (t.discard key h.1 (find_below_of_hasNothingBelow h.1 h.2.2))
      else none

theorem find_of_rmdir? {t t' : FileTree} {path : Text} (h : t.rmdir? path = some t') :
    ∃ key, t.locate path = .ok key ∧ Key.isAnchor key = false ∧ t.find key = some .directory ∧
      (∀ name, t.find (key ++ [name]) = none) ∧
      ∀ k, t'.find k = if k = key then none else t.find k := by
  rw [rmdir?] at h
  split at h
  · cases h
  cases hl : t.locate path with
  | error cause => simp [hl] at h
  | ok key =>
    simp only [hl] at h
    split at h
    · rename_i hk
      cases h
      exact ⟨key, rfl, hk.1, hk.2.1, find_below_of_hasNothingBelow hk.1 hk.2.2,
        fun k => find_discard k⟩
    · cases h

/-- Makes a directory where nothing stands. Slashes at the end of the path do not count. -/
def mkdir (t : FileTree) (path : Text) : Except FileFault FileTree :=
  match t.locate (WrittenPath.withoutEndSlashes path) with
  | .error cause => .error ⟨cause, path⟩
  | .ok key =>
    match h : t.find key with
    | some _ => .error ⟨.alreadyExists, path⟩
    | none =>
      if hparent : t.find key.dropLast = some .directory then
        .ok (t.place key .directory hparent (by simp [h]))
      else .error ⟨.notFound, path⟩

theorem find_of_mkdir {t t' : FileTree} {path : Text} (h : t.mkdir path = .ok t') :
    ∃ key, t.locate (WrittenPath.withoutEndSlashes path) = .ok key ∧ t.find key = none ∧
      ∀ k, t'.find k = if k = key then some .directory else t.find k := by
  rw [mkdir] at h
  cases hl : t.locate (WrittenPath.withoutEndSlashes path) with
  | error cause => simp [hl] at h
  | ok key =>
    simp only [hl] at h
    split at h
    · cases h
    · rename_i hf
      split at h
      · cases h
        exact ⟨key, rfl, hf, fun k => find_place k⟩
      · cases h

end FileTree

end CommitGate
