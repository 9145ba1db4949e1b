import CommitGate.Git

/-!
The staged files that are worth a check. Git lists them as fields that each end in a zero character:
five words about a file, then its path. A symbolic link, a submodule and an entry without content
yet are left out.
-/

namespace CommitGate.Staged

open Session

def skippedModes : List Text := ["120000".toList, "160000".toList]

/-- The ids of the empty content, short and long. An entry staged without content has one. -/
def emptyBlobs : List Text :=
  ["e69de29bb2d1d6434b8b29ae775ad8c2e48c5391".toList,
    "473a0f4c3be8a93681a267e3b1e9a7dcda1185436fe141f7749120a303721813".toList]

/-- Whether an entry has no regular content. An id of zeros alone names nothing. -/
def isSkipped (mode id : Text) : Bool :=
  skippedModes.contains mode || emptyBlobs.contains id || id.all (· = '0')

def fieldEnd : Char := '\x00'

/-- The records of a listing, each the words about a file and its path. A field without a partner
belongs to none. -/
def records : List Text → List (Text × Text)
  | words :: path :: rest => (words, path) :: records rest
  | _ => []

def select : List (Text × Text) → Action (List Text)
  | [] => return []
  | (words, path) :: rest =>
    match Text.fields words with
    | [_, mode, _, id, _] => do
      if isSkipped mode id then
        record .debug ("skipping ".toList ++ path ++ " (mode ".toList ++ mode ++ ")".toList)
        select rest
      else
        return path :: (← select rest)
    | fields => throw (.malformedRecord fields.length)

def list (programs : Programs) : Action (List Text) := do
  let base ← Git.diffBase programs
  let listing ← Git.run programs "diff-index".toList
    [base, "--cached".toList, "-z".toList, "--diff-filter=d".toList]
  select (records (listing.splitOn fieldEnd))

end CommitGate.Staged
