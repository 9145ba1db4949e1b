import CommitGate.Path

/-!
Files and directories as seen from the working directory. A tree answers, for each key, what stands
there, and whatever stands anywhere stands in a directory; the type carries that. An entry is placed
and discarded only where this stays so, and either changes the answer for its own key alone.
-/

namespace CommitGate

/-- The names that lead to an entry, from the working directory or from a directory above it, which
has a key of `..` alone, or from the system's root. How the working directory lies below these is
not known. -/
abbrev Key := List Text

namespace Key

def systemRoot : Text := [Path.slash]

/-- The keys that always are directories. -/
def isAnchor (key : Key) : Bool := key.all (· = Path.above) || key = [systemRoot]

def parent (key : Key) : Key :=
  if key = [systemRoot] then key
  else if key.all (· = Path.above) then key ++ [Path.above]
  else key.dropLast

def step (key : Key) (name : Text) : Key :=
  if name = [] ∨ name = Path.here then key
  else if name = Path.above then parent key
  else key ++ [name]

theorem isAnchor_of_append {key : Key} {name : Text} (h : isAnchor (key ++ [name])) :
    isAnchor key := by
  simp only [isAnchor, Bool.or_eq_true, decide_eq_true_eq] at h ⊢
  rcases h with h | h
  · rw [List.all_append, Bool.and_eq_true] at h
    exact .inl h.1
  · cases key with
    | nil => exact .inl rfl
    | cons a rest => simp at h

end Key

inductive Entry where
  | directory
  | file (content : Bytes)
  deriving DecidableEq, Repr

def entryAt (entries : List (Key × Entry)) (key : Key) : Option Entry :=
  if Key.isAnchor key then some .directory else entries.lookup key

/-- The entries in no particular order, and why each stands in a directory. -/
structure FileTree where
  entries : List (Key × Entry)
  rooted : ∀ key name, entryAt entries (key ++ [name]) ≠ none →
    entryAt entries key = some .directory

namespace FileTree

def find (t : FileTree) (key : Key) : Option Entry := entryAt t.entries key

def empty : FileTree where
  entries := []
  rooted key name h := by
    by_cases hk : Key.isAnchor (key ++ [name])
    · simp [entryAt, Key.isAnchor_of_append hk]
    · simp [entryAt, hk] at h

theorem find_anchor (t : FileTree) {key : Key} (h : Key.isAnchor key) :
    t.find key = some .directory := by simp [find, entryAt, h]

theorem not_isAnchor_of_find_ne {t : FileTree} {key : Key} (h : t.find key ≠ some .directory) :
    Key.isAnchor key = false := by
  cases hk : Key.isAnchor key with
  | false => rfl
  | true => exact absurd (t.find_anchor hk) h

theorem lookup_filter (entries : List (Key × Entry)) (stays : Key → Bool) (k : Key) :
    (entries.filter fun e => stays e.1).lookup k = if stays k then entries.lookup k else none := by
  induction entries with
  | nil => simp
  | cons e rest ih =>
    obtain ⟨q, v⟩ := e
    by_cases hk : k = q
    · subst hk
      by_cases hq : stays k
      · simp [hq]
      · simpa [hq] using ih
    · have hne : (k == q) = false := by simpa using hk
      by_cases hq : stays q
      · simpa [hq, hne, List.lookup_cons] using ih
      · simpa [hq, hne, List.lookup_cons] using ih

def placed (entries : List (Key × Entry)) (key : Key) (e : Entry) : List (Key × Entry) :=
  (key, e) :: entries.filter fun x => x.1 ≠ key

theorem entryAt_placed {entries : List (Key × Entry)} {key : Key} (hkey : Key.isAnchor key = false)
    (e : Entry) (k : Key) :
    entryAt (placed entries key e) k = if k = key then some e else entryAt entries k := by
  by_cases hk : k = key
  · subst hk
    simp [entryAt, placed, hkey]
  · have : (k == key) = false := by simpa using hk
    have hstays := (lookup_filter entries (· ≠ key) k).trans (if_pos (by simpa using hk))
    simp only [entryAt, placed, List.lookup_cons, this, hk, if_false]
    rw [hstays]

theorem entryAt_removed {entries : List (Key × Entry)} {key : Key} (hkey : Key.isAnchor key = false)
    (k : Key) :
    entryAt (entries.filter fun x => x.1 ≠ key) k =
      if k = key then none else entryAt entries k := by
  by_cases hk : k = key
  · subst hk
    simp only [entryAt, hkey, lookup_filter entries (· ≠ k)]
    simp
  · have hstays := (lookup_filter entries (· ≠ key) k).trans (if_pos (by simpa using hk))
    rw [entryAt, hstays, if_neg hk, entryAt]

theorem ne_append_singleton (key : Key) (name : Text) : key ≠ key ++ [name] := by
  intro h
  have := congrArg List.length h
  simp at this

def place (t : FileTree) (key : Key) (e : Entry)
    (hparent : t.find key.dropLast = some .directory)
    (hfree : t.find key ≠ some .directory) : FileTree where
  entries := placed t.entries key e
  rooted k name h := by
    have hkey := not_isAnchor_of_find_ne hfree
    rw [entryAt_placed hkey] at h ⊢
    by_cases hk : k = key
    · subst hk
      rw [if_neg (ne_append_singleton k name).symm] at h
      exact absurd (t.rooted k name h) hfree
    · rw [if_neg hk]
      by_cases hn : k ++ [name] = key
      · subst hn
        simpa [find] using hparent
      · rw [if_neg hn] at h
        exact t.rooted k name h

def discard (t : FileTree) (key : Key) (hkey : Key.isAnchor key = false)
    (hbelow : ∀ name, t.find (key ++ [name]) = none) : FileTree where
  entries := t.entries.filter fun x => x.1 ≠ key
  rooted k name h := by
    rw [entryAt_removed hkey] at h ⊢
    have hn : k ++ [name] ≠ key := fun hn => by simp [hn] at h
    rw [if_neg hn] at h
    by_cases hk : k = key
    · subst hk
      exact absurd (hbelow name) h
    · rw [if_neg hk]
      exact t.rooted k name h

@[simp] theorem find_place {t : FileTree} {key : Key} {e : Entry} {h₁ h₂} (k : Key) :
    (t.place key e h₁ h₂).find k = if k = key then some e else t.find k :=
  entryAt_placed (not_isAnchor_of_find_ne h₂) e k

@[simp] theorem find_discard {t : FileTree} {key : Key} {h₁ h₂} (k : Key) :
    (t.discard key h₁ h₂).find k = if k = key then none else t.find k :=
  entryAt_removed h₁ k

/-- Whether no entry stands directly below `key`; then none stands anywhere below it. -/
def hasNothingBelow (t : FileTree) (key : Key) : Bool :=
  t.entries.all fun x => x.1.dropLast ≠ key

theorem find_below_of_hasNothingBelow {t : FileTree} {key : Key} (hkey : Key.isAnchor key = false)
    (h : t.hasNothingBelow key) (name : Text) : t.find (key ++ [name]) = none := by
  have hn : Key.isAnchor (key ++ [name]) = false := by
    cases hn : Key.isAnchor (key ++ [name]) with
    | false => rfl
    | true => simp [Key.isAnchor_of_append hn] at hkey
  cases hf : t.entries.lookup (key ++ [name]) with
  | none => simp [find, entryAt, hf, hn]
  | some e =>
    have hmem : (key ++ [name], e) ∈ t.entries := by
      obtain ⟨l₁, l₂, hl, _⟩ := List.lookup_eq_some_iff.1 hf
      simp [hl]
    have := List.all_eq_true.1 h _ hmem
    simp at this

theorem find_below_file {t : FileTree} {key : Key} {content : Bytes}
    (h : t.find key = some (.file content)) (name : Text) : t.find (key ++ [name]) = none := by
  cases hf : t.find (key ++ [name]) with
  | none => rfl
  | some e =>
    have := t.rooted key name fun h0 => by simp [find, h0] at hf
    simp_all [find]

def listing (t : FileTree) : List (Key × Entry) :=
  t.entries.filter fun x => !Key.isAnchor (x.1.take 1)

end FileTree

end CommitGate
