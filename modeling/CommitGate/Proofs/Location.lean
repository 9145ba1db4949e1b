import CommitGate.FileTree.Operation
import Mathlib.Data.List.Basic

/-! Where paths lead in a file tree. A path as it is written leads where its names lead from its
start, and names without `..` lead to the key that they spell, if anything stands there. -/
namespace CommitGate

namespace Key

theorem step_of_isName {name : Text} (hname : Path.isName name) (h : name ≠ Path.above) (key : Key) :
    step key name = key ++ [name] := by
  have hn : ¬(name = [] ∨ name = Path.here) := by
    rintro (rfl | rfl)
    · exact absurd hname (by decide)
    · exact absurd hname (by decide)
  rw [step, if_neg hn, if_neg h]

end Key

namespace Path

def start (p : Path) : Key := if (p.leading : Nat) = 0 then [] else [Key.systemRoot]

theorem start_relative {p : Path} (h : p.leading = 0) : p.start = [] :=
  if_pos (congrArg Fin.val h)

theorem start_absolute {p : Path} (h : p.leading ≠ 0) : p.start = [Key.systemRoot] :=
  if_neg fun hval => h (Fin.ext hval)

/-- A path leads down all the way. -/
def IsPlain (p : Path) : Prop := above ∉ p.names

theorem IsPlain.names {p : Path} (h : p.IsPlain) :
    ∀ name ∈ p.names, isName name ∧ name ≠ above := by
  intro name hname
  refine ⟨p.valid name hname, ?_⟩
  rintro rfl
  exact h hname

def key (p : Path) : Key := p.start ++ p.names

theorem not_mem_slash (p : Path) : ∀ name ∈ p.names, slash ∉ name := by
  intro name hname hs
  have hvalid := p.valid name hname
  simp [isName, hs] at hvalid

theorem ne_nil_of_mem (p : Path) : ∀ name ∈ p.names, name ≠ [] := by
  rintro name hname rfl
  exact absurd (p.valid [] hname) (by decide)

theorem toText_eq_cons (p : Path) (h : ¬(p.leading = 0 ∧ p.names = [])) :
    ∃ c rest, p.toText = c :: rest ∧ (c = slash ↔ p.leading ≠ 0) := by
  rw [toText, if_neg h]
  by_cases hl : p.leading = 0
  · obtain ⟨name, others, hnames⟩ := List.exists_cons_of_ne_nil fun hn => h ⟨hl, hn⟩
    have hmem : name ∈ p.names := hnames ▸ List.mem_cons_self
    obtain ⟨c, more, rfl⟩ := List.exists_cons_of_ne_nil (p.ne_nil_of_mem name hmem)
    have hc : c ≠ slash := fun he => p.not_mem_slash _ hmem (he ▸ List.mem_cons_self)
    rw [hl, hnames]
    cases others with
    | nil => exact ⟨c, _, rfl, by simp [hc]⟩
    | cons next others => exact ⟨c, _, rfl, by simp [hc]⟩
  · have hne : p.leading.val ≠ 0 := fun he => hl (Fin.ext he)
    obtain ⟨n, hn⟩ := Nat.exists_eq_succ_of_ne_zero hne
    rw [hn]
    exact ⟨slash, _, rfl, by simp [hl]⟩

theorem steps_slashes (n : Nat) (body : Text) :
    WrittenPath.steps (List.replicate n slash ++ body) =
      List.replicate n [] ++ WrittenPath.steps body := by
  induction n with
  | zero => rfl
  | succ n ih =>
    rw [List.replicate_succ, List.cons_append, WrittenPath.steps,
      List.splitOn_cons_eq_if_modifyHead, if_pos (by rfl)]
    exact congrArg ([] :: ·) ih

theorem steps_of_suffix {ext : Text} (hslash : slash ∉ ext) (front : Text) :
    ∃ before last, WrittenPath.steps (front ++ ext) = before ++ [last] ∧ slash ∉ last ∧
      ext <:+ last := by
  induction front with
  | nil =>
    refine ⟨[], ext, ?_, hslash, List.suffix_refl ext⟩
    rw [List.nil_append, WrittenPath.steps, List.splitOn_eq_singleton hslash, List.nil_append]
  | cons c front ih =>
    obtain ⟨before, last, hsteps, hno, hlast⟩ := ih
    rw [WrittenPath.steps] at hsteps ⊢
    rw [List.cons_append, List.splitOn_cons_eq_if_modifyHead, hsteps]
    by_cases hc : c = slash
    · rw [if_pos (beq_iff_eq.2 hc)]
      exact ⟨[] :: before, last, rfl, hno, hlast⟩
    · rw [if_neg (by simpa using hc)]
      cases before with
      | nil =>
        refine ⟨[], c :: last, rfl, ?_, hlast.trans (List.suffix_cons c last)⟩
        rw [List.mem_cons, not_or]
        exact ⟨fun he => hc he.symm, hno⟩
      | cons first before => exact ⟨(c :: first) :: before, last, rfl, hno, hlast⟩

theorem isName_of_suffix {ext last : Text} (hlen : 2 < ext.length) (hslash : slash ∉ last)
    (h : ext <:+ last) : isName last ∧ last ≠ above := by
  have hlong : 2 < last.length := Nat.lt_of_lt_of_le hlen h.length_le
  have hne : last ≠ above := fun he => by simp [he, above] at hlong
  have hnil : last ≠ [] := fun he => by simp [he] at hlong
  have hhere : last ≠ here := fun he => by simp [he, here] at hlong
  exact ⟨by simp [isName, hnil, hhere, hslash], hne⟩

theorem child_names {ext path : Text} (hslash : slash ∉ ext) (hlen : 2 < ext.length)
    (h : ext <:+ path) (p : Path) :
    ∃ front last, (p.child path).names = front ++ [last] ∧ last ≠ above ∧ ext <:+ last := by
  obtain ⟨rest, rfl⟩ := h
  obtain ⟨before, last, hsteps, hno, hlast⟩ := steps_of_suffix hslash rest
  obtain ⟨hname, hne⟩ := isName_of_suffix hlen hno hlast
  have hnames : (ofText (rest ++ ext)).names = before.filter isName ++ [last] := by
    change (WrittenPath.steps (rest ++ ext)).filter isName = _
    rw [hsteps, List.filter_append, List.filter_cons_of_pos hname, List.filter_nil]
  rw [child]
  split
  · refine ⟨p.names ++ before.filter isName, last, ?_, hne, hlast⟩
    exact (congrArg (p.names ++ ·) hnames).trans (List.append_assoc ..).symm
  · exact ⟨_, last, hnames, hne, hlast⟩

end Path

namespace FileTree

variable {t t' : FileTree} {key k : Key} {names : List Text}

theorem find_start (t : FileTree) (p : Path) : t.find p.start = some .directory := by
  refine t.find_anchor ?_
  rw [Path.start]
  split
  · rfl
  · decide

theorem follow_blanks (h : t.find key = some .directory) (n : Nat) (names : List Text) :
    t.follow key (List.replicate n [] ++ names) = t.follow key names := by
  induction n with
  | zero => rfl
  | succ n ih =>
    rw [List.replicate_succ, List.cons_append, follow, h]
    exact ih

theorem startOf_toText (p : Path) : startOf p.toText = p.start := by
  by_cases hnone : p.leading = 0 ∧ p.names = []
  · rw [Path.toText, if_pos hnone, Path.start_relative hnone.1]
    rfl
  obtain ⟨c, rest, htext, hc⟩ := p.toText_eq_cons hnone
  have hhead : WrittenPath.isAbsolute p.toText = true ↔ p.leading ≠ 0 := by
    simpa [WrittenPath.isAbsolute, htext] using hc
  rw [startOf]
  by_cases hl : p.leading = 0
  · rw [Path.start_relative hl, if_neg (by simpa [hl] using hhead)]
  · rw [Path.start_absolute hl, if_pos (hhead.2 hl)]

theorem locate_toText (t : FileTree) (p : Path) :
    t.locate p.toText = t.follow p.start p.names := by
  have hstart := t.find_start p
  by_cases hnone : p.leading = 0 ∧ p.names = []
  · rw [Path.toText, if_pos hnone]
    rw [Path.start_relative hnone.1] at hstart ⊢
    rw [hnone.2]
    change t.follow [] [Path.here] = .ok []
    simp only [follow, hstart]
    rfl
  have hsteps : t.follow p.start (WrittenPath.steps ([Path.slash].intercalate p.names)) =
      t.follow p.start p.names := by
    by_cases hn : p.names = []
    · rw [hn]
      exact follow_blanks hstart 1 []
    · rw [WrittenPath.steps, List.splitOn_intercalate _ p.not_mem_slash hn]
  obtain ⟨c, rest, htext, _⟩ := p.toText_eq_cons hnone
  have hne : p.toText ≠ [] := by simp [htext]
  rw [locate, if_neg hne, startOf_toText, Path.toText, if_neg hnone, Path.steps_slashes,
    follow_blanks hstart]
  exact hsteps

theorem find_of_below {name : Text} {rest : List Text} (h : t.find (key ++ name :: rest) ≠ none) :
    t.find key = some .directory := by
  induction rest generalizing key name with
  | nil => exact t.rooted key name h
  | cons next rest ih =>
    have hbelow : t.find (key ++ [name] ++ next :: rest) ≠ none := by
      rwa [List.append_assoc]
    exact t.rooted key name (by rw [← find, ih hbelow]; simp)

theorem find_append_none (h : t.find key = none) (more : List Text) :
    t.find (key ++ more) = none := by
  cases more with
  | nil => rwa [List.append_nil]
  | cons name rest =>
    by_contra hne
    rw [find_of_below hne] at h
    cases h

theorem find_below {k : Key} {content : Bytes} (h : t.find key = some (.file content))
    (hk : key <+: k) (hne : k ≠ key) : t.find k = none := by
  obtain ⟨more, rfl⟩ := hk
  cases more with
  | nil => exact absurd (List.append_nil key) hne
  | cons name rest =>
    rw [← List.singleton_append, ← List.append_assoc]
    exact find_append_none (find_below_file h name) rest

theorem find_parent (h : t.find key = some .directory) :
    t.find (Key.parent key) = some .directory := by
  rw [Key.parent]
  split
  · exact h
  · split
    · rename_i hall
      apply t.find_anchor
      rw [Key.isAnchor, List.all_append, hall]
      rfl
    · rename_i hall
      have hne : key ≠ [] := by
        rintro rfl
        exact hall rfl
      apply t.rooted key.dropLast (key.getLast hne)
      rw [List.dropLast_concat_getLast, ← find, h]
      simp

theorem follow_eq_ok (hnames : ∀ name ∈ names, Path.isName name ∧ name ≠ Path.above)
    (h : t.follow key names = .ok k) : k = key ++ names := by
  induction names generalizing key with
  | nil =>
    cases h
    simp
  | cons name rest ih =>
    obtain ⟨⟨hname, hne⟩, hrest⟩ := List.forall_mem_cons.1 hnames
    rw [follow] at h
    split at h
    · cases h
    · cases h
    · rw [Key.step_of_isName hname hne] at h
      rw [ih hrest h, List.append_assoc]
      rfl

theorem follow_of_find (hnames : ∀ name ∈ names, Path.isName name ∧ name ≠ Path.above)
    (h : t.find (key ++ names) ≠ none) : t.follow key names = .ok (key ++ names) := by
  induction names generalizing key with
  | nil => simp [follow]
  | cons name rest ih =>
    obtain ⟨⟨hname, hne⟩, hrest⟩ := List.forall_mem_cons.1 hnames
    rw [follow, find_of_below h]
    dsimp only
    rw [Key.step_of_isName hname hne, ih hrest (by rwa [List.append_assoc]), List.append_assoc]
    rfl

theorem follow_concat {name : Text} (h : t.follow key (names ++ [name]) = .ok k) :
    ∃ directory, k = Key.step directory name := by
  induction names generalizing key with
  | nil =>
    rw [List.nil_append, follow] at h
    split at h
    · cases h
    · cases h
    · cases h
      exact ⟨key, rfl⟩
  | cons first rest ih =>
    rw [List.cons_append, follow] at h
    split at h
    · cases h
    · cases h
    · exact ih h

theorem follow_of_directories
    (hdirs : ∀ d, t.find d = some .directory → t'.find d = some .directory)
    (h : t.follow key names = .ok k) : t'.follow key names = .ok k := by
  induction names generalizing key with
  | nil => exact h
  | cons name rest ih =>
    rw [follow] at h ⊢
    split at h
    · cases h
    · cases h
    · rename_i hd
      rw [hdirs _ hd]
      exact ih h

variable {p : Path}

theorem locate_eq_ok (hp : p.IsPlain) (h : t.locate p.toText = .ok k) : k = p.key := by
  rw [locate_toText] at h
  exact follow_eq_ok hp.names h

/-- A copy stands under a name that ends as the path of its file ends. -/
theorem locate_child {ext path : Text} (hslash : Path.slash ∉ ext) (hlen : 2 < ext.length)
    (h : ext <:+ path) (hl : t.locate (p.child path).toText = .ok k) :
    ∃ directory last, k = directory ++ [last] ∧ ext <:+ last := by
  obtain ⟨front, last, hnames, hne, hlast⟩ := Path.child_names hslash hlen h p
  rw [locate_toText, hnames] at hl
  obtain ⟨directory, rfl⟩ := follow_concat hl
  have hname : Path.isName last := (p.child path).valid last (by simp [hnames])
  exact ⟨directory, last, Key.step_of_isName hname hne directory, hlast⟩

theorem locate_of_find (hp : p.IsPlain) (h : t.find p.key ≠ none) :
    t.locate p.toText = .ok p.key := by
  rw [locate_toText]
  exact follow_of_find hp.names h

end FileTree

end CommitGate
