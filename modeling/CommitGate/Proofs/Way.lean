import CommitGate.Proofs.Location

/-! The way that a path leads, apart from any file tree: the keys that its names are looked up at, and
the key that they come to. A tree lets a path through exactly if every key on its way is a directory. -/
namespace CommitGate

namespace Key

def lead (key : Key) (names : List Text) : Key := names.foldl step key

/-- The keys that names are looked up at, one after the other. -/
def through : Key → List Text → List Key
  | _, [] => []
  | key, name :: rest => key :: through (step key name) rest

def trail (key : Key) (names : List Text) : List Key := through key names ++ [lead key names]

theorem lead_append (key : Key) (a b : List Text) : lead key (a ++ b) = lead (lead key a) b :=
  List.foldl_append

theorem through_append (key : Key) (a b : List Text) :
    through key (a ++ b) = through key a ++ through (lead key a) b := by
  induction a generalizing key with
  | nil => rfl
  | cons name rest ih =>
    change key :: through (step key name) (rest ++ b) = _
    rw [ih]
    rfl

theorem mem_trail {key d : Key} {names : List Text} :
    d ∈ trail key names ↔ d ∈ through key names ∨ d = lead key names := by
  rw [trail, List.mem_append, List.mem_singleton]

theorem self_mem_trail (key : Key) (names : List Text) : key ∈ trail key names := by
  cases names with
  | nil => exact List.mem_singleton_self key
  | cons name rest => exact List.mem_append_left _ List.mem_cons_self

theorem mem_trail_append {key d : Key} {a b : List Text} :
    d ∈ trail key (a ++ b) ↔ d ∈ trail key a ∨ d ∈ trail (lead key a) b := by
  rw [mem_trail, mem_trail, mem_trail, through_append, lead_append, List.mem_append, or_assoc,
    or_assoc]
  refine or_congr_right ⟨.inr, ?_⟩
  rintro (rfl | h)
  · exact mem_trail.1 (self_mem_trail _ b)
  · exact h

theorem mem_trail_singleton {key d : Key} {name : Text} :
    d ∈ trail key [name] ↔ d = key ∨ d = step key name := by
  rw [mem_trail]
  simp only [through, List.mem_singleton]
  rfl

theorem step_cases (key : Key) (name : Text) :
    step key name = key ∨ step key name = parent key ∨ step key name = key ++ [name] := by
  rw [step]
  split
  · exact .inl rfl
  · split
    · exact .inr (.inl rfl)
    · exact .inr (.inr rfl)

theorem exists_append_step {key : Key} {first : Text} {rest : List Text} (name : Text) :
    ∃ more, step (key ++ first :: rest) name = key ++ more := by
  rcases step_cases (key ++ first :: rest) name with h | h | h
  · exact ⟨_, h⟩
  · rw [h, parent]
    split
    · exact ⟨_, rfl⟩
    · split
      · exact ⟨first :: rest ++ [Path.above], List.append_assoc ..⟩
      · exact ⟨_, List.dropLast_append_of_ne_nil (by simp)⟩
  · exact ⟨first :: rest ++ [name], h.trans (List.append_assoc ..)⟩

theorem exists_of_mem_through {key d : Key} {names : List Text} (h : d ∈ through key names) :
    ∃ before after, names = before ++ after ∧ lead key before = d := by
  induction names generalizing key with
  | nil => cases h
  | cons name rest ih =>
    rcases List.mem_cons.1 h with rfl | h
    · exact ⟨[], name :: rest, rfl, rfl⟩
    · obtain ⟨before, after, rfl, hlead⟩ := ih h
      exact ⟨name :: before, after, rfl, hlead⟩

theorem mem_through_of_lead {key top : Key} {more names : List Text} (hmore : more ≠ [])
    (hkey : ∃ low, key = top ++ more ++ low) (hlead : lead key names = top) :
    top ++ more ∈ through key names := by
  induction names generalizing key with
  | nil =>
    obtain ⟨low, rfl⟩ := hkey
    have hlength := congrArg List.length (show top ++ more ++ low = top from hlead)
    have hpos := List.length_pos_iff.2 hmore
    simp only [List.length_append] at hlength
    omega
  | cons name rest ih =>
    obtain ⟨low, rfl⟩ := hkey
    cases low with
    | nil =>
      rw [List.append_nil]
      exact List.mem_cons_self
    | cons first low =>
      exact List.mem_cons_of_mem _ (ih (exists_append_step name) hlead)

theorem not_isAnchor_concat {name : Text} (hname : Path.isName name) (h : name ≠ Path.above)
    (key : Key) : isAnchor (key ++ [name]) = false := by
  have hroot : key ++ [name] ≠ [systemRoot] := by
    intro he
    obtain ⟨_, hlast⟩ := List.append_inj' (show key ++ [name] = [] ++ [systemRoot] from he) rfl
    have hslash : name = [Path.slash] := List.singleton_inj.1 hlast
    rw [hslash] at hname
    exact absurd hname (by decide)
  simp [isAnchor, hroot, h]

end Key

namespace Path

def Descend (names : List Text) : Prop := ∀ name ∈ names, isName name ∧ name ≠ above

end Path

namespace Key

theorem lead_of_descend {names : List Text} (h : Path.Descend names) (key : Key) :
    lead key names = key ++ names := by
  induction names generalizing key with
  | nil => simp [lead]
  | cons name rest ih =>
    obtain ⟨⟨hname, hne⟩, hrest⟩ := List.forall_mem_cons.1 h
    change lead (step key name) rest = _
    rw [step_of_isName hname hne, ih hrest, List.append_assoc]
    rfl

theorem mem_through_of_descend {names : List Text} (h : Path.Descend names) {key d : Key} :
    d ∈ through key names ↔ ∃ i, i < names.length ∧ d = key ++ names.take i := by
  induction names generalizing key with
  | nil => simp [through]
  | cons name rest ih =>
    obtain ⟨⟨hname, hne⟩, hrest⟩ := List.forall_mem_cons.1 h
    rw [through, List.mem_cons, step_of_isName hname hne, ih hrest]
    constructor
    · rintro (rfl | ⟨i, hi, rfl⟩)
      · exact ⟨0, by simp, by simp⟩
      · exact ⟨i + 1, by simpa using hi, by simp⟩
    · rintro ⟨i, hi, rfl⟩
      cases i with
      | zero => exact .inl (by simp)
      | succ i => exact .inr ⟨i, by simpa using hi, by simp⟩

end Key

namespace Path

def place (p : Path) : Key := Key.lead p.start p.names

/-- The keys that the names of a path are looked up at. -/
def way (p : Path) : List Key := Key.through p.start p.names

theorem mem_way_of_append {base : Path} {more low : List Text} (hmore : more ≠ [])
    (h : base.place ++ (more ++ low) ∈ base.way) : base.place ++ more ∈ base.way := by
  obtain ⟨before, after, hnames, hbefore⟩ := Key.exists_of_mem_through h
  have hafter : Key.lead (base.place ++ (more ++ low)) after = base.place := by
    rw [← hbefore, ← Key.lead_append, ← hnames]
    rfl
  have hmem := Key.mem_through_of_lead hmore ⟨low, (List.append_assoc ..).symm⟩ hafter
  rw [way, hnames, Key.through_append, hbefore]
  exact List.mem_append_right _ hmem

/-- A path leads on from another one, down by some names more. -/
structure LeadsOn (p base : Path) (more : List Text) : Prop where
  leading : p.leading = base.leading
  names : p.names = base.names ++ more
  descend : Descend more

/-- The key of the first names below a path. -/
def station (base : Path) (names : List Text) (i : Nat) : Key := base.place ++ names.take i

variable {p base : Path} {names : List Text}

theorem LeadsOn.start_eq (h : p.LeadsOn base names) : p.start = base.start := by
  rw [start, start, h.leading]

theorem LeadsOn.place_eq (h : p.LeadsOn base names) : p.place = base.place ++ names := by
  rw [place, h.start_eq, h.names, Key.lead_append, Key.lead_of_descend h.descend]
  rfl

theorem LeadsOn.mem_way (h : p.LeadsOn base names) {d : Key} :
    d ∈ p.way ↔ d ∈ base.way ∨ ∃ i, i < names.length ∧ d = base.station names i := by
  rw [way, h.start_eq, h.names, Key.through_append, List.mem_append,
    Key.mem_through_of_descend h.descend]
  rfl

theorem LeadsOn.parent {last : Text} (h : p.LeadsOn base (names ++ [last])) :
    p.parent.LeadsOn base names where
  leading := h.leading
  names := by
    change p.names.dropLast = _
    rw [h.names, ← List.append_assoc, List.dropLast_concat]
  descend name hname := h.descend name (List.mem_append_left _ hname)

theorem LeadsOn.isBelow_iff (h : p.LeadsOn base names) : p.isBelow base ↔ names ≠ [] := by
  simp [isBelow, h.leading, h.names, List.length_pos_iff]

theorem station_length {i : Nat} (hi : i ≤ names.length) :
    (base.station names i).length = base.place.length + i := by
  simp [station, hi]

theorem station_concat {i : Nat} (hi : i ≤ names.length) (last : Text) :
    base.station (names ++ [last]) i = base.station names i := by
  rw [station, station, List.take_append_of_le_length hi]

theorem station_not_mem_way (hp : base.IsPlain) {i : Nat} (h0 : 0 < i) (hi : i ≤ names.length) :
    base.station names i ∉ base.way := by
  intro hmem
  rw [way, Key.mem_through_of_descend hp.names] at hmem
  obtain ⟨j, hj, he⟩ := hmem
  have hlength := congrArg List.length he
  rw [station_length hi, place, Key.lead_of_descend hp.names] at hlength
  simp only [List.length_append, List.length_take] at hlength
  omega

end Path

namespace WrittenPath

/-- Git writes the path of a file so: names between slashes, each of which leads down. -/
def IsRepositoryPath (path : Text) : Prop := Path.Descend (steps path)

instance (path : Text) : Decidable (IsRepositoryPath path) :=
  inferInstanceAs (Decidable (∀ name ∈ steps path, _ ∧ _))

theorem IsRepositoryPath.leadsOn {path : Text} (h : IsRepositoryPath path) (base : Path) :
    (base.child path).LeadsOn base (steps path) := by
  have hhead : path.takeWhile (· = Path.slash) = [] := by
    cases path with
    | nil => rfl
    | cons c rest =>
      refine List.takeWhile_cons_of_neg ?_
      rw [decide_eq_true_eq]
      rintro rfl
      have hempty : ([] : Text) ∈ steps (Path.slash :: rest) := by
        rw [steps, List.splitOn_cons_eq_if_modifyHead, if_pos (by rfl)]
        exact List.mem_cons_self
      exact absurd (h [] hempty).1 (by decide)
  have hleading : (Path.ofText path).leading = 0 := by
    change Path.leadingOf (path.takeWhile (· = Path.slash)).length = 0
    rw [hhead]
    rfl
  have hnames : (Path.ofText path).names = steps path :=
    List.filter_eq_self.2 fun name hname => (h name hname).1
  rw [Path.child, if_pos hleading]
  exact ⟨rfl, congrArg (base.names ++ ·) hnames, h⟩

theorem steps_ne_nil (path : Text) : steps path ≠ [] := List.splitOn_ne_nil _ _

end WrittenPath

namespace FileTree

variable {t : FileTree} {key k : Key} {names : List Text}

theorem follow_eq_ok_iff :
    t.follow key names = .ok k ↔
      (∀ d ∈ Key.through key names, t.find d = some .directory) ∧ k = Key.lead key names := by
  induction names generalizing key with
  | nil =>
    simp only [follow, Except.ok.injEq, Key.through, Key.lead, List.foldl_nil]
    exact ⟨fun h => ⟨by simp, h.symm⟩, fun h => h.2.symm⟩
  | cons name rest ih =>
    rw [follow, Key.through, List.forall_mem_cons]
    cases h : t.find key with
    | none => simp
    | some e =>
      cases e with
      | file content => simp
      | directory =>
        dsimp only
        rw [ih]
        simp only [true_and]
        rfl

/-- Where no file stands on the way, names lead to their key or to where nothing stands yet. -/
theorem follow_cases (h : ∀ d ∈ Key.through key names, ∀ content, t.find d ≠ some (.file content)) :
    t.follow key names = .ok (Key.lead key names) ∨ t.follow key names = .error .notFound := by
  induction names generalizing key with
  | nil => exact .inl rfl
  | cons name rest ih =>
    obtain ⟨hkey, hrest⟩ := List.forall_mem_cons.1 h
    rw [follow]
    split
    · exact .inr rfl
    · rename_i content hfile
      exact absurd hfile (hkey content)
    · exact ih hrest

variable {p : Path}

theorem locate_eq_ok_iff :
    t.locate p.toText = .ok k ↔ (∀ d ∈ p.way, t.find d = some .directory) ∧ k = p.place := by
  rw [locate_toText]
  exact follow_eq_ok_iff

theorem hasNothingBelow_iff (hkey : Key.isAnchor key = false) :
    t.hasNothingBelow key ↔ ∀ name, t.find (key ++ [name]) = none := by
  constructor
  · intro h name
    exact find_below_of_hasNothingBelow hkey h name
  · intro h
    apply List.all_eq_true.2
    rintro ⟨k, e⟩ hx
    rw [decide_eq_true_eq]
    rintro rfl
    have hne : k ≠ [] := by
      rintro rfl
      exact Bool.noConfusion hkey
    have hfree := h (k.getLast hne)
    rw [List.dropLast_concat_getLast hne, find, entryAt] at hfree
    split at hfree
    · cases hfree
    · -- An entry of the list is found under its key, if perhaps another one.
      have hlookup := List.lookup_eq_none_iff.1 hfree (k, e) hx
      simp at hlookup

theorem steps_toText_getLast? (h : p.names ≠ []) :
    (WrittenPath.steps p.toText).getLast? = p.names.getLast? := by
  have hnone : ¬(p.leading = 0 ∧ p.names = []) := fun hn => h hn.2
  have hsteps : WrittenPath.steps ([Path.slash].intercalate p.names) = p.names :=
    List.splitOn_intercalate _ p.not_mem_slash h
  rw [Path.toText, if_neg hnone, Path.steps_slashes, hsteps, List.getLast?_append_of_ne_nil _ h]

/-- Removing a directory by a path whose way is there depends only on what stands in it. -/
theorem rmdir?_cases {front : List Text} {last : Text} (hnames : p.names = front ++ [last])
    (hlast : last ≠ Path.above) (hway : ∀ d ∈ p.way, t.find d = some .directory)
    (hplace : t.find p.place = some .directory) (hkey : Key.isAnchor p.place = false) :
    (∃ t', t.rmdir? p.toText = some t' ∧ (∀ name, t.find (p.place ++ [name]) = none) ∧
        ∀ k, t'.find k = if k = p.place then none else t.find k) ∨
      t.rmdir? p.toText = none ∧ ∃ name, t.find (p.place ++ [name]) ≠ none := by
  have hne : p.names ≠ [] := by simp [hnames]
  have hend : (WrittenPath.steps p.toText).getLast? ≠ some Path.above := by
    rw [steps_toText_getLast? hne, hnames]
    simpa using hlast
  have hlocate : t.locate p.toText = .ok p.place := locate_eq_ok_iff.2 ⟨hway, rfl⟩
  cases hr : t.rmdir? p.toText with
  | some t' =>
    obtain ⟨key, hl, _, _, hbelow, hfind⟩ := find_of_rmdir? hr
    obtain rfl : p.place = key := Except.ok.inj (hlocate.symm.trans hl)
    exact .inl ⟨t', rfl, hbelow, hfind⟩
  | none =>
    refine .inr ⟨rfl, ?_⟩
    by_contra hall
    push Not at hall
    rw [rmdir?, if_neg hend, hlocate] at hr
    dsimp only at hr
    rw [dif_pos ⟨hkey, hplace, (hasNothingBelow_iff hkey).2 hall⟩] at hr
    cases hr

theorem rmdir?_of_missing {d : Key} (hd : d ∈ p.way ∨ d = p.place)
    (h : t.find d ≠ some .directory) : t.rmdir? p.toText = none := by
  cases hr : t.rmdir? p.toText with
  | none => rfl
  | some t' =>
    obtain ⟨key, hl, _, hplace, _⟩ := find_of_rmdir? hr
    obtain ⟨hway, rfl⟩ := locate_eq_ok_iff.1 hl
    rcases hd with hd | rfl
    · exact absurd (hway d hd) h
    · exact absurd hplace h

end FileTree

end CommitGate
