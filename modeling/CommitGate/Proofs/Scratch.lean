import CommitGate.Proofs.Cleanup
import CommitGate.Proofs.Deposit

/-! The scratch directory between two copies. It holds the lint log and, where its own path leads through
directories below it, perhaps some of these; nothing else. A copy that is put into it and removed again
leaves it so, and a check changes no more than what the log says. -/
namespace CommitGate

open Session

/-- A key strictly below the one that a path comes to, by a name of its own. -/
def Path.Within (base : Path) (k : Key) : Prop :=
  ∃ name rest, isName name ∧ name ≠ above ∧ k = base.place ++ name :: rest

namespace Gate

open Check

def logKey (scratch : Path) : Key := scratch.place ++ [lintLogName]

theorem logKey_length (scratch : Path) : (logKey scratch).length = scratch.place.length + 1 := by
  simp [logKey]

/-- The scratch directory is there, and holds the lint log, directories that its path leads through, and
entries on the way of some names. -/
structure Holds (scratch : Path) (names : List Text) (t : FileTree) : Prop where
  place : t.find scratch.place = some .directory
  way : ∀ d ∈ scratch.way,
    t.find d = some .directory ∨ t.find d = none ∧ scratch.Within d
  log : t.IsFile (logKey scratch)
  bare : ∀ k, scratch.Within k → t.find k ≠ none → k = logKey scratch ∨ k ∈ scratch.way ∨
    ∃ i, 0 < i ∧ i ≤ names.length ∧ k = scratch.station names i

/-- The scratch directory as it is between two copies. -/
abbrev Tidy (scratch : Path) (t : FileTree) : Prop := Holds scratch [] t

def AtMostLog (scratch : Path) (t : FileTree) : Prop :=
  ∀ k, scratch.Within k → t.find k ≠ none → k = logKey scratch

structure SameButLog (scratch : Path) (t t' : FileTree) : Prop where
  log : t'.IsFile (logKey scratch)
  kept : ∀ k, k ≠ logKey scratch → t'.find k = t.find k

variable {scratch : Path} {t t' : FileTree} {path : Text} {content : Bytes} {d : Key}

theorem SameButLog.refl (h : t.IsFile (logKey scratch)) : SameButLog scratch t t :=
  ⟨h, fun _ _ => rfl⟩

theorem ne_logKey_of_directory (hlog : t.IsFile (logKey scratch))
    (hd : t.find d = some .directory) : d ≠ logKey scratch := by
  rintro rfl
  obtain ⟨content, hc⟩ := hlog
  rw [hd] at hc
  cases hc

theorem SameButLog.directory_iff (h : SameButLog scratch t t') (hlog : t.IsFile (logKey scratch)) :
    t'.find d = some .directory ↔ t.find d = some .directory := by
  constructor
  · intro hd
    rwa [h.kept d (ne_logKey_of_directory h.log hd)] at hd
  · intro hd
    rwa [h.kept d (ne_logKey_of_directory hlog hd)]

theorem SameButLog.hasDirectory_iff (h : SameButLog scratch t t')
    (hlog : t.IsFile (logKey scratch)) {p : Path} : t'.HasDirectory p ↔ t.HasDirectory p := by
  constructor
  · exact fun hp => ⟨fun d hd => (h.directory_iff hlog).1 (hp.way d hd),
      (h.directory_iff hlog).1 hp.place⟩
  · exact fun hp => ⟨fun d hd => (h.directory_iff hlog).2 (hp.way d hd),
      (h.directory_iff hlog).2 hp.place⟩

theorem Holds.sameButLog {names : List Text} (h : Holds scratch names t)
    (hsame : SameButLog scratch t t') : Holds scratch names t' where
  place := by rw [hsame.kept _ (ne_logKey_of_directory h.log h.place), h.place]
  way d hd := by
    have hne : d ≠ logKey scratch := by
      obtain ⟨content, hc⟩ := h.log
      rintro rfl
      rcases h.way _ hd with he | ⟨he, _⟩ <;> cases he.symm.trans hc
    rw [hsame.kept d hne]
    exact h.way d hd
  log := hsame.log
  bare k hk hthere := by
    by_cases he : k = logKey scratch
    · exact .inl he
    · rw [hsame.kept k he] at hthere
      exact h.bare k hk hthere

theorem Tidy.of_find (h : Tidy scratch t) (hsame : ∀ k, t'.find k = t.find k) : Tidy scratch t' :=
  h.sameButLog ⟨by rw [FileTree.IsFile, hsame]; exact h.log, fun k _ => hsame k⟩

theorem Tidy.own (h : Tidy scratch t) {k : Key} (hk : scratch.Within k) (hthere : t.find k ≠ none) :
    k = logKey scratch ∨ k ∈ scratch.way := by
  rcases h.bare k hk hthere with he | he | ⟨i, h0, hi, _⟩
  · exact .inl he
  · exact .inr he
  · rw [List.length_nil] at hi
    omega

theorem Tidy.holds (h : Tidy scratch t) (names : List Text) : Holds scratch names t where
  place := h.place
  way := h.way
  log := h.log
  bare k hk hthere := by
    rcases h.own hk hthere with he | he
    · exact .inl he
    · exact .inr (.inl he)

theorem lintLog_leadsOn (scratch : Path) :
    (scratch.child lintLogName).LeadsOn scratch [lintLogName] := by
  have hsteps : WrittenPath.steps lintLogName = [lintLogName] := by decide
  have hpath : WrittenPath.IsRepositoryPath lintLogName := by decide
  rw [← hsteps]
  exact hpath.leadsOn scratch

theorem locate_lintLog (h : t.HasDirectory scratch) :
    t.locate (scratch.child lintLogName).toText = .ok (logKey scratch) := by
  have hlog := lintLog_leadsOn scratch
  rw [FileTree.locate_eq_ok_iff, hlog.place_eq]
  refine ⟨fun d hd => ?_, rfl⟩
  rcases hlog.mem_way.1 hd with hd | ⟨i, hi, rfl⟩
  · exact h.way d hd
  · obtain rfl : i = 0 := by simpa using hi
    simpa [Path.station] using h.place

theorem read_nothing {x : Text} {key : Key} (h : t.locate x = .error .notFound ∨
    t.locate x = .ok key ∧ t.find key = none) : t.read x = .error ⟨.notFound, x⟩ := by
  rw [FileTree.read]
  rcases h with hl | ⟨hl, hnone⟩
  · rw [hl]
  · rw [hl]
    dsimp only
    rw [hnone]

theorem exists_append (h : t.HasDirectory scratch) (hfree : t.find (logKey scratch) ≠ some .directory)
    (content : Bytes) :
    ∃ t' written, t.append (scratch.child lintLogName).toText content = .ok t' ∧
      ∀ k, t'.find k = if k = logKey scratch then some (.file written) else t.find k := by
  have hl := locate_lintLog h
  have hparent : t.find (logKey scratch).dropLast = some .directory := by
    rw [logKey, List.dropLast_concat, h.place]
  have hwrite : ∀ written, ∃ t', t.write (scratch.child lintLogName).toText written = .ok t' ∧
      ∀ k, t'.find k = if k = logKey scratch then some (.file written) else t.find k := by
    intro written
    obtain ⟨t', hw⟩ := FileTree.write_of_locate hl hfree hparent written
    obtain ⟨key, hl', _, hfind⟩ := FileTree.find_of_write hw
    obtain rfl := Except.ok.inj (hl.symm.trans hl')
    exact ⟨t', hw, hfind⟩
  cases hfind : t.find (logKey scratch) with
  | none =>
    obtain ⟨t', hw, hkept⟩ := hwrite content
    refine ⟨t', content, ?_, hkept⟩
    rw [FileTree.append, read_nothing (.inr ⟨hl, hfind⟩)]
    exact hw
  | some e =>
    cases e with
    | directory => exact absurd hfind hfree
    | file old =>
      obtain ⟨t', hw, hkept⟩ := hwrite (old ++ content)
      refine ⟨t', old ++ content, ?_, hkept⟩
      rw [FileTree.append, FileTree.read_of_find hl hfind]
      exact hw

theorem append_lintLog (h : t.HasDirectory scratch) (hlog : t.IsFile (logKey scratch))
    (content : Bytes) :
    ∃ t', t.append (scratch.child lintLogName).toText content = .ok t' ∧ SameButLog scratch t t' := by
  obtain ⟨old, hold⟩ := hlog
  obtain ⟨t', written, happend, hfind⟩ := exists_append h (by simp [hold]) content
  exact ⟨t', happend, ⟨written, by rw [hfind, if_pos rfl]⟩, fun k hk => by rw [hfind, if_neg hk]⟩

/-- A path that does not lead to the lint log or below it. -/
def ApartFromLog (path : Text) : Prop := (WrittenPath.steps path).head? ≠ some lintLogName

instance (path : Text) : Decidable (ApartFromLog path) := inferInstanceAs (Decidable (_ ≠ _))

theorem station_append_ne_logKey {names : List Text} (hne : names.head? ≠ some lintLogName) {i : Nat}
    (h0 : 0 < i) (hi : i ≤ names.length) (more : List Text) :
    scratch.station names i ++ more ≠ logKey scratch := by
  intro he
  rw [Path.station, logKey, List.append_assoc] at he
  have htail := List.append_cancel_left he
  cases names with
  | nil => simp at hi; omega
  | cons first rest =>
    obtain ⟨i, rfl⟩ := Nat.exists_eq_succ_of_ne_zero (by omega : i ≠ 0)
    rw [List.take_succ_cons, List.cons_append, List.cons.injEq] at htail
    exact hne (by rw [htail.1]; rfl)

theorem station_ne_logKey {names : List Text} (hne : names.head? ≠ some lintLogName) {i : Nat}
    (h0 : 0 < i) (hi : i ≤ names.length) : scratch.station names i ≠ logKey scratch := by
  rw [← List.append_nil (scratch.station names i)]
  exact station_append_ne_logKey hne h0 hi []

section Copy

variable {names : List Text} {copy : Path} {t₁ t₂ tree : FileTree}

theorem within_station_append (hnames : Path.Descend names) {i : Nat} (h0 : 0 < i) (hi : i ≤ names.length)
    (more : List Text) : scratch.Within (scratch.station names i ++ more) := by
  cases names with
  | nil => simp at hi; omega
  | cons first rest =>
    obtain ⟨i, rfl⟩ := Nat.exists_eq_succ_of_ne_zero (by omega : i ≠ 0)
    obtain ⟨hfirst, habove⟩ := hnames first List.mem_cons_self
    refine ⟨first, rest.take i ++ more, hfirst, habove, ?_⟩
    rw [Path.station, List.take_succ_cons, List.append_assoc]
    rfl

theorem within_station (hnames : Path.Descend names) {i : Nat} (h0 : 0 < i) (hi : i ≤ names.length) :
    scratch.Within (scratch.station names i) := by
  rw [← List.append_nil (scratch.station names i)]
  exact within_station_append hnames h0 hi []

theorem not_within_place (scratch : Path) : ¬scratch.Within scratch.place := by
  rintro ⟨name, rest, _, _, he⟩
  have hlength := congrArg List.length he
  simp at hlength

variable (hcopy : copy.LeadsOn scratch names) (hne : names ≠ [])
  (hlogName : names.head? ≠ some lintLogName) (hoff : copy.place ∉ scratch.way)

include hcopy in
theorem place_eq_station : copy.place = scratch.station names names.length := by
  rw [hcopy.place_eq, Path.station, List.take_length]

include hcopy hlogName in
theorem Tidy.way_free (h : Tidy scratch t) :
    ∀ d ∈ copy.way, ∀ content, t.find d ≠ some (.file content) := by
  have hscratch : ∀ d ∈ scratch.way, ∀ content, t.find d ≠ some (.file content) := by
    intro d hd content hfile
    rcases h.way d hd with he | ⟨he, _⟩ <;> cases he.symm.trans hfile
  intro d hd content hfile
  rcases hcopy.mem_way.1 hd with hd | ⟨i, hi, rfl⟩
  · exact hscratch d hd content hfile
  · by_cases h0 : i = 0
    · subst h0
      rw [Path.station, List.take_zero, List.append_nil, h.place] at hfile
      cases hfile
    · have hwithin : scratch.Within (scratch.station names i) :=
        within_station hcopy.descend (by omega) (by omega)
      rcases h.own hwithin (by simp [hfile]) with he | he
      · exact station_ne_logKey hlogName (by omega) (by omega) he
      · exact hscratch _ he content hfile

include hcopy hne hlogName hoff in
theorem Tidy.copy_free (h : Tidy scratch t) : t.find copy.place = none := by
  by_contra hthere
  have hpos := List.length_pos_iff.2 hne
  rw [place_eq_station hcopy] at hthere hoff
  rcases h.own (within_station hcopy.descend hpos le_rfl) hthere with he | he
  · exact station_ne_logKey hlogName hpos le_rfl he
  · exact hoff he

include hcopy hoff in
theorem place_not_mem_way : copy.place ∉ copy.way := by
  intro hmem
  rcases hcopy.mem_way.1 hmem with hmem | ⟨i, hi, he⟩
  · exact hoff hmem
  · have hlength := congrArg List.length he
    rw [place_eq_station hcopy, Path.station_length le_rfl, Path.station_length (by omega)] at hlength
    omega

include hcopy hne in
theorem hasDirectory_of_way (h : ∀ d ∈ copy.way, t.find d = some .directory) :
    t.HasDirectory scratch where
  way d hd := h d (hcopy.mem_way.2 (.inl hd))
  place := by
    apply h
    exact hcopy.mem_way.2 (.inr ⟨0, List.length_pos_iff.2 hne, by simp [Path.station]⟩)

/-- The scratch directory once a copy may have been put into it. Without one it is tidy; with one, all
directories on the way to the copy are there. -/
structure Filled (scratch : Path) (names : List Text) (copy : Path) (t : FileTree) : Prop where
  holds : Holds scratch names t
  reached : Tidy scratch t ∨ ∀ d ∈ copy.way, t.find d = some .directory

theorem Tidy.filled (h : Tidy scratch t) (names : List Text) (copy : Path) :
    Filled scratch names copy t := ⟨h.holds names, .inl h⟩

theorem Filled.sameButLog (h : Filled scratch names copy t) (hsame : SameButLog scratch t t') :
    Filled scratch names copy t' where
  holds := h.holds.sameButLog hsame
  reached := h.reached.imp (Holds.sameButLog · hsame)
    fun hway d hd => (hsame.directory_iff h.holds.log).2 (hway d hd)

include hcopy hne hlogName in
theorem Tidy.filled_of_laid (h : Tidy scratch t) (hlaid : t.Laid t₁ copy) :
    Filled scratch names copy t₁ where
  holds := {
    place := (hasDirectory_of_way hcopy hne hlaid.way).place
    way := fun d hd => .inl ((hasDirectory_of_way hcopy hne hlaid.way).way d hd)
    log := by
      obtain ⟨log, hlog⟩ := h.log
      refine ⟨log, ?_⟩
      have hstation : ∀ i, i ≤ names.length → scratch.station names i ≠ logKey scratch := by
        intro i hi he
        by_cases h0 : i = 0
        · subst h0
          have hlength := congrArg List.length he
          simp [Path.station, logKey] at hlength
        · exact station_ne_logKey hlogName (by omega) hi he
      rw [hlaid.kept, hlog]
      · rw [place_eq_station hcopy]
        exact (hstation _ le_rfl).symm
      · intro hmem
        rcases hcopy.mem_way.1 hmem with hmem | ⟨i, hi, he⟩
        · rcases h.way _ hmem with he | ⟨he, _⟩ <;> cases he.symm.trans hlog
        · exact hstation i (by omega) he.symm
    bare := by
      intro k hk hthere
      by_cases hplace : k = copy.place
      · refine .inr (.inr ⟨names.length, List.length_pos_iff.2 hne, le_rfl, ?_⟩)
        rw [hplace, place_eq_station hcopy]
      · by_cases hway : k ∈ copy.way
        · rcases hcopy.mem_way.1 hway with hway | ⟨i, hi, rfl⟩
          · exact .inr (.inl hway)
          · refine .inr (.inr ⟨i, ?_, by omega, rfl⟩)
            by_contra h0
            obtain rfl : i = 0 := by omega
            rw [Path.station, List.take_zero, List.append_nil] at hk
            exact not_within_place scratch hk
        · rw [hlaid.kept k hplace hway] at hthere
          exact (h.holds names).bare k hk hthere }
  reached := .inr hlaid.way

/-- Every directory on the way to a copy goes with it, unless the path of the scratch directory leads
through that one. -/
theorem goes_station (h : Holds scratch names t) (hnames : Path.Descend names)
    (hlogName : names.head? ≠ some lintLogName) {i : Nat} (h0 : 0 < i) (hi : i ≤ names.length)
    (hoff : scratch.station names i ∉ scratch.way) :
    Staged.Goes t scratch names (scratch.station names i) := by
  have hsplit : ∀ j, i ≤ j → scratch.station names j =
      scratch.place ++ (names.take i ++ (names.take j).drop i) := by
    intro j hij
    have htake : (names.take j).take i = names.take i := by
      rw [List.take_take, Nat.min_eq_left hij]
    rw [Path.station, ← htake, List.take_append_drop]
  have hmore : names.take i ≠ [] := by
    rw [← List.length_pos_iff, List.length_take]
    omega
  have hbelow : ∀ j, i ≤ j → ∀ low, scratch.station names j ++ low ∉ scratch.way := by
    intro j hij low hmem
    rw [hsplit j hij, List.append_assoc, List.append_assoc] at hmem
    exact hoff (Path.mem_way_of_append hmore hmem)
  refine ⟨i, h0, hi, ?_, ?_, rfl⟩
  · intro j hij hj name hthere
    rcases h.bare _ (within_station_append hnames (by omega) (by omega) [name]) hthere with
      he | he | ⟨m, hm0, hm, he⟩
    · exact absurd he (station_append_ne_logKey hlogName (by omega) (by omega) [name])
    · exact absurd he (hbelow j hij [name])
    · have hlength := congrArg List.length he
      rw [List.length_append, Path.station_length (by omega), Path.station_length hm] at hlength
      obtain rfl : j + 1 = m := by simpa [Nat.add_assoc] using hlength
      exact he
  · intro j hij hj hmem
    rw [← List.append_nil (scratch.station names j)] at hmem
    exact hbelow j (by omega) [] hmem

theorem tidy_of_lacks (h : Holds scratch names t) (hnames : Path.Descend names)
    (hlogName : names.head? ≠ some lintLogName)
    (hlacks : tree.Lacks t (Staged.Goes t scratch names)) : Tidy scratch tree where
  place := by
    rw [hlacks.kept, h.place]
    rintro ⟨i, h0, hi, _, _, he⟩
    apply not_within_place scratch
    rw [he]
    exact within_station hnames h0 hi
  way d hd := by
    by_cases hgoes : Staged.Goes t scratch names d
    · refine .inr ⟨hlacks.gone d hgoes, ?_⟩
      obtain ⟨i, h0, hi, _, _, rfl⟩ := hgoes
      exact within_station hnames h0 hi
    · rw [hlacks.kept d hgoes]
      exact h.way d hd
  log := by
    obtain ⟨log, hlog⟩ := h.log
    refine ⟨log, ?_⟩
    rw [hlacks.kept, hlog]
    rintro ⟨i, h0, hi, _, _, he⟩
    exact station_ne_logKey hlogName h0 hi he.symm
  bare k hk hthere := by
    have hstays : ¬Staged.Goes t scratch names k := fun hgoes => hthere (hlacks.gone k hgoes)
    rw [hlacks.kept k hstays] at hthere
    rcases h.bare k hk hthere with he | he | ⟨i, h0, hi, rfl⟩
    · exact .inl he
    · exact .inr (.inl he)
    · refine .inr (.inl ?_)
      by_contra hoff
      exact hstays (goes_station h hnames hlogName h0 hi hoff)

include hcopy hne hlogName hoff in
theorem Tidy.locate_copy (h : Tidy scratch t) : t.locate copy.toText = .error .notFound ∨
    t.locate copy.toText = .ok copy.place ∧ t.find copy.place = none := by
  rw [FileTree.locate_toText]
  rcases FileTree.follow_cases (h.way_free hcopy hlogName) with hf | hf
  · exact .inr ⟨hf, h.copy_free hcopy hne hlogName hoff⟩
  · exact .inl hf

include hcopy hne hlogName in
/-- Whatever is left of a copy can be removed unless it is a directory, and the removal leaves the scratch
directory tidy. -/
theorem Filled.removed (h : Filled scratch names copy t) (hno : ¬t.HasDirectory copy) :
    ∃ tree, Staged.removed copy scratch t = .ok tree ∧ Tidy scratch tree := by
  obtain ⟨front, last, rfl⟩ := (List.eq_nil_or_concat' names).resolve_left hne
  by_cases hway : ∀ d ∈ copy.way, t.find d = some .directory
  · have hfile : t.find copy.place ≠ some .directory := fun hd => hno ⟨hway, hd⟩
    obtain ⟨tree, hremoved, hlacks⟩ := Staged.removed_lacks hcopy hway hfile
    exact ⟨tree, hremoved, tidy_of_lacks h.holds hcopy.descend hlogName hlacks⟩
  · have htidy := h.reached.resolve_right hway
    push Not at hway
    obtain ⟨d, hd, hmissing⟩ := hway
    have hnowhere : t.locate copy.toText = .error .notFound := by
      rw [FileTree.locate_toText]
      rcases FileTree.follow_cases (htidy.way_free hcopy hlogName) with hf | hf
      · exact absurd ((FileTree.follow_eq_ok_iff.1 hf).1 d hd) hmissing
      · exact hf
    refine ⟨t, ?_, htidy⟩
    rw [Staged.removed, FileTree.unlink, hnowhere]
    exact congrArg _ (Staged.prune_of_missing hcopy hd hmissing)

theorem removed_directory (h : t.HasDirectory copy) (scratch : Path) :
    ∃ refusal, Staged.removed copy scratch t = .error refusal := by
  refine ⟨⟨.isADirectory, copy.toText⟩, ?_⟩
  have hunlink : t.unlink copy.toText = .error ⟨.isADirectory, copy.toText⟩ := by
    rw [FileTree.unlink, h.locate]
    dsimp only
    split
    · rename_i hnone
      cases h.place.symm.trans hnone
    · rfl
    · rename_i hfile
      cases h.place.symm.trans hfile
  rw [Staged.removed, hunlink]
  rfl

end Copy

section Prepare

theorem find_of_mkdir_toText {p : Path} (h : t.mkdir p.toText = .ok t') :
    (∀ d ∈ p.way, d = p.place ∨ t.find d = some .directory) ∧
      ∀ k, t'.find k = if k = p.place then some .directory else t.find k := by
  obtain ⟨key, hl, _, hfind⟩ := FileTree.find_of_mkdir h
  obtain ⟨hway, rfl⟩ :=
    (FileTree.locate_eq_ok_way (WrittenPath.withoutEndSlashes_ne_nil p.toText_ne_nil)).1 hl
  rw [WrittenPath.goal_withoutEndSlashes, Path.goal_toText] at hfind
  refine ⟨fun d hd => ?_, hfind⟩
  have htrail := WrittenPath.mem_trail_withoutEndSlashes.2 (Path.mem_trail_toText.2 (.inl hd))
  rw [WrittenPath.mem_trail, WrittenPath.goal_withoutEndSlashes, Path.goal_toText] at htrail
  rcases htrail with hd | hd
  · exact .inr (hway d hd)
  · exact .inl hd

theorem hasDirectory_of_makeDirectory {p : Path}
    (h : FileTree.makeDirectory true p.toText t = .ok () t') : t'.HasDirectory p := by
  rw [FileTree.makeDirectory] at h
  split at h
  · rename_i u hm
    cases h
    obtain ⟨hway, hfind⟩ := find_of_mkdir_toText hm
    constructor
    · intro d hd
      rw [hfind]
      split
      · rfl
      · rename_i hne
        exact (hway d hd).resolve_left hne
    · rw [hfind, if_pos rfl]
  · split at h
    · rename_i hthere
      cases h
      obtain ⟨key, hl, hfind⟩ := FileTree.locate_of_entry hthere.2
      obtain ⟨hway, rfl⟩ := FileTree.locate_eq_ok_iff.1 hl
      exact ⟨hway, hfind⟩
    · cases h

theorem hasDirectory_of_ensureDirectory {p : Path}
    (h : FileTree.ensureDirectory p t = .ok () t') : t'.HasDirectory p := by
  rw [FileTree.ensureDirectory, FileTree.ensureFirst] at h
  dsimp only at h
  split at h
  · rename_i u hm
    cases h
    exact hasDirectory_of_makeDirectory hm
  · split at h
    · split at h
      · exact hasDirectory_of_makeDirectory h
      · cases h
    · cases h

/-- The scratch directory can be made sure of. It then holds at most a lint log, which is a file, and
the directories that its own path leads through. -/
def Usable (scratch : Path) (t : FileTree) : Prop :=
  ∃ t', FileTree.ensureDirectory scratch t = .ok () t' ∧
    t'.find (logKey scratch) ≠ some .directory ∧
    ∀ k, scratch.Within k → t'.find k ≠ none → k = logKey scratch ∨ k ∈ scratch.way

theorem prepare_usable {s : Session} (h : Usable scratch s.tree) :
    ∃ tree, prepare scratch s = .ok () { s with tree } ∧ Tidy scratch tree := by
  obtain ⟨t', hmade, hfree, hbare⟩ := h
  have hdirectory := hasDirectory_of_ensureDirectory hmade
  have hl := locate_lintLog hdirectory
  have hparent : t'.find (logKey scratch).dropLast = some .directory := by
    rw [logKey, List.dropLast_concat]
    exact hdirectory.place
  obtain ⟨tree, hw⟩ := FileTree.write_of_locate hl hfree hparent []
  obtain ⟨key, hl', _, hfind⟩ := FileTree.find_of_write hw
  obtain rfl := Except.ok.inj (hl.symm.trans hl')
  have hkept : ∀ d, t'.find d = some .directory → tree.find d = some .directory := by
    intro d hd
    have hne : d ≠ logKey scratch := by
      rintro rfl
      exact hfree hd
    rw [hfind, if_neg hne, hd]
  have hchange : changeTree (FileTree.ensureDirectory scratch) s = .ok () { s with tree := t' } := by
    simp only [changeTree, hmade]
  refine ⟨tree, ?_, hkept _ hdirectory.place, fun d hd => .inl (hkept d (hdirectory.way d hd)),
    ⟨[], by rw [hfind, if_pos rfl]⟩, ?_⟩
  · rw [prepare, bind_of_ok hchange]
    exact changeTree_ok hw
  · intro k hk hthere
    by_cases he : k = logKey scratch
    · exact .inl he
    · rw [hfind, if_neg he] at hthere
      rcases hbare k hk hthere with he | he
      · exact .inl he
      · exact .inr (.inl he)

theorem makeDirectory_keeps (p : Path) (t : FileTree) {k : Key} (hk : k ≠ p.place) :
    (FileTree.Change.ending (FileTree.makeDirectory true p.toText t)).find k = t.find k := by
  rw [FileTree.makeDirectory]
  cases hm : t.mkdir p.toText with
  | ok t' => exact ((find_of_mkdir_toText hm).2 k).trans (if_neg hk)
  | error fault =>
    dsimp only
    split <;> rfl

theorem ensureFirst_keeps (directories : List Path) (t : FileTree) {k : Key}
    (hk : ∀ p ∈ directories, k ≠ p.place) :
    (FileTree.Change.ending (FileTree.ensureFirst directories t)).find k = t.find k := by
  induction directories generalizing t with
  | nil => rfl
  | cons p above ih =>
    obtain ⟨hp, habove⟩ := List.forall_mem_cons.1 hk
    have hfirst := makeDirectory_keeps p t hp
    rw [FileTree.ensureFirst]
    dsimp only
    cases hm : FileTree.makeDirectory true p.toText t with
    | ok _ t' =>
      rw [hm] at hfirst
      exact hfirst
    | error fault t' =>
      rw [hm] at hfirst
      dsimp only
      split
      · have hrest := ih t' habove
        cases hr : FileTree.ensureFirst above t' with
        | ok _ t'' =>
          rw [hr] at hrest
          exact ((makeDirectory_keeps p t'' hp).trans hrest).trans hfirst
        | error fault' t'' =>
          rw [hr] at hrest
          exact hrest.trans hfirst
      · exact hfirst

theorem nearestAbove_names {p : Path} {count : Nat} (hcount : count ≤ p.names.length) :
    ∀ q ∈ p.nearestAbove count, q.leading = p.leading ∧
      ∃ rest, rest ≠ [] ∧ p.names = q.names ++ rest := by
  induction count generalizing p with
  | zero => simp [Path.nearestAbove]
  | succ count ih =>
    intro q hq
    have hne : p.names ≠ [] := List.length_pos_iff.1 (by omega)
    have hparent : p.names = p.parent.names ++ [p.names.getLast hne] :=
      (List.dropLast_concat_getLast hne).symm
    have hlength : count ≤ p.parent.names.length := by
      rw [hparent, List.length_append, List.length_singleton] at hcount
      omega
    rcases List.mem_cons.1 hq with rfl | hq
    · exact ⟨rfl, _, by simp, hparent⟩
    · obtain ⟨hleading, rest, _, hnames⟩ := ih hlength q hq
      refine ⟨hleading, rest ++ [p.names.getLast hne], by simp, ?_⟩
      rw [← List.append_assoc, ← hnames]
      exact hparent

theorem ancestor_mem_way {p q : Path} (hq : q ∈ p.ancestors) : q.place ∈ p.way := by
  obtain ⟨hleading, rest, hne, hnames⟩ := nearestAbove_names le_rfl q hq
  obtain ⟨next, rest, rfl⟩ := List.exists_cons_of_ne_nil hne
  have hstart : q.start = p.start := by rw [Path.start, Path.start, hleading]
  rw [Path.way, hnames, Key.through_append, List.mem_append, Path.place, hstart]
  exact .inr List.mem_cons_self

theorem ensureDirectory_keeps (hmade : FileTree.ensureDirectory scratch t = .ok () t') {k : Key}
    (hk : scratch.Within k) (hoff : k ∉ scratch.way) : t'.find k = t.find k := by
  have hkept := ensureFirst_keeps (scratch :: scratch.ancestors) t
    (show ∀ q ∈ scratch :: scratch.ancestors, k ≠ q.place by
      intro q hq he
      rcases List.mem_cons.1 hq with rfl | hq
      · exact not_within_place q (he ▸ hk)
      · exact hoff (he ▸ ancestor_mem_way hq))
  rw [FileTree.ensureDirectory] at hmade
  rw [hmade] at hkept
  exact hkept

theorem find_within_of_absent (habsent : t.find scratch.place = none) {k : Key}
    (hk : scratch.Within k) : t.find k = none := by
  obtain ⟨name, rest, _, _, rfl⟩ := hk
  exact FileTree.find_append_none habsent (name :: rest)

theorem atMostLog_of_absent (habsent : t.find scratch.place = none) : AtMostLog scratch t :=
  fun _ hk hthere => absurd (find_within_of_absent habsent hk) hthere

theorem logKey_within (scratch : Path) : scratch.Within (logKey scratch) :=
  ⟨lintLogName, [], by decide, by decide, rfl⟩

theorem usable_of_absent (habsent : t.find scratch.place = none)
    (hlog : logKey scratch ∉ scratch.way)
    (hmade : FileTree.ensureDirectory scratch t = .ok () t') : Usable scratch t := by
  have hbare : ∀ k, scratch.Within k → t'.find k ≠ none → k ∈ scratch.way := by
    intro k hk hthere
    by_contra hoff
    rw [ensureDirectory_keeps hmade hk hoff, find_within_of_absent habsent hk] at hthere
    exact hthere rfl
  refine ⟨t', hmade, ?_, fun k hk hthere => .inr (hbare k hk hthere)⟩
  intro hd
  apply hlog
  exact hbare _ (logKey_within scratch) (by simp [hd])

theorem tidy_of_prepare {s s₀ : Session} (hbare : AtMostLog scratch s.tree)
    (h : prepare scratch s = .ok () s₀) : Tidy scratch s₀.tree := by
  have husable : Usable scratch s.tree := by
    obtain ⟨_, u, hmade, hw⟩ := bind_eq_ok.1 h
    cases hensure : FileTree.ensureDirectory scratch s.tree with
    | error refusal t =>
      simp only [changeTree, hensure] at hmade
      cases hmade
    | ok _ t =>
      simp only [changeTree, hensure] at hmade
      cases hmade
      refine ⟨t, hensure, ?_, fun k hk hthere => ?_⟩
      · intro hd
        cases hwrite : t.write (scratch.child lintLogName).toText [] with
        | error refusal => cases hw.symm.trans (changeTree_error hwrite)
        | ok tree =>
          obtain ⟨key, hl, hfree, _⟩ := FileTree.find_of_write hwrite
          rw [locate_lintLog (hasDirectory_of_ensureDirectory hensure)] at hl
          cases hl
          exact hfree hd
      · by_cases hon : k ∈ scratch.way
        · exact .inr hon
        · rw [ensureDirectory_keeps hensure hk hon] at hthere
          exact .inl (hbare k hk hthere)
  obtain ⟨tree, hprepare, htidy⟩ := prepare_usable husable
  cases h.symm.trans hprepare
  exact htidy

end Prepare

end Gate

end CommitGate
