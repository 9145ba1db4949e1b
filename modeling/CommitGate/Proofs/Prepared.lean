import CommitGate.Proofs.Scratch
import CommitGate.Proofs.Verdict

/-! The preparation of a scratch directory that has been prepared before. Where no file stands in the way, the
directory can be made sure of, and what its own path does not lead through stays as it is. -/
namespace CommitGate

open Session

namespace FileTree

variable {t t' : FileTree} {p : Path}

theorem hasDirectory_of_names_nil (h : p.names = []) (t : FileTree) : t.HasDirectory p where
  way d hd := by
    rw [Path.way, h] at hd
    cases hd
  place := by
    rw [Path.place, h]
    exact t.find_start p

theorem withoutEndSlashes_toText (h : p.names ≠ []) :
    WrittenPath.withoutEndSlashes p.toText = p.toText := by
  rcases WrittenPath.withoutEndSlashes_cases p.toText with he | ⟨_, n, hn⟩
  · exact he
  cases n with
  | zero => exact (hn.trans (List.append_nil _)).symm
  | succ n =>
    have hlast := steps_toText_getLast? h
    rw [hn, WrittenPath.steps_append_slashes, List.replicate_succ', ← List.append_assoc,
      List.getLast?_concat] at hlast
    exact absurd rfl (p.ne_nil_of_mem [] (List.mem_of_getLast? hlast.symm))

theorem parent_names (h : p.names ≠ []) : ∃ last, p.names = p.parent.names ++ [last] :=
  ⟨_, (List.dropLast_concat_getLast h).symm⟩

theorem way_eq_parent (h : p.names ≠ []) : p.way = p.parent.way ++ [p.parent.place] := by
  obtain ⟨last, hlast⟩ := parent_names h
  rw [Path.way, hlast, Key.through_append]
  rfl

theorem HasDirectory.way_below (h : t.HasDirectory p.parent) (hnames : p.names ≠ []) :
    ∀ d ∈ p.way, t.find d = some .directory := by
  rw [way_eq_parent hnames]
  exact List.forall_mem_append.2 ⟨h.way, List.forall_mem_singleton.2 h.place⟩

theorem HasDirectory.ensured (h : t.HasDirectory p) : makeDirectory true p.toText t = .ok () t :=
  (makeDirectory_of_entry true (hasDirectory_iff_entry.1 h) p.toText_ne_nil).eq_ok

theorem makeDirectory_in_parent (hnames : p.names ≠ []) (hparent : t.HasDirectory p.parent)
    (hplace : ∀ content, t.find p.place ≠ some (.file content)) :
    ∃ t', makeDirectory true p.toText t = .ok () t' := by
  have hway := hparent.way_below hnames
  cases hfind : t.find p.place with
  | some e =>
    cases e with
    | file content => exact absurd hfind (hplace content)
    | directory => exact ⟨t, HasDirectory.ensured ⟨hway, hfind⟩⟩
  | none =>
    obtain ⟨last, hlast⟩ := parent_names hnames
    have hstep : p.place = Key.step p.parent.place last := by
      rw [Path.place, hlast, Key.lead_append]
      rfl
    have hbelow : p.place.dropLast = p.parent.place := by
      rcases Key.step_cases p.parent.place last with hs | hs | hs
      · rw [hstep, hs, hparent.place] at hfind
        cases hfind
      · rw [hstep, hs, find_parent hparent.place] at hfind
        cases hfind
      · rw [hstep, hs, List.dropLast_concat]
    have hl : t.locate (WrittenPath.withoutEndSlashes p.toText) = .ok p.place := by
      rw [withoutEndSlashes_toText hnames]
      exact locate_eq_ok_iff.2 ⟨hway, rfl⟩
    obtain ⟨t', hmade⟩ := mkdir_of_locate hl hfind (by rw [hbelow, hparent.place])
    exact ⟨t', by rw [makeDirectory, hmade]⟩

/-- Where no file is in the way, a directory is made, or what it would stand in is missing. -/
theorem makeDirectory_or_missing (hnames : p.names ≠ [])
    (hway : ∀ d ∈ p.way, ∀ content, t.find d ≠ some (.file content))
    (hplace : ∀ content, t.find p.place ≠ some (.file content)) :
    (∃ t', makeDirectory true p.toText t = .ok () t') ∨
      ∃ path, makeDirectory true p.toText t = .error ⟨.notFound, path⟩ t := by
  rcases follow_cases hway with hf | hf
  · rw [← locate_toText] at hf
    refine .inl (makeDirectory_in_parent hnames ?_ hplace)
    have hall := (locate_eq_ok_iff.1 hf).1
    rw [way_eq_parent hnames] at hall
    obtain ⟨hbefore, hlast⟩ := List.forall_mem_append.1 hall
    exact ⟨hbefore, hlast _ (List.mem_singleton_self _)⟩
  · rw [← locate_toText] at hf
    have hentry : t.entry? p.toText = none := by simp only [ entry?, hf]
    have hmkdir : t.mkdir p.toText = .error ⟨.notFound, p.toText⟩ := by
      rw [mkdir, withoutEndSlashes_toText hnames, hf]
    refine .inr ⟨p.toText, ?_⟩
    simp [makeDirectory, hmkdir, hentry]

theorem ancestors_eq_parent (h : p.names ≠ []) : p.ancestors = p.parent :: p.parent.ancestors := by
  obtain ⟨last, hlast⟩ := parent_names h
  rw [Path.ancestors, hlast, List.length_append]
  rfl

theorem ensureDirectory_ok (hway : ∀ d ∈ p.way, ∀ content, t.find d ≠ some (.file content))
    (hplace : ∀ content, t.find p.place ≠ some (.file content)) :
    ∃ t', ensureDirectory p t = .ok () t' := by
  -- On the number of names: the path above has one less.
  induction hn : p.names.length generalizing p with
  | zero =>
    have h := (hasDirectory_of_names_nil (List.length_eq_zero_iff.1 hn) t).ensured
    exact ⟨t, by simp only [ensureDirectory, ensureFirst, h]⟩
  | succ n ih =>
    have hnames : p.names ≠ [] := List.length_pos_iff.1 (by omega)
    rcases makeDirectory_or_missing hnames hway hplace with ⟨t', hmade⟩ | ⟨path, hmissing⟩
    · exact ⟨t', by simp only [ensureDirectory, ensureFirst, hmade]⟩
    · have hway' := hway
      rw [way_eq_parent hnames] at hway'
      obtain ⟨hbefore, hlast⟩ := List.forall_mem_append.1 hway'
      obtain ⟨last, hparent⟩ := parent_names hnames
      obtain ⟨t₁, hensured⟩ := ih hbefore (hlast _ (List.mem_singleton_self _))
        (by simpa [hparent] using hn)
      have hdirectory := Gate.hasDirectory_of_ensureDirectory hensured
      have hplace₁ : ∀ content, t₁.find p.place ≠ some (.file content) := by
        intro content hfile
        by_cases hon : p.place ∈ p.way
        · rw [hdirectory.way_below hnames _ hon] at hfile
          cases hfile
        · have hkept := Gate.ensureFirst_keeps (k := p.place) p.ancestors t
            fun q hq he => hon (he ▸ Gate.ancestor_mem_way hq)
          rw [ancestors_eq_parent hnames, ← ensureDirectory, hensured] at hkept
          exact hplace content (hkept.symm.trans hfile)
      obtain ⟨t', hmade⟩ := makeDirectory_in_parent hnames hdirectory hplace₁
      refine ⟨t', ?_⟩
      rw [ensureDirectory] at hensured ⊢
      rw [ensureFirst, ancestors_eq_parent hnames]
      simp [hmissing, hensured, hmade]

end FileTree

namespace Gate

open Check

variable {scratch : Path} {s s₀ : Session} {t t' : FileTree} {k : Key}

theorem ensureDirectory_elsewhere (h : FileTree.ensureDirectory scratch t = .ok () t')
    (hplace : k ≠ scratch.place) (hway : k ∉ scratch.way) : t'.find k = t.find k := by
  have hkept := ensureFirst_keeps (k := k) (scratch :: scratch.ancestors) t fun q hq he => by
    rcases List.mem_cons.1 hq with rfl | hq
    · exact hplace he
    · exact hway (he ▸ ancestor_mem_way hq)
  rw [← FileTree.ensureDirectory, h] at hkept
  exact hkept

theorem prepare_steps (h : prepare scratch s = .ok () s₀) :
    ∃ t, FileTree.ensureDirectory scratch s.tree = .ok () t ∧
      t.find (logKey scratch) ≠ some .directory ∧
      ∀ k, s₀.tree.find k = if k = logKey scratch then some (.file []) else t.find k := by
  obtain ⟨_, u, hensured, hlog⟩ := bind_eq_ok.1 h
  cases hensure : FileTree.ensureDirectory scratch s.tree with
  | error refusal t =>
    simp only [changeTree, hensure] at hensured
    cases hensured
  | ok _ t =>
    simp only [changeTree, hensure] at hensured
    cases hensured
    cases hwrite : t.write (scratch.child lintLogName).toText [] with
    | error refusal => cases hlog.symm.trans (changeTree_error hwrite)
    | ok tree =>
      cases hlog.symm.trans (changeTree_ok hwrite)
      obtain ⟨key, hl, hfree, hfind⟩ := FileTree.find_of_write hwrite
      rw [locate_lintLog (hasDirectory_of_ensureDirectory hensure)] at hl
      cases hl
      exact ⟨t, rfl, hfree, hfind⟩

structure Prepared (scratch : Path) (t : FileTree) : Prop where
  directory : t.HasDirectory scratch
  log : t.find (logKey scratch) = some (.file [])

theorem prepared_of_prepare (h : prepare scratch s = .ok () s₀) : Prepared scratch s₀.tree := by
  obtain ⟨t, hensured, hfree, hfind⟩ := prepare_steps h
  have hdirectory := hasDirectory_of_ensureDirectory hensured
  have hkept : ∀ d, t.find d = some .directory → s₀.tree.find d = some .directory := by
    intro d hd
    have hne : d ≠ logKey scratch := by
      rintro rfl
      exact hfree hd
    rw [hfind, if_neg hne, hd]
  exact ⟨⟨fun d hd => hkept d (hdirectory.way d hd), hkept _ hdirectory.place⟩,
    by rw [hfind, if_pos rfl]⟩

theorem prepare_elsewhere (h : prepare scratch s = .ok () s₀) (hplace : k ≠ scratch.place)
    (hway : k ∉ scratch.way) (hlog : k ≠ logKey scratch) : s₀.tree.find k = s.tree.find k := by
  obtain ⟨t, hensured, _, hfind⟩ := prepare_steps h
  rw [hfind, if_neg hlog, ensureDirectory_elsewhere hensured hplace hway]

/-- A scratch directory between two copies, whatever else it holds. Of the directories on its own way those
within it may be missing, and so may the log. -/
structure Based (scratch : Path) (t : FileTree) : Prop where
  place : t.find scratch.place = some .directory
  way : ∀ d ∈ scratch.way, t.find d = some .directory ∨ t.find d = none ∧ scratch.Within d
  log : t.find (logKey scratch) ≠ some .directory
  off : logKey scratch ∉ scratch.way

theorem logKey_not_mem_way {old : Bytes}
    (hway : ∀ d ∈ scratch.way, t.find d = some .directory ∨ t.find d = none ∧ scratch.Within d)
    (hlog : t.find (logKey scratch) = some (.file old)) : logKey scratch ∉ scratch.way := by
  intro hmem
  rcases hway _ hmem with he | ⟨he, _⟩ <;> cases he.symm.trans hlog

theorem Prepared.based (h : Prepared scratch t) : Based scratch t where
  place := h.directory.place
  way d hd := .inl (h.directory.way d hd)
  log := by simp [h.log]
  off := logKey_not_mem_way (fun d hd => .inl (h.directory.way d hd)) h.log

theorem Based.way_free (h : Based scratch t) :
    ∀ d ∈ scratch.way, ∀ content, t.find d ≠ some (.file content) := by
  intro d hd content hfile
  rcases h.way d hd with he | ⟨he, _⟩ <;> cases he.symm.trans hfile

theorem logKey_ne_place (scratch : Path) : logKey scratch ≠ scratch.place := by
  intro he
  have hwithin := logKey_within scratch
  rw [he] at hwithin
  exact not_within_place scratch hwithin

theorem Based.prepare_ok (h : Based scratch s.tree) : ∃ s₀, prepare scratch s = .ok () s₀ := by
  obtain ⟨t, hensured⟩ := FileTree.ensureDirectory_ok h.way_free fun content hfile => by
    cases h.place.symm.trans hfile
  have hdirectory := hasDirectory_of_ensureDirectory hensured
  have hlog : t.find (logKey scratch) ≠ some .directory := by
    rw [ensureDirectory_elsewhere hensured (logKey_ne_place scratch) h.off]
    exact h.log
  have hparent : t.find (logKey scratch).dropLast = some .directory := by
    rw [logKey, List.dropLast_concat, hdirectory.place]
  obtain ⟨tree, hwrite⟩ :=
    FileTree.write_of_locate (locate_lintLog hdirectory) hlog hparent []
  have hchange : changeTree (FileTree.ensureDirectory scratch) s = .ok () { s with tree := t } := by
    simp only [changeTree, hensured]
  exact ⟨_, (bind_of_ok hchange).trans (changeTree_ok hwrite)⟩

end Gate

end CommitGate
