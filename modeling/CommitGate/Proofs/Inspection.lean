import CommitGate.Proofs.Checkouts
import CommitGate.Proofs.Walk

/-! The inspection of a file from one tidy state of the scratch directory to the next, whatever git and
the linter do. A checkout may leave a file, a directory or nothing, and may fail after that; the check
of the copy touches the log alone; and the removal takes what was left, if it is not a directory. -/
namespace CommitGate

open Session

namespace Gate

open Check

variable {programs : Programs} {linter : Linter} {scratch copy : Path} {path : Text}
  {s s' : Session}

/-- A path as git writes it, which keeps clear of the lint log. -/
structure ClearPath (path : Text) : Prop where
  repository : WrittenPath.IsRepositoryPath path
  apart : ApartFromLog path

theorem clear_agenda {files : List Text} (h : ∀ path ∈ files, IsDue path → ClearPath path) :
    ∀ path ∈ agenda files, ClearPath path :=
  fun path hp => h path (mem_agenda.1 hp).1 (mem_agenda.1 hp).2

theorem clear_stopped {files rest : List Text} {rows : List (Text × Query)}
    (hclear : ∀ path ∈ agenda files, ClearPath path)
    (hfiles : agenda files = rows.map Prod.fst ++ path :: rest) :
    (∀ x ∈ rows, ClearPath x.1) ∧ ClearPath path := by
  rw [hfiles] at hclear
  obtain ⟨hrows, hrest⟩ := List.forall_mem_append.1 hclear
  exact ⟨fun x hx => hrows x.1 (List.mem_map_of_mem hx), hrest path List.mem_cons_self⟩

theorem Tidy.no_file {t : FileTree} {names : List Text} (h : Tidy scratch t)
    (hcopy : copy.LeadsOn scratch names) (hne : names ≠ [])
    (hlogName : names.head? ≠ some lintLogName) (content : Bytes) :
    t.find copy.place ≠ some (.file content) := by
  intro hfile
  have hpos := List.length_pos_iff.2 hne
  rw [place_eq_station hcopy] at hfile
  rcases h.own (within_station hcopy.descend hpos le_rfl) (by simp [hfile]) with he | he
  · exact station_ne_logKey hlogName hpos le_rfl he
  · rcases h.way _ he with hd | ⟨hd, _⟩ <;> cases hd.symm.trans hfile

theorem Tidy.checkout_cases (h : Tidy scratch s.tree) (hgit : programs.LaysCopies scratch)
    (hclear : ClearPath path) :
    Tidy scratch ((checkoutQuery scratch path s).after programs).tree ∨
      s.tree.Laid ((checkoutQuery scratch path s).after programs).tree (scratch.child path) := by
  have hcopy := hclear.repository.leadsOn scratch
  exact (hgit s.invocations ⟨Staged.checkoutCommand scratch path, s.tree⟩ path rfl hclear.repository
    (h.way_free hcopy hclear.apart)
    (h.no_file hcopy (WrittenPath.steps_ne_nil path) hclear.apart)).imp_left h.of_find

theorem Tidy.checkout (h : Tidy scratch s.tree) (hgit : programs.LaysCopies scratch)
    (hclear : ClearPath path) :
    Filled scratch (WrittenPath.steps path) (scratch.child path)
      ((checkoutQuery scratch path s).after programs).tree := by
  rcases h.checkout_cases hgit hclear with htidy | hlaid
  · exact htidy.filled _ _
  · exact h.filled_of_laid (hclear.repository.leadsOn scratch) (WrittenPath.steps_ne_nil path)
      hclear.apart hlaid

theorem hasDirectory_of_read {t : FileTree} (hclear : ClearPath path)
    (hread : (t.read (scratch.child path).toText).isOk) : t.HasDirectory scratch := by
  obtain ⟨content, hr⟩ := exists_of_isOk hread
  obtain ⟨key, hl, _⟩ := FileTree.read_eq_ok hr
  exact hasDirectory_of_way (hclear.repository.leadsOn scratch) (WrittenPath.steps_ne_nil path)
    (FileTree.locate_eq_ok_iff.1 hl).1

def foundAt (programs : Programs) (linter : Linter) (path : Text) (copy : Path) (m : Moment)
    (f : Findings) : Findings :=
  if (m.tree.read copy.toText).isOk then
    if hasExtension phpExtensions path then phpFound programs linter path copy m f
    else scriptFound path copy m f
  else f.addReport (Report.unreadableBlock path)

def foundIn (programs : Programs) (linter : Linter) (scratch : Path) (x : Text × Query) :
    Findings → Findings :=
  foundAt programs linter x.1 (scratch.child x.1) (x.2.after programs)

theorem additive_id (scratch : Path) : Findings.Additive scratch id := by
  intro f
  simp [Findings.plus, Findings.fresh, Findings.withOutputs]

theorem foundIn_additive (scratch : Path) (x : Text × Query) :
    Findings.Additive scratch (foundIn programs linter scratch x) := by
  unfold foundIn foundAt
  split
  · split
    · unfold phpFound
      dsimp only
      split
      · exact Findings.additive_withLint scratch _ _ _ _
      · exact additive_id scratch
    · unfold scriptFound
      split
      · exact Findings.additive_withScript scratch _ _
      · exact additive_id scratch
  · exact Findings.additive_addReport scratch _

section CheckFor

variable (hlog : s.tree.IsFile (logKey scratch)) (hscratch : s.findings.scratch = scratch)
  (hdirectory : (s.tree.read copy.toText).isOk → s.tree.HasDirectory scratch)

include hlog hscratch hdirectory

theorem checkFor_ok (h : checkFor programs linter path copy s = .ok () s') :
    s'.findings = foundAt programs linter path copy s.moment s.findings ∧
      SameButLog scratch s.tree s'.tree := by
  cases hr : s.tree.read copy.toText with
  | error fault =>
    have hfound : foundAt programs linter path copy s.moment s.findings =
        s.findings.addReport (Report.unreadableBlock path) := by
      refine if_neg ?_
      change ¬(s.tree.read copy.toText).isOk
      rw [hr]
      exact Bool.false_ne_true
    rw [hfound]
    by_cases hphp : hasExtension phpExtensions path
    · obtain ⟨log, he⟩ := php_unreadable programs linter path hr
      rw [checkFor_php programs linter hphp] at h
      cases h.symm.trans he
      exact ⟨rfl, .refl hlog⟩
    · obtain ⟨log, he⟩ := script_unreadable path hr
      rw [checkFor_script programs linter hphp] at h
      cases h.symm.trans he
      exact ⟨rfl, .refl hlog⟩
  | ok content =>
    have hread : (s.tree.read copy.toText).isOk := by
      rw [hr]
      rfl
    rw [foundAt, if_pos (show (s.moment.tree.read copy.toText).isOk from hread)]
    by_cases hphp : hasExtension phpExtensions path
    · rw [if_pos hphp]
      obtain ⟨queries, _, hrun⟩ := php_run programs linter path copy s
      rw [checkFor_php programs linter hphp] at h
      rw [h] at hrun
      cases hrun with
      | unreadable hr' _ => cases hr.symm.trans hr'
      | through hr' hs hl ha hf =>
        rw [hscratch] at ha
        obtain ⟨tree, happend, hsame⟩ := append_lintLog (hdirectory hread) hlog _
        cases ha.symm.trans happend
        exact ⟨hf.trans (phpFound_eq hr' hs hl).symm, hsame⟩
    · rw [if_neg hphp]
      rw [checkFor_script programs linter hphp] at h
      cases h.symm.trans (script_readable path hr)
      refine ⟨?_, .refl hlog⟩
      simp only [scriptFound, moment, hr]

theorem checkFor_returns {queries : List Query}
    (hran : Ran s (ending (checkFor programs linter path copy s)) queries)
    (htolerable : ∀ q ∈ queries, Tolerable programs q) :
    ∃ s', checkFor programs linter path copy s = .ok () s' := by
  by_cases hphp : hasExtension phpExtensions path
  · rw [checkFor_php programs linter hphp] at hran ⊢
    obtain ⟨asked, hran', hrun⟩ := php_run programs linter path copy s
    obtain rfl := hran.queriesBetween_eq.symm.trans hran'.queriesBetween_eq
    generalize php programs linter path copy s = r at hrun
    cases hrun with
    | unreadable _ _ | through _ _ _ _ _ => exact ⟨_, rfl⟩
    | noStrip _ hs _ =>
      obtain ⟨stripped, hok⟩ := (tolerable_strip_iff linter copy s).1
        (htolerable _ (List.mem_singleton_self _))
      cases hs.symm.trans hok
    | noLint _ _ hl _ =>
      obtain ⟨lint, hok⟩ := (tolerable_lint_iff linter copy s).1
        (htolerable _ (.tail _ (List.mem_singleton_self _)))
      cases hl.symm.trans hok
    | noLog hr _ _ ha _ =>
      have hread : (s.tree.read copy.toText).isOk := by
        rw [hr]
        rfl
      rw [hscratch] at ha
      obtain ⟨tree, happend, _⟩ := append_lintLog (hdirectory hread) hlog _
      cases ha.symm.trans happend
  · rw [checkFor_script programs linter hphp]
    cases hr : s.tree.read copy.toText with
    | error fault =>
      obtain ⟨log, he⟩ := script_unreadable path hr
      exact ⟨_, he⟩
    | ok content => exact ⟨_, script_readable path hr⟩

end CheckFor

section Inspect

variable (hgit : programs.LaysCopies scratch) (htidy : Tidy scratch s.tree)
  (hscratch : s.findings.scratch = scratch) (hclear : ClearPath path)

include hgit htidy hscratch hclear

theorem inspect_ok_tidy
    (h : inspect programs scratch (checkFor programs linter) path s = .ok () s') :
    Tidy scratch s'.tree ∧
      s'.findings =
        foundIn programs linter scratch (path, checkoutQuery scratch path s) s.findings ∧
      ¬((checkoutQuery scratch path s).after programs).tree.HasDirectory (scratch.child path) := by
  obtain ⟨u, t, tree, hfindings, hmoment, hcheck, hremoved, rfl⟩ := inspect_steps h
  have hfilled := htidy.checkout hgit hclear
  have htree : ((checkoutQuery scratch path s).after programs).tree = u.tree :=
    (congrArg Moment.tree hmoment).symm
  rw [htree] at hfilled ⊢
  obtain ⟨hfound, hsame⟩ := checkFor_ok hfilled.holds.log (hfindings ▸ hscratch)
    (hasDirectory_of_read hclear) hcheck
  have hno : ¬t.tree.HasDirectory (scratch.child path) := by
    intro hd
    obtain ⟨refusal, hrefused⟩ := removed_directory hd scratch
    cases hremoved.symm.trans hrefused
  obtain ⟨tree', hremoved', htidy'⟩ := (hfilled.sameButLog hsame).removed
    (hclear.repository.leadsOn scratch) (WrittenPath.steps_ne_nil path) hclear.apart hno
  cases hremoved.symm.trans hremoved'
  refine ⟨htidy', ?_, fun hd => hno ((hsame.hasDirectory_iff hfilled.holds.log).2 hd)⟩
  rw [← hfindings, foundIn, ← hmoment]
  exact hfound

/-- After a checkout that has succeeded and printed a text, an inspection comes to its end if it can make
use of the linter's responses and git has left no directory. -/
theorem inspect_returns {queries : List Query}
    (hran : Ran s (ending (inspect programs scratch (checkFor programs linter) path s)) queries)
    (htolerable : ∀ q ∈ queries, Tolerable programs q)
    (hsucceeded : (checkoutQuery scratch path s).Succeeded programs)
    (hread : Git.Intelligible ((checkoutQuery scratch path s).response programs))
    (hno : ¬((checkoutQuery scratch path s).after programs).tree.HasDirectory
      (scratch.child path)) :
    ∃ s', inspect programs scratch (checkFor programs linter) path s = .ok () s' := by
  obtain ⟨u, hfindings, hmoment, hran', he⟩ :=
    inspect_eq programs scratch (checkFor programs linter) path s
  obtain ⟨output, hm⟩ : ∃ output, Git.meaning Command.checkoutWord
      ((checkoutQuery scratch path s).response programs) = .ok output := by
    rcases Git.meaning_cases Command.checkoutWord
      ((checkoutQuery scratch path s).response programs) with
        ⟨_, output, hm, _⟩ | ⟨_, _, _, hfailed⟩ | ⟨hillegible, _⟩
    · exact ⟨output, hm⟩
    · exact absurd hsucceeded hfailed
    · exact absurd hread hillegible
  rw [hm] at he
  dsimp only at he
  obtain ⟨asked, hasked, _⟩ := checkFor_asks programs linter path (scratch.child path) u
  have hall := hran'.trans (ran_thenAlways hasked fun t => remove_invocations (scratch.child path) scratch t)
  rw [← he] at hall
  obtain rfl := hran.queriesBetween_eq.symm.trans hall.queriesBetween_eq
  have hfilled := htidy.checkout hgit hclear
  have htree : ((checkoutQuery scratch path s).after programs).tree = u.tree :=
    (congrArg Moment.tree hmoment).symm
  rw [htree] at hfilled hno
  have hscratch' : u.findings.scratch = scratch := hfindings ▸ hscratch
  obtain ⟨t, hcheck⟩ := checkFor_returns hfilled.holds.log hscratch' (hasDirectory_of_read hclear)
    hasked fun q hq => htolerable q (List.mem_append_right _ hq)
  obtain ⟨_, hsame⟩ := checkFor_ok hfilled.holds.log hscratch' (hasDirectory_of_read hclear) hcheck
  obtain ⟨tree, hremoved, _⟩ := (hfilled.sameButLog hsame).removed
    (hclear.repository.leadsOn scratch) (WrittenPath.steps_ne_nil path) hclear.apart
    fun hd => hno ((hsame.hasDirectory_iff hfilled.holds.log).1 hd)
  refine ⟨{ t with tree }, ?_⟩
  rw [he, thenAlways, hcheck]
  dsimp only
  rw [Staged.remove_eq, hremoved]

end Inspect

theorem inspect_intelligible
    (h : inspect programs scratch (checkFor programs linter) path s = .ok () s') :
    Git.Intelligible ((checkoutQuery scratch path s).response programs) := by
  obtain ⟨u, _, _, _, he⟩ := inspect_eq programs scratch (checkFor programs linter) path s
  rw [he] at h
  rcases Git.meaning_cases Command.checkoutWord
    ((checkoutQuery scratch path s).response programs) with
      ⟨hread, _⟩ | ⟨hread, _⟩ | ⟨_, hm⟩
  · exact hread
  · exact hread
  · rw [hm] at h
    cases h

/-- A walk from a tidy scratch directory with no findings leads to a tidy one, with what was found in the
files put together. -/
theorem Walked.tidy {s₀ t : Session} {rows : List (Text × Query)}
    (h : Walked programs linter scratch { s₀ with findings := Findings.fresh scratch } rows t)
    (hgit : programs.LaysCopies scratch) (htidy : Tidy scratch s₀.tree)
    (hclear : ∀ x ∈ rows, ClearPath x.1) :
    Tidy scratch t.tree ∧
      t.findings = Findings.merge scratch
        (rows.map fun x => foundIn programs linter scratch x (Findings.fresh scratch)) := by
  induction h with
  | start => exact ⟨htidy, rfl⟩
  | next _ hi ih =>
    obtain ⟨hrows, hlast⟩ := List.forall_mem_append.1 hclear
    obtain ⟨htidy', hfound⟩ := ih hrows
    have hscratch := congrArg Findings.scratch hfound
    obtain ⟨htidy'', hfound', _⟩ :=
      inspect_ok_tidy hgit htidy' hscratch (hlast _ (List.mem_singleton_self _)) hi
    refine ⟨htidy'', ?_⟩
    rw [hfound', hfound, foundIn_additive scratch, ← Findings.merge_concat, List.map_append]
    rfl

theorem Walked.settled {s₀ t : Session} {rows : List (Text × Query)}
    (h : Walked programs linter scratch { s₀ with findings := Findings.fresh scratch } rows t)
    (hgit : programs.LaysCopies scratch) (htidy : Tidy scratch s₀.tree)
    (hclear : ∀ x ∈ rows, ClearPath x.1) :
    ∀ x ∈ rows, Git.Intelligible (x.2.response programs) ∧
      ¬(x.2.after programs).tree.HasDirectory (scratch.child x.1) := by
  induction h with
  | start => simp
  | next hwalk hi ih =>
    obtain ⟨hrows, hlast⟩ := List.forall_mem_append.1 hclear
    obtain ⟨htidy', hfound⟩ := hwalk.tidy hgit htidy hrows
    refine List.forall_mem_append.2 ⟨ih hrows, List.forall_mem_singleton.2 ?_⟩
    exact ⟨inspect_intelligible hi, (inspect_ok_tidy hgit htidy' (congrArg Findings.scratch hfound)
      (hlast _ (List.mem_singleton_self _)) hi).2.2⟩

end Gate

end CommitGate
