import CommitGate.Proofs.Inspection
import CommitGate.Proofs.Prepared

/-! Copies that cannot be read. Nothing at the place of a copy is a finding like any other: it is
reported, the linter is left alone, and the run goes on. A directory there is reported too, but the
removal of the copy, which is meant for a file, then stops the run. -/
namespace CommitGate

open Session

namespace Gate

open Check

variable {programs : Programs} {linter : Linter} {scratch : Path} {files : List Text}
  {rows : List (Text × Query)} {s s' : Session} {t' : FileTree}

theorem prepare_iff_of_absent (habsent : s.tree.find scratch.place = none)
    (hmade : FileTree.ensureDirectory scratch s.tree = .ok () t') :
    (∃ s₀, prepare scratch s = .ok () s₀) ↔ logKey scratch ∉ scratch.way := by
  constructor
  · rintro ⟨s₀, hprepare⟩
    have htidy := tidy_of_prepare (atMostLog_of_absent habsent) hprepare
    obtain ⟨content, hfile⟩ := htidy.log
    exact logKey_not_mem_way htidy.way hfile
  · intro hlog
    obtain ⟨tree, hprepare, _⟩ := prepare_usable (usable_of_absent habsent hlog hmade)
    exact ⟨_, hprepare⟩

/-- What a run has done that came to its end: each file that was due was checked out and inspected in its
turn, and what was found in each was put together. A copy that could not be read adds one report to that,
asks nothing of the linter, and has the commit aborted. -/
structure Inspected (programs : Programs) (linter : Linter) (scratch : Path) (files : List Text)
    (rows : List (Text × Query)) (queries : List Query) (findings : Findings) : Prop where
  files : rows.map Prod.fst = agenda files
  checkout : ∀ x ∈ rows, x.2.command = Staged.checkoutCommand scratch x.1
  queries : queries = rows.flatMap (rowQueries programs linter scratch)
  found : findings = Findings.merge scratch
    (rows.map fun x => foundIn programs linter scratch x (Findings.fresh scratch))
  unreadable : ∀ x ∈ rows, ¬Reads programs scratch x →
    foundIn programs linter scratch x (Findings.fresh scratch) =
        (Findings.fresh scratch).addReport (Report.unreadableBlock x.1) ∧
      rowQueries programs linter scratch x = [x.2] ∧ findings.abortRequested = true

theorem foundIn_unreadable {x : Text × Query} (h : ¬Reads programs scratch x) (f : Findings) :
    foundIn programs linter scratch x f = f.addReport (Report.unreadableBlock x.1) := if_neg h

theorem rowQueries_unreadable {x : Text × Query} (h : ¬Reads programs scratch x) :
    rowQueries programs linter scratch x = [x.2] :=
  congrArg (x.2 :: ·) (if_neg fun hread => h hread.2)

theorem abort_of_part {parts : List Findings} {part : Findings} (h : part ∈ parts)
    (habort : part.abortRequested = true) :
    (Findings.merge scratch parts).abortRequested = true :=
  List.any_eq_true.2 ⟨part, h, habort⟩

theorem Walked.inspected {s₀ : Session}
    (h : Walked programs linter scratch { s₀ with findings := Findings.fresh scratch } rows s')
    (hgit : programs.LaysCopies scratch) (htidy : Tidy scratch s₀.tree)
    (hfiles : rows.map Prod.fst = agenda files)
    (hclear : ∀ x ∈ rows, ClearPath x.1) :
    Inspected programs linter scratch files rows
      (rows.flatMap (rowQueries programs linter scratch)) s'.findings where
  files := hfiles
  checkout := h.checkout
  queries := rfl
  found := (h.tidy hgit htidy hclear).2
  unreadable x hx hread := by
    refine ⟨foundIn_unreadable hread _, rowQueries_unreadable hread, ?_⟩
    rw [(h.tidy hgit htidy hclear).2]
    apply abort_of_part (List.mem_map_of_mem hx)
    rw [foundIn_unreadable hread]
    rfl

/-- From a scratch directory that is not there yet, with every checkout a success and a linter that never
raises, a run comes to its end exactly if no checkout leaves a directory at the place of its copy or
prints what is no text, and the lint log can be made. Copies that cannot be read are then reported, and
no file is skipped for them. -/
theorem unreadable_copies_reported (hgit : programs.LaysCopies scratch)
    (habsent : s.tree.find scratch.place = none)
    (hmade : FileTree.ensureDirectory scratch s.tree = .ok () t')
    (hclear : ∀ path ∈ files, IsDue path → ClearPath path)
    (hout : ∀ q ∈ checkouts (queriesBetween s (ending (run programs linter scratch files s))),
      q.Succeeded programs)
    (htolerable : ∀ q ∈ queriesBetween s (ending (run programs linter scratch files s)),
      Tolerable programs q) :
    ((∃ findings s', run programs linter scratch files s = .ok findings s') ↔
        logKey scratch ∉ scratch.way ∧
        ∀ q ∈ checkouts (queriesBetween s (ending (run programs linter scratch files s))),
          Git.Intelligible (q.response programs) ∧
          (q.after programs).tree.entry? (scratch.child (checkedPath q)).toText ≠
            some .directory) ∧
      ∀ findings s', run programs linter scratch files s = .ok findings s' →
        ∃ rows, Inspected programs linter scratch files rows (queriesBetween s s') findings := by
  have hagenda := clear_agenda hclear
  have hprepared := prepare_iff_of_absent habsent hmade
  have hrun := gate_run programs linter scratch files s
  generalize run programs linter scratch files s = r at hrun hout htolerable ⊢
  cases hrun with
  | unprepared hrefused =>
    refine ⟨iff_of_false ?_ ?_, fun _ _ h => by cases h⟩
    · rintro ⟨_, _, h⟩
      cases h
    · rintro ⟨hlog, _⟩
      obtain ⟨s₀, hprepare⟩ := hprepared.2 hlog
      cases hrefused.symm.trans hprepare
  | @through s₀ s' rows hprepare hwalk hfiles =>
    have htidy := tidy_of_prepare (atMostLog_of_absent habsent) hprepare
    have hrows : ∀ x ∈ rows, ClearPath x.1 := fun x hx =>
      hagenda x.1 (hfiles ▸ List.mem_map_of_mem hx)
    have hqueries : queriesBetween s s' = rows.flatMap (rowQueries programs linter scratch) :=
      (hwalk.ran_prepared hprepare).queriesBetween_eq
    refine ⟨iff_of_true ⟨_, _, rfl⟩ ⟨hprepared.1 ⟨s₀, hprepare⟩, fun q hq => ?_⟩,
      fun _ _ h => ?_⟩
    · rw [ending, hqueries, checkouts_rows hwalk.checkout] at hq
      obtain ⟨x, hx, rfl⟩ := List.mem_map.1 hq
      obtain ⟨hread, hno⟩ := hwalk.settled hgit htidy hrows x hx
      rw [checkedPath_checkout (hwalk.checkout x hx)]
      exact ⟨hread, fun hentry => hno (FileTree.hasDirectory_iff_entry.2 hentry)⟩
    · cases h
      rw [hqueries]
      exact ⟨rows, hwalk.inspected hgit htidy hfiles hrows⟩
  | @stopped s₀ t s' rows path rest fault hprepare hwalk hfiles hstop =>
    refine ⟨iff_of_false ?_ ?_, fun _ _ h => by cases h⟩
    · rintro ⟨_, _, h⟩
      cases h
    rintro ⟨_, hall⟩
    obtain ⟨hrows, hthis⟩ := clear_stopped hagenda hfiles
    obtain ⟨htidy, hfound⟩ :=
      hwalk.tidy hgit (tidy_of_prepare (atMostLog_of_absent habsent) hprepare) hrows
    obtain ⟨part, hran, hasked, _⟩ := hwalk.ran_stopped hprepare hstop
    have hqueries := hasked.queriesBetween_eq
    have hmem : checkoutQuery scratch path t ∈ checkouts (queriesBetween s s') := by
      refine List.mem_filter.2 ⟨?_, decide_eq_true rfl⟩
      rw [hqueries]
      exact List.mem_append_right _ List.mem_cons_self
    obtain ⟨hread, hentry⟩ := hall _ hmem
    rw [checkedPath_checkout rfl] at hentry
    obtain ⟨t'', hend⟩ := inspect_returns hgit htidy (congrArg Findings.scratch hfound)
      hthis (by rwa [hstop])
      (fun q hq => htolerable q (by
        rw [ending, hqueries]
        exact List.mem_append_right _ hq))
      (hout _ hmem) hread (fun hd => hentry (FileTree.hasDirectory_iff_entry.1 hd))
    cases hstop.symm.trans hend

def firstMissing : Dialogue.Transcript := [Hook.exited 0 "" .nothing, checkedOut]

theorem missing_copy_reported :
    ∃ findings s', runOverTwo firstMissing = .ok findings s' ∧
      ∃ rows, Inspected (Dialogue.programs firstMissing) ⟨"php".toList⟩
        (Path.ofText Hook.scratchDirectory) ["a.php".toList, "b.js".toList] rows
        (queriesBetween Dialogue.start s') findings := by
  have hqueries : ∀ q ∈ queriesBetween Dialogue.start (ending (runOverTwo firstMissing)),
      Tolerable (Dialogue.programs firstMissing) q ∧ q.Succeeded (Dialogue.programs firstMissing) := by
    decide +kernel
  have hclear : ∀ path ∈ ["a.php".toList, "b.js".toList],
      WrittenPath.IsRepositoryPath path ∧ ApartFromLog path := by decide +kernel
  have hvalue : (value? (runOverTwo firstMissing)).isSome := by decide +kernel
  obtain ⟨findings, hfindings⟩ := Option.isSome_iff_exists.1 hvalue
  obtain ⟨s', h⟩ := ok_of_value? hfindings
  exact ⟨findings, s', h, (unreadable_copies_reported (Programs.laysCopies_placing _ _)
    (by decide +kernel) rfl
    (fun path hp _ => ⟨(hclear path hp).1, (hclear path hp).2⟩)
    (fun q hq => (hqueries q (List.mem_filter.1 hq).1).2) fun q hq => (hqueries q hq).1).2
      findings s' h⟩

/-- A directory at the place of a copy stops the run, and the second file is not checked out. -/
theorem directory_copy_stops_run :
    let programs := Dialogue.programs [Hook.exited 0 "" .directory, checkedOut]
    let r := runOverTwo [Hook.exited 0 "" .directory, checkedOut]
    (∀ q ∈ queriesBetween Dialogue.start (ending r), Tolerable programs q ∧ q.Succeeded programs) ∧
      (checkouts (queriesBetween Dialogue.start (ending r))).map checkedPath = ["a.php".toList] ∧
      value? r = none := by
  decide +kernel

end Gate

end CommitGate
