import CommitGate.Proofs.Checkouts
import CommitGate.Proofs.Merge
import CommitGate.Proofs.Scratch

/-! Runs of the gate in which one file does not bear on another. When the programs go by the command
alone, what a file adds to the findings is known from their responses for it, and between two files the
scratch directory is tidy. -/
namespace CommitGate

open Session

namespace Check

variable {programs : Programs} {answer : Command → Reply} {linter : Linter} {scratch copy : Path}
  {path : Text} {left : Deposit}

def phpAdds (answer : Command → Reply) (linter : Linter) (copy : Path) (left : Deposit)
    (path : Text) (f : Findings) : Findings :=
  match left, Linter.strippedBy (answer (linter.stripCommand copy)).response,
    linter.lintedBy (answer (linter.lintCommand copy)).response with
  | .file content, .ok stripped, .ok lint =>
    withLint path lint (withCalls stripped path (Utf8.readLossy content) f)
  | _, _, _ => f.addReport (Report.unreadableBlock path)

def scriptAdds (left : Deposit) (path : Text) (f : Findings) : Findings :=
  match left with
  | .file content => withScript path (Utf8.readLossy content) f
  | _ => f.addReport (Report.unreadableBlock path)

def LeftAs (scratch : Path) (t : FileTree) (copy : Path) : Deposit → Prop
  | .file content => t.HasDirectory scratch ∧ t.read copy.toText = .ok content
  | _ => ∃ fault, t.read copy.toText = .error fault

/-- A check of a copy comes to its end with these findings added, and changes no file but the log. -/
def Adds (scratch copy : Path) (left : Deposit) (check : Action Unit)
    (adds : Findings → Findings) : Prop :=
  ∀ s : Session, s.findings.scratch = scratch → s.tree.IsFile (Gate.logKey scratch) →
    LeftAs scratch s.tree copy left →
      ∃ s', check s = .ok () s' ∧ s'.findings = adds s.findings ∧
        Gate.SameButLog scratch s.tree s'.tree

structure Lintable (answer : Command → Reply) (linter : Linter) (copy : Path) : Prop where
  strip : (Linter.strippedBy (answer (linter.stripCommand copy)).response).isOk
  lint : (linter.lintedBy (answer (linter.lintCommand copy)).response).isOk

section AnswerBy

variable (hanswer : programs.AnswerBy answer)

include hanswer

theorem stripQuery_response (copy : Path) (s : Session) :
    (stripQuery linter copy s).response programs = (answer (linter.stripCommand copy)).response :=
  hanswer s.invocations ⟨_, _⟩ (linter.stripCommand_target copy)

theorem lintQuery_response (copy : Path) (s : Session) :
    (lintQuery programs linter copy s).response programs =
      (answer (linter.lintCommand copy)).response :=
  hanswer _ ⟨_, _⟩ (linter.lintCommand_target copy)

theorem php_readable {s : Session} {content : Bytes} {stripped : Option Text} {lint : LintResult}
    {tree : FileTree} (hr : s.tree.read copy.toText = .ok content)
    (hs : Linter.strippedBy (answer (linter.stripCommand copy)).response = .ok stripped)
    (hl : linter.lintedBy (answer (linter.lintCommand copy)).response = .ok lint)
    (happend : s.tree.append (s.findings.scratch.child lintLogName).toText
      (Utf8.encode lint.output) = .ok tree) :
    ∃ s', php programs linter path copy s = .ok () s' ∧
      s'.findings = withLint path lint (withCalls stripped path (Utf8.readLossy content) s.findings) ∧
      s'.tree = tree := by
  obtain ⟨queries, _, hrun⟩ := php_run programs linter path copy s
  generalize hend : php programs linter path copy s = r at hrun
  cases hrun with
  | unreadable hr' _ => cases hr.symm.trans hr'
  | noStrip _ hs' _ =>
    rw [stripQuery_response hanswer] at hs'
    cases hs.symm.trans hs'
  | noLint _ _ hl' _ =>
    rw [lintQuery_response hanswer] at hl'
    cases hl.symm.trans hl'
  | noLog _ _ hl' ha _ =>
    rw [lintQuery_response hanswer] at hl'
    cases hl.symm.trans hl'
    cases happend.symm.trans ha
  | through hr' hs' hl' ha hf =>
    rw [stripQuery_response hanswer] at hs'
    rw [lintQuery_response hanswer] at hl'
    cases hr.symm.trans hr'
    cases hs.symm.trans hs'
    cases hl.symm.trans hl'
    exact ⟨_, rfl, hf, Except.ok.inj (ha.symm.trans happend)⟩

theorem php_adds (hleft : left ≠ .directory)
    (hlintable : left ≠ .nothing → Lintable answer linter copy) (path : Text) :
    Adds scratch copy left (php programs linter path copy)
      (phpAdds answer linter copy left path) := by
  intro s hscratch hlog hcopy
  cases left with
  | directory => exact absurd rfl hleft
  | nothing =>
    obtain ⟨fault, hfault⟩ := hcopy
    obtain ⟨log, h⟩ := php_unreadable programs linter path hfault
    exact ⟨_, h, rfl, .refl hlog⟩
  | file content =>
    obtain ⟨hstrip, hlint⟩ := hlintable Deposit.noConfusion
    obtain ⟨stripped, hs⟩ := Gate.exists_of_isOk hstrip
    obtain ⟨lint, hl⟩ := Gate.exists_of_isOk hlint
    obtain ⟨tree, happend, hsame⟩ :=
      Gate.append_lintLog hcopy.1 hlog (Utf8.encode lint.output)
    rw [← hscratch] at happend
    obtain ⟨s', h, hf, rfl⟩ := php_readable hanswer hcopy.2 hs hl happend
    refine ⟨s', h, ?_, hsame⟩
    rw [hf]
    simp only [phpAdds, hs, hl]

end AnswerBy

theorem script_adds (hleft : left ≠ .directory) (path : Text) :
    Adds scratch copy left (script path copy) (scriptAdds left path) := by
  intro s _ hlog hcopy
  cases left with
  | directory => exact absurd rfl hleft
  | nothing =>
    obtain ⟨fault, hfault⟩ := hcopy
    obtain ⟨log, h⟩ := script_unreadable path hfault
    exact ⟨_, h, rfl, .refl hlog⟩
  | file content => exact ⟨_, script_readable path hcopy.2, rfl, .refl hlog⟩

theorem phpAdds_additive (scratch : Path) :
    Findings.Additive scratch (phpAdds answer linter copy left path) := by
  unfold phpAdds
  split
  · exact Findings.additive_withLint scratch _ _ _ _
  · exact Findings.additive_addReport scratch _

theorem scriptAdds_additive (scratch : Path) :
    Findings.Additive scratch (scriptAdds left path) := by
  unfold scriptAdds
  split
  · exact Findings.additive_withScript scratch _ _
  · exact Findings.additive_addReport scratch _

end Check

namespace Gate

open Check

variable {programs : Programs} {answer : Command → Reply} {linter : Linter} {scratch : Path}
  {path : Text} {check : Text → Path → Action Unit} {adds : Text → Findings → Findings} {s : Session}

/-- A tree with what a checkout has left in it. The removal of the copy tidies the scratch directory. -/
structure CopyIn (scratch copy : Path) (left : Deposit) (t : FileTree) : Prop where
  there : LeftAs scratch t copy left
  log : t.IsFile (logKey scratch)
  removed : ∀ u, SameButLog scratch t u →
    ∃ tree, Staged.removed copy scratch u = .ok tree ∧ Tidy scratch tree

/-- A file's checkout exits with status zero and leaves a regular file or nothing. The path keeps clear of
the lint log and is no directory that the path of the scratch directory leads through. -/
structure ChecksOutAs (answer : Command → Reply) (scratch : Path) (path : Text) (left : Deposit) :
    Prop where
  repository : WrittenPath.IsRepositoryPath path
  apart : ApartFromLog path
  noDirectory : (scratch.child path).place ∉ scratch.way
  response : ∃ c, answer (Staged.checkoutCommand scratch path) = .completed c left ∧ c.status = 0
  regular : left ≠ .directory

theorem ChecksOutAs.free {left : Deposit} {t : FileTree}
    (h : ChecksOutAs answer scratch path left) (htidy : Tidy scratch t) :
    t.Free (scratch.child path) where
  way := htidy.way_free (h.repository.leadsOn scratch) h.apart
  off := place_not_mem_way (h.repository.leadsOn scratch) h.noDirectory
  place := htidy.copy_free (h.repository.leadsOn scratch) (WrittenPath.steps_ne_nil path) h.apart
    h.noDirectory

theorem ChecksOutAs.copyIn {left : Deposit} {t t' : FileTree}
    (h : ChecksOutAs answer scratch path left) (htidy : Tidy scratch t)
    (htakes : t.Takes t' (scratch.child path) left) : CopyIn scratch (scratch.child path) left t' := by
  have hcopy := h.repository.leadsOn scratch
  have hne := WrittenPath.steps_ne_nil path
  cases left with
  | directory => exact absurd rfl h.regular
  | nothing =>
    have htidy' := htidy.of_find htakes
    have hfree := h.free htidy'
    refine ⟨?_, htidy'.log, fun u hu => ?_⟩
    · exact ⟨_, read_nothing (htidy'.locate_copy hcopy hne h.apart h.noDirectory)⟩
    · refine ((htidy'.filled _ _).sameButLog hu).removed hcopy hne h.apart fun hd => ?_
      have hd := ((hu.hasDirectory_iff htidy'.log).1 hd).place
      rw [hfree.place] at hd
      cases hd
  | file content =>
    have hfilled := htidy.filled_of_laid hcopy hne h.apart (FileTree.Deposited.laid htakes)
    refine ⟨⟨hasDirectory_of_way hcopy hne htakes.way, ?_⟩, hfilled.holds.log, fun u hu => ?_⟩
    · apply FileTree.read_of_find _ htakes.file
      exact FileTree.locate_eq_ok_iff.2 ⟨htakes.way, rfl⟩
    · refine (hfilled.sameButLog hu).removed hcopy hne h.apart fun hd => ?_
      have hd := ((hu.hasDirectory_iff hfilled.holds.log).1 hd).place
      rw [htakes.file] at hd
      cases hd

def Legible (answer : Command → Reply) (scratch : Path) (path : Text) : Prop :=
  (Git.meaning Command.checkoutWord (answer (Staged.checkoutCommand scratch path)).response).isOk

theorem inspect_of_free (hgit : programs.GoBy scratch answer)
    (hpath : WrittenPath.IsRepositoryPath path) (hfree : s.tree.Free (scratch.child path))
    (check : Text → Path → Action Unit) :
    ∃ u : Session, u.findings = s.findings ∧
      s.tree.Takes u.tree (scratch.child path)
        (answer (Staged.checkoutCommand scratch path)).left ∧
      inspect programs scratch check path s =
        match Git.meaning Command.checkoutWord
          (answer (Staged.checkoutCommand scratch path)).response with
        | .error fault => .error fault u
        | .ok _ => thenAlways (check path (scratch.child path))
            (Staged.remove (scratch.child path) scratch) u := by
  obtain ⟨u, hfindings, hmoment, _, he⟩ := inspect_eq programs scratch check path s
  obtain ⟨hresponse, htakes⟩ := hgit.checkouts s.invocations
    ⟨Staged.checkoutCommand scratch path, s.tree⟩ path rfl hpath hfree
  have htree : u.tree = ((checkoutQuery scratch path s).after programs).tree :=
    congrArg Moment.tree hmoment
  rw [← hresponse]
  exact ⟨u, hfindings, htree ▸ htakes, he⟩

theorem inspect_adds {left : Deposit} {adds : Findings → Findings}
    (hgit : programs.GoBy scratch answer) (htidy : Tidy scratch s.tree)
    (hscratch : s.findings.scratch = scratch) (hout : ChecksOutAs answer scratch path left)
    (hlegible : Legible answer scratch path)
    (hadds : Adds scratch (scratch.child path) left (check path (scratch.child path)) adds) :
    ∃ s', inspect programs scratch check path s = .ok () s' ∧
      s'.findings = adds s.findings ∧ Tidy scratch s'.tree := by
  obtain ⟨c, hanswer, _⟩ := hout.response
  obtain ⟨output, hm⟩ := exists_of_isOk hlegible
  obtain ⟨u, hfindings, htakes, he⟩ := inspect_of_free hgit hout.repository (hout.free htidy) check
  rw [hm] at he
  rw [hanswer] at htakes
  have hcopy := hout.copyIn htidy htakes
  obtain ⟨s₁, hdone, hfound, hsame⟩ := hadds u (hfindings ▸ hscratch) hcopy.log hcopy.there
  obtain ⟨tree, hremoved, htidy'⟩ := hcopy.removed s₁.tree hsame
  refine ⟨{ s₁ with tree }, ?_, by rw [← hfindings]; exact hfound, htidy'⟩
  rw [he]
  dsimp only
  rw [thenAlways, hdone]
  dsimp only
  rw [Staged.remove_eq, hremoved]

theorem inspect_illegible {left : Deposit} (hgit : programs.GoBy scratch answer)
    (htidy : Tidy scratch s.tree) (hout : ChecksOutAs answer scratch path left)
    (hillegible : ¬Legible answer scratch path) :
    ∃ s', inspect programs scratch check path s = .error .undecodableOutput s' := by
  obtain ⟨c, hanswer, hzero⟩ := hout.response
  obtain ⟨u, _, _, he⟩ := inspect_of_free hgit hout.repository (hout.free htidy) check
  rw [Legible, hanswer] at hillegible
  rw [hanswer, Reply.response, Git.meaning_of_zero hzero hillegible] at he
  exact ⟨u, he⟩

theorem forM_inspect {left : Text → Deposit} {paths : List Text}
    (hgit : programs.GoBy scratch answer) (htidy : Tidy scratch s.tree)
    (hscratch : s.findings.scratch = scratch)
    (hout : ∀ path ∈ paths, ChecksOutAs answer scratch path (left path))
    (hlegible : ∀ path ∈ paths, Legible answer scratch path)
    (hadds : ∀ path ∈ paths,
      Adds scratch (scratch.child path) (left path) (check path (scratch.child path)) (adds path))
    (hkeeps : ∀ path f, (adds path f).scratch = f.scratch) :
    ∃ s', paths.forM (inspect programs scratch check) s = .ok () s' ∧
      s'.findings = paths.foldl (fun f path => adds path f) s.findings ∧
      Tidy scratch s'.tree := by
  induction paths generalizing s with
  | nil => exact ⟨s, rfl, rfl, htidy⟩
  | cons path rest ih =>
    obtain ⟨hpath, hrest⟩ := List.forall_mem_cons.1 hout
    obtain ⟨hlegiblePath, hlegibleRest⟩ := List.forall_mem_cons.1 hlegible
    obtain ⟨haddsPath, haddsRest⟩ := List.forall_mem_cons.1 hadds
    obtain ⟨s₁, hfirst, hfound, htidy₁⟩ :=
      inspect_adds hgit htidy hscratch hpath hlegiblePath haddsPath
    have hscratch₁ : s₁.findings.scratch = scratch := by rw [hfound, hkeeps, hscratch]
    obtain ⟨s', hmore, hfound', htidy'⟩ := ih htidy₁ hscratch₁ hrest hlegibleRest haddsRest
    refine ⟨s', ?_, ?_, htidy'⟩
    · exact (bind_of_ok hfirst).trans hmore
    · rw [hfound', hfound]
      rfl

theorem forM_inspect_illegible {left : Text → Deposit} {paths : List Text}
    (hgit : programs.GoBy scratch answer) (htidy : Tidy scratch s.tree)
    (hscratch : s.findings.scratch = scratch)
    (hout : ∀ path ∈ paths, ChecksOutAs answer scratch path (left path))
    (hillegible : ∃ path ∈ paths, ¬Legible answer scratch path)
    (hadds : ∀ path ∈ paths,
      Adds scratch (scratch.child path) (left path) (check path (scratch.child path)) (adds path))
    (hkeeps : ∀ path f, (adds path f).scratch = f.scratch) :
    ∃ s', paths.forM (inspect programs scratch check) s =
      .error .undecodableOutput s' := by
  induction paths generalizing s with
  | nil => simp at hillegible
  | cons path rest ih =>
    obtain ⟨hpath, hrest⟩ := List.forall_mem_cons.1 hout
    obtain ⟨haddsPath, haddsRest⟩ := List.forall_mem_cons.1 hadds
    by_cases hlegible : Legible answer scratch path
    · obtain ⟨s₁, hfirst, hfound, htidy₁⟩ :=
        inspect_adds hgit htidy hscratch hpath hlegible haddsPath
      have hscratch₁ : s₁.findings.scratch = scratch := by rw [hfound, hkeeps, hscratch]
      have hlater : ∃ p ∈ rest, ¬Legible answer scratch p := by
        obtain ⟨p, hp, hp'⟩ := hillegible
        rcases List.mem_cons.1 hp with rfl | hp
        · exact absurd hlegible hp'
        · exact ⟨p, hp, hp'⟩
      obtain ⟨s', hmore⟩ := ih htidy₁ hscratch₁ hrest hlater haddsRest
      exact ⟨s', (bind_of_ok hfirst).trans hmore⟩
    · obtain ⟨s', hfirst⟩ := inspect_illegible hgit htidy hpath hlegible
      exact ⟨s', bind_of_error hfirst⟩

def leftBy (answer : Command → Reply) (scratch : Path) (path : Text) : Deposit :=
  (answer (Staged.checkoutCommand scratch path)).left

/-- A file can be checked by itself: its checkout is in order, and if it leaves a PHP file, the linter's
responses are fit for use. -/
structure Checkable (answer : Command → Reply) (linter : Linter) (scratch : Path) (path : Text) :
    Prop where
  checkout : ChecksOutAs answer scratch path (leftBy answer scratch path)
  lintable : hasExtension phpExtensions path → leftBy answer scratch path ≠ .nothing →
    Lintable answer linter (scratch.child path)

def alone (answer : Command → Reply) (linter : Linter) (scratch : Path) (path : Text) : Findings :=
  if hasExtension phpExtensions path then
    phpAdds answer linter (scratch.child path) (leftBy answer scratch path) path
      (Findings.fresh scratch)
  else if hasExtension scriptExtensions path then
    scriptAdds (leftBy answer scratch path) path (Findings.fresh scratch)
  else Findings.fresh scratch

def together (answer : Command → Reply) (linter : Linter) (scratch : Path) (files : List Text) :
    Findings :=
  Findings.merge scratch
    ((due phpExtensions files ++ due scriptExtensions files).map (alone answer linter scratch))

theorem not_script_of_php (h : hasExtension phpExtensions path) :
    ¬hasExtension scriptExtensions path := by
  intro h'
  obtain ⟨ext, hext, hsuffix⟩ := List.any_eq_true.1 h
  obtain ⟨ext', hext', hsuffix'⟩ := List.any_eq_true.1 h'
  have hapart : ∀ ext ∈ phpExtensions, ∀ ext' ∈ scriptExtensions,
      ¬ext <:+ ext' ∧ ¬ext' <:+ ext := by decide
  rcases List.suffix_or_suffix_of_suffix (List.isSuffixOf_iff_suffix.1 hsuffix)
    (List.isSuffixOf_iff_suffix.1 hsuffix') with hs | hs
  · exact (hapart ext hext ext' hext').1 hs
  · exact (hapart ext hext ext' hext').2 hs

theorem alone_php (h : hasExtension phpExtensions path) :
    alone answer linter scratch path =
      phpAdds answer linter (scratch.child path) (leftBy answer scratch path) path
        (Findings.fresh scratch) := if_pos h

theorem alone_script (h : hasExtension scriptExtensions path) :
    alone answer linter scratch path =
      scriptAdds (leftBy answer scratch path) path (Findings.fresh scratch) := by
  rw [alone, if_neg fun hphp => not_script_of_php hphp h, if_pos h]

theorem alone_other (h : ¬IsDue path) :
    alone answer linter scratch path = Findings.fresh scratch := by
  rw [IsDue, not_or] at h
  rw [alone, if_neg h.1, if_neg h.2]

theorem alone_ownOutput (path : Text) : (alone answer linter scratch path).OwnOutput path := by
  have hphp : (phpAdds answer linter (scratch.child path) (leftBy answer scratch path) path
      (Findings.fresh scratch)).OwnOutput path := by
    unfold phpAdds
    split
    · rename_i lint _ _ _
      refine ⟨some lint.output, ?_⟩
      simp only [withLint, withCalls]
      split <;> split <;> rfl
    · exact ⟨none, rfl⟩
  have hscript : (scriptAdds (leftBy answer scratch path) path
      (Findings.fresh scratch)).OwnOutput path := by
    unfold scriptAdds
    split
    · refine ⟨none, ?_⟩
      rw [withScript]
      split <;> rfl
    · exact ⟨none, rfl⟩
  rw [alone]
  split
  · exact hphp
  · split
    · exact hscript
    · exact ⟨none, rfl⟩

structure Pass (answer : Command → Reply) (linter : Linter) (scratch : Path)
    (extensions : List Text) (check : Text → Path → Action Unit)
    (adds : Text → Findings → Findings) (files : List Text) : Prop where
  checkable : ∀ path ∈ due extensions files, Checkable answer linter scratch path
  step : ∀ path ∈ due extensions files, Adds scratch (scratch.child path)
    (leftBy answer scratch path) (check path (scratch.child path)) (adds path)
  additive : ∀ path, Findings.Additive scratch (adds path)
  fromFresh : ∀ path ∈ due extensions files,
    adds path (Findings.fresh scratch) = alone answer linter scratch path

theorem Pass.keeps_scratch {extensions files : List Text}
    (h : Pass answer linter scratch extensions check adds files) (path : Text) (f : Findings) :
    (adds path f).scratch = f.scratch := by
  rw [h.additive path f]
  rfl

theorem php_pass {files : List Text} (hanswer : programs.AnswerBy answer)
    (h : ∀ path ∈ files, IsDue path → Checkable answer linter scratch path) :
    Pass answer linter scratch phpExtensions (php programs linter)
      (fun path => phpAdds answer linter (scratch.child path) (leftBy answer scratch path) path)
      files := by
  have hcheckable : ∀ path ∈ due phpExtensions files, Checkable answer linter scratch path :=
    fun path hp => h path (List.mem_filter.1 hp).1 (.inl (List.mem_filter.1 hp).2)
  refine ⟨hcheckable, ?_, fun _ => phpAdds_additive scratch, ?_⟩
  · intro path hp
    exact php_adds hanswer (hcheckable path hp).checkout.regular
      ((hcheckable path hp).lintable (List.mem_filter.1 hp).2) path
  · intro path hp
    exact (alone_php (List.mem_filter.1 hp).2).symm

theorem script_pass {files : List Text}
    (h : ∀ path ∈ files, IsDue path → Checkable answer linter scratch path) :
    Pass answer linter scratch scriptExtensions script
      (fun path => scriptAdds (leftBy answer scratch path) path) files := by
  have hcheckable : ∀ path ∈ due scriptExtensions files, Checkable answer linter scratch path :=
    fun path hp => h path (List.mem_filter.1 hp).1 (.inr (List.mem_filter.1 hp).2)
  refine ⟨hcheckable, ?_, fun _ => scriptAdds_additive scratch, ?_⟩
  · intro path hp
    exact script_adds (hcheckable path hp).checkout.regular path
  · intro path hp
    exact (alone_script (List.mem_filter.1 hp).2).symm

theorem checkEach_adds {extensions files : List Text} {parts : List Findings}
    (hgit : programs.GoBy scratch answer)
    (hpass : Pass answer linter scratch extensions check adds files)
    (htidy : Tidy scratch s.tree) (hfound : s.findings = Findings.merge scratch parts)
    (hlegible : ∀ path ∈ due extensions files, Legible answer scratch path) :
    ∃ s', checkEach programs scratch extensions check files s = .ok () s' ∧
      s'.findings = Findings.merge scratch
        (parts ++ (due extensions files).map (alone answer linter scratch)) ∧
      Tidy scratch s'.tree := by
  have hscratch : s.findings.scratch = scratch := by
    rw [hfound]
    rfl
  obtain ⟨s', hrun, hfound', htidy'⟩ := forM_inspect hgit htidy hscratch
    (fun path hp => (hpass.checkable path hp).checkout) hlegible hpass.step hpass.keeps_scratch
  refine ⟨s', (checkEach_eq_forM files s).trans hrun, ?_, htidy'⟩
  rw [hfound', hfound, Findings.foldl_merge fun path _ => hpass.additive path,
    List.map_congr_left hpass.fromFresh]

theorem checkEach_illegible {extensions files : List Text} (hgit : programs.GoBy scratch answer)
    (hpass : Pass answer linter scratch extensions check adds files)
    (htidy : Tidy scratch s.tree) (hscratch : s.findings.scratch = scratch)
    (hillegible : ∃ path ∈ due extensions files, ¬Legible answer scratch path) :
    ∃ s', checkEach programs scratch extensions check files s =
      .error .undecodableOutput s' := by
  obtain ⟨s', hrun⟩ := forM_inspect_illegible hgit htidy hscratch
    (fun path hp => (hpass.checkable path hp).checkout) hillegible hpass.step hpass.keeps_scratch
  exact ⟨s', (checkEach_eq_forM files s).trans hrun⟩

/-- A run finds what is found in the single files, put together. -/
theorem run_eq_together {files : List Text} (hgit : programs.GoBy scratch answer) (hs : Usable scratch s.tree)
    (h : ∀ path ∈ files, IsDue path → Checkable answer linter scratch path)
    (hlegible : ∀ path ∈ files, IsDue path → Legible answer scratch path) :
    ∃ s', run programs linter scratch files s =
      .ok (together answer linter scratch files) s' := by
  obtain ⟨tree, hprepare, htidy⟩ := prepare_usable hs
  obtain ⟨s₁, hrun₁, hfound₁, htidy₁⟩ := checkEach_adds hgit (php_pass hgit.others h)
    (s := { s with tree, findings := Findings.fresh scratch }) htidy (Findings.merge_nil scratch).symm
    fun path hp => hlegible path (List.mem_filter.1 hp).1 (.inl (List.mem_filter.1 hp).2)
  obtain ⟨s₂, hrun₂, hfound₂, _⟩ := checkEach_adds hgit (script_pass h) htidy₁ hfound₁
    fun path hp => hlegible path (List.mem_filter.1 hp).1 (.inr (List.mem_filter.1 hp).2)
  refine ⟨s₂, ?_⟩
  rw [run_of_prepare hprepare, bind_of_ok hrun₁, bind_of_ok hrun₂, get_bind, hfound₂, together,
    List.map_append]
  rfl

theorem run_illegible {files : List Text} (hgit : programs.GoBy scratch answer) (hs : Usable scratch s.tree)
    (h : ∀ path ∈ files, IsDue path → Checkable answer linter scratch path) (hp : path ∈ files)
    (hdue : IsDue path) (hillegible : ¬Legible answer scratch path) :
    ∃ s', run programs linter scratch files s = .error .undecodableOutput s' := by
  obtain ⟨tree, hprepare, htidy⟩ := prepare_usable hs
  rw [run_of_prepare hprepare]
  by_cases hphp : ∃ p ∈ due phpExtensions files, ¬Legible answer scratch p
  · obtain ⟨s', hrun⟩ := checkEach_illegible hgit (php_pass hgit.others h)
      (s := { s with tree, findings := Findings.fresh scratch }) htidy rfl hphp
    exact ⟨s', bind_of_error hrun⟩
  · have hlegible : ∀ p ∈ due phpExtensions files, Legible answer scratch p := by
      intro p hp
      by_contra hnot
      exact hphp ⟨p, hp, hnot⟩
    have hscript : path ∈ due scriptExtensions files := by
      rcases hdue with hdue | hdue
      · exact absurd (hlegible path (List.mem_filter.2 ⟨hp, hdue⟩)) hillegible
      · exact List.mem_filter.2 ⟨hp, hdue⟩
    obtain ⟨s₁, hrun₁, hfound₁, htidy₁⟩ := checkEach_adds hgit (php_pass hgit.others h)
      (s := { s with tree, findings := Findings.fresh scratch }) htidy
      (Findings.merge_nil scratch).symm hlegible
    have hscratch₁ : s₁.findings.scratch = scratch := by
      rw [hfound₁]
      rfl
    obtain ⟨s', hrun⟩ := checkEach_illegible hgit (script_pass h) htidy₁ hscratch₁
      ⟨path, hscript, hillegible⟩
    refine ⟨s', ?_⟩
    rw [bind_of_ok hrun₁]
    exact bind_of_error hrun

theorem together_single (path : Text) :
    together answer linter scratch [path] = alone answer linter scratch path := by
  have hplus : ∀ found, Findings.Additive scratch found →
      Findings.merge scratch [found (Findings.fresh scratch)] = found (Findings.fresh scratch) := by
    intro found hfound
    calc Findings.merge scratch [found (Findings.fresh scratch)]
      _ = (Findings.merge scratch []).plus (found (Findings.fresh scratch)) :=
        Findings.merge_concat scratch [] _
      _ = found (Findings.fresh scratch) := (hfound _).symm
  by_cases hphp : hasExtension phpExtensions path
  · have hdue : due phpExtensions [path] ++ due scriptExtensions [path] = [path] := by
      simp [due, hphp, not_script_of_php hphp]
    rw [together, hdue, List.map_singleton, alone_php hphp]
    exact hplus _ (phpAdds_additive scratch)
  · by_cases hscript : hasExtension scriptExtensions path
    · have hdue : due phpExtensions [path] ++ due scriptExtensions [path] = [path] := by
        simp [due, hphp, hscript]
      rw [together, hdue, List.map_singleton, alone_script hscript]
      exact hplus _ (scriptAdds_additive scratch)
    · have hdue : due phpExtensions [path] ++ due scriptExtensions [path] = [] := by
        simp [due, hphp, hscript]
      rw [together, hdue, alone_other (by simp [IsDue, hphp, hscript])]
      rfl

/-- One file does not bear on another. A run finds what runs over the single files find, put together,
and the order of the files shows in the order of what is found alone. A file that git's output cannot be
read for stops a run over it as it stops one over many. -/
theorem files_are_independent {files : List Text} (hgit : programs.GoBy scratch answer)
    (hs : Usable scratch s.tree)
    (h : ∀ path ∈ files, IsDue path → Checkable answer linter scratch path) :
    (∀ path ∈ files, (IsDue path → Legible answer scratch path) →
        ∃ s', run programs linter scratch [path] s =
          .ok (alone answer linter scratch path) s') ∧
      ((∀ path ∈ files, IsDue path → Legible answer scratch path) →
        (∃ s', run programs linter scratch files s =
          .ok (together answer linter scratch files) s') ∧
        ∀ files', files.Perm files' →
          ∃ findings s', run programs linter scratch files' s = .ok findings s' ∧
            (together answer linter scratch files).Rearranged findings) ∧
      (∀ path ∈ files, IsDue path → ¬Legible answer scratch path →
        ∀ files', files' = [path] ∨ files.Perm files' →
          ∃ s', run programs linter scratch files' s = .error .undecodableOutput s') ∧
      (∀ path ∈ files, ¬IsDue path →
        alone answer linter scratch path = Findings.fresh scratch) ∧
      ∀ path, (together answer linter scratch files).lintOutput.lookup path =
        if path ∈ files then (alone answer linter scratch path).lintOutput.lookup path else none := by
  have hsingle : ∀ path ∈ files, ∀ p ∈ [path], IsDue p → Checkable answer linter scratch p := by
    intro path hp p hmem
    rw [List.mem_singleton.1 hmem]
    exact h path hp
  refine ⟨?_, ?_, ?_, fun path _ => alone_other, ?_⟩
  · intro path hp hlegible
    rw [← together_single]
    apply run_eq_together hgit hs (hsingle path hp)
    intro p hmem
    rw [List.mem_singleton.1 hmem]
    exact hlegible
  · intro hlegible
    refine ⟨run_eq_together hgit hs h hlegible, fun files' hperm => ?_⟩
    obtain ⟨s', hrun⟩ := run_eq_together hgit hs (fun path hp => h path (hperm.mem_iff.2 hp))
      fun path hp => hlegible path (hperm.mem_iff.2 hp)
    refine ⟨_, s', hrun, ?_⟩
    apply Findings.merge_rearranged
    · exact (hperm.filter _).append (hperm.filter _)
    · exact fun path _ => alone_ownOutput path
  · intro path hp hdue hillegible files' hfiles
    rcases hfiles with rfl | hperm
    · exact run_illegible hgit hs (hsingle path hp) List.mem_cons_self hdue hillegible
    · exact run_illegible hgit hs (fun p hp' => h p (hperm.mem_iff.2 hp')) (hperm.mem_iff.1 hp) hdue
        hillegible
  · intro path
    rw [together, Findings.lookup_merge fun p _ => alone_ownOutput p]
    have hmem : path ∈ due phpExtensions files ++ due scriptExtensions files ↔
        path ∈ files ∧ IsDue path := by
      simp only [due, List.mem_append, List.mem_filter, IsDue]
      tauto
    by_cases hdue : IsDue path
    · simp only [hmem, hdue, and_true]
    · rw [if_neg fun hp => hdue (hmem.1 hp).2, alone_other hdue]
      exact (ite_self _).symm

def acceptAll (command : Command) : Reply :=
  if command[1]? = some Command.checkoutWord then
    Hook.exited 0 "" (.file (Utf8.encode "<?php dpm(1); alert(1);".toList))
  else Hook.exited 0 "<?php dpm(1); alert(1);" .nothing

theorem nested_files_are_independent :
    ∃ s' s'', run (.byCommand acceptAll) ⟨"php".toList⟩ (Path.ofText Hook.scratchDirectory)
        ["lib/b.js".toList, "README".toList, "lib/a.php".toList] Dialogue.start =
          .ok (together acceptAll ⟨"php".toList⟩ (Path.ofText Hook.scratchDirectory)
            ["lib/b.js".toList, "README".toList, "lib/a.php".toList]) s' ∧
      run (.byCommand acceptAll) ⟨"php".toList⟩ (Path.ofText Hook.scratchDirectory)
        ["lib/a.php".toList] Dialogue.start =
          .ok (alone acceptAll ⟨"php".toList⟩ (Path.ofText Hook.scratchDirectory)
            "lib/a.php".toList) s'' := by
  have husable : Usable (Path.ofText Hook.scratchDirectory) Dialogue.start.tree := by
    apply usable_of_absent
    · decide +kernel
    · decide +kernel
    · exact rfl
  have hlegible : ∀ path, Legible acceptAll (Path.ofText Hook.scratchDirectory) path := by
    intro path
    change (Git.meaning Command.checkoutWord (.completed ⟨0, Utf8.encode "".toList, []⟩)).isOk
    decide +kernel
  have hcheckable : ∀ path ∈ ["lib/b.js".toList, "README".toList, "lib/a.php".toList],
      IsDue path → Checkable acceptAll ⟨"php".toList⟩ (Path.ofText Hook.scratchDirectory) path := by
    intro path hp _
    have hpaths : ∀ p ∈ ["lib/b.js".toList, "README".toList, "lib/a.php".toList],
        (∀ name ∈ WrittenPath.steps p, Path.isName name ∧ name ≠ Path.above) ∧
          (WrittenPath.steps p).head? ≠ some Check.lintLogName ∧
            ((Path.ofText Hook.scratchDirectory).child p).place ∉
              (Path.ofText Hook.scratchDirectory).way := by decide +kernel
    obtain ⟨hrepository, hapart, hplace⟩ := hpaths path hp
    refine ⟨⟨hrepository, hapart, hplace, ⟨_, rfl, rfl⟩, Deposit.noConfusion⟩,
      fun _ _ => ⟨?_, ?_⟩⟩
    · exact rfl
    · change (Linter.lintedBy ⟨"php".toList⟩
        (Hook.exited 0 "<?php dpm(1); alert(1);" .nothing).response).isOk
      decide +kernel
  have hleft : ∀ path, (acceptAll (Staged.checkoutCommand (Path.ofText Hook.scratchDirectory)
      path)).left ≠ .directory := fun _ => Deposit.noConfusion
  obtain ⟨hsingle, hwhole, _⟩ := files_are_independent (Programs.goBy_byCommand _ hleft)
    husable hcheckable
  obtain ⟨⟨s', h⟩, _⟩ := hwhole fun path _ _ => hlegible path
  obtain ⟨s'', h'⟩ := hsingle "lib/a.php".toList (by simp) fun _ => hlegible _
  exact ⟨s', s'', h, h'⟩

end Gate

end CommitGate
