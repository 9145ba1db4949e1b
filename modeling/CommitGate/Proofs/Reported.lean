import CommitGate.Proofs.Bookkeeping
import CommitGate.Proofs.Complete

/-! What of a run's findings its report names. An unreadable copy and a debug call bring a block with the
path of their file. A syntax error brings the telling rows of the lint alone, so its file is named if
one of these names it, or a block does, and else not at all. -/
namespace CommitGate

open Session

namespace Text

theorem infix_append_cons_iff {x : Char} {part a b : Text} (hx : x ∉ part) :
    part <:+: a ++ x :: b ↔ part <:+: a ∨ part <:+: b := by
  constructor
  · intro h
    induction a with
    | nil =>
      rcases List.infix_cons_iff.1 h with hpre | hin
      · exact .inl ((prefix_append_cons_iff hx [] b).1 hpre).isInfix
      · exact .inr hin
    | cons c a ih =>
      rcases List.infix_cons_iff.1 h with hpre | hin
      · exact .inl ((prefix_append_cons_iff hx (c :: a) b).1 hpre).isInfix
      · rcases ih hin with ha | hb
        · exact .inl (List.infix_cons ha)
        · exact .inr hb
  · rintro (ha | hb)
    · exact ha.trans (List.prefix_append _ _).isInfix
    · exact hb.trans ((List.suffix_cons x b).trans (List.suffix_append _ _)).isInfix

theorem unlines_singleton (piece : Text) : unlines [piece] = piece := by simp [unlines]

theorem infix_unlines {piece : Text} {pieces : List Text} (h : piece ∈ pieces) :
    piece <:+: unlines pieces := by
  induction pieces with
  | nil => cases h
  | cons first rest ih =>
    cases rest with
    | nil =>
      rw [List.mem_singleton.1 h, unlines_singleton]
    | cons next more =>
      change piece <:+: first ++ '\n' :: unlines (next :: more)
      rcases List.mem_cons.1 h with rfl | h
      · exact (List.prefix_append _ _).isInfix
      · exact (ih h).trans ((List.suffix_cons _ _).trans (List.suffix_append _ _)).isInfix

theorem infix_unlines_iff {part : Text} {pieces : List Text} (hbreak : '\n' ∉ part)
    (hne : part ≠ []) : part <:+: unlines pieces ↔ ∃ piece ∈ pieces, part <:+: piece := by
  constructor
  · intro h
    induction pieces with
    | nil => exact absurd (List.infix_nil.1 h) hne
    | cons first rest ih =>
      cases rest with
      | nil => exact ⟨first, List.mem_singleton_self _, unlines_singleton first ▸ h⟩
      | cons next more =>
        rcases (infix_append_cons_iff (a := first) (b := unlines (next :: more)) hbreak).1 h with
          hfirst | hrest
        · exact ⟨first, List.mem_cons_self, hfirst⟩
        · obtain ⟨piece, hp, hin⟩ := ih hrest
          exact ⟨piece, .tail _ hp, hin⟩
  · rintro ⟨piece, hp, hin⟩
    exact hin.trans (infix_unlines hp)

end Text

namespace Report

variable {f g : Findings} {path report : Text}

/-- A block of the report, or a telling row of one of the lints in it, has the path in it. -/
def Names (f : Findings) (path : Text) : Prop :=
  (∃ block ∈ f.debugReports, path <:+: block) ∨
    ∃ p ∈ f.syntaxErrorFiles, ∃ output, f.lintOutput.lookup p = some output ∧
      ∃ row ∈ lintRows f.scratch output, path <:+: row

theorem infix_debugBlock (context language path : Text) :
    path <:+: debugBlock context language path := by
  have hline : path <:+: "^ Found ".toList ++ language ++ " debug code in ".toList ++ path :=
    (List.suffix_append _ _).isInfix
  apply hline.trans
  apply Text.infix_unlines
  simp

theorem infix_unreadableBlock (path : Text) : path <:+: unreadableBlock path := by
  have hline : path <:+: "^ Could not read the staged version of ".toList ++ path :=
    (List.suffix_append _ _).isInfix
  apply hline.trans
  apply Text.infix_unlines
  simp

def sectionHeading : Text := "The following syntax errors were found:".toList

def syntaxBlock (rows : List Text) : Text :=
  Text.unlines ([[], sectionHeading, rule] ++ rows ++ [rule])

/-- No text of the report's own can be taken for the path of a PHP file. -/
theorem not_infix_fixed (hext : Gate.hasExtension Gate.phpExtensions path) :
    ∀ fixed ∈ [[], sectionHeading, rule, advice], ¬path <:+: fixed := by
  intro fixed hfixed hin
  obtain ⟨ext, hmem, hsuffix⟩ := List.any_eq_true.1 hext
  have hall : ∀ ext ∈ Gate.phpExtensions, ∀ fixed ∈ [[], sectionHeading, rule, advice],
      ¬ext <:+: fixed := by decide +kernel
  exact hall ext hmem fixed hfixed ((List.isSuffixOf_iff_suffix.1 hsuffix).isInfix.trans hin)

theorem mem_lintRows {paths : List Text} {rows : List (List Text)}
    (h : paths.mapM (lintRowsOf f) = .ok rows) {shown : List Text} :
    shown ∈ rows ↔ ∃ p ∈ paths, ∃ output, f.lintOutput.lookup p = some output ∧
      shown = lintRows f.scratch output := by
  induction paths generalizing rows with
  | nil =>
    cases h
    simp
  | cons p rest ih =>
    rw [List.mapM_cons, lintRowsOf] at h
    cases ho : f.lintOutput.lookup p with
    | none =>
      rw [ho] at h
      cases h
    | some output =>
      rw [ho] at h
      cases hrest : rest.mapM (lintRowsOf f) with
      | error fault =>
        rw [hrest] at h
        cases h
      | ok more =>
        rw [hrest] at h
        cases h
        rw [List.mem_cons, ih hrest]
        simp [ho]

theorem mem_flatten_lintRows {paths : List Text} {rows : List (List Text)}
    (h : paths.mapM (lintRowsOf f) = .ok rows) {row : Text} :
    row ∈ rows.flatten ↔ ∃ p ∈ paths, ∃ output, f.lintOutput.lookup p = some output ∧
      row ∈ lintRows f.scratch output := by
  rw [List.mem_flatten]
  constructor
  · rintro ⟨shown, hshown, hrow⟩
    obtain ⟨p, hp, output, ho, rfl⟩ := (mem_lintRows h).1 hshown
    exact ⟨p, hp, output, ho, hrow⟩
  · rintro ⟨p, hp, output, ho, hrow⟩
    exact ⟨_, (mem_lintRows h).2 ⟨p, hp, output, ho, rfl⟩, hrow⟩

theorem render_eq (ha : f.abortRequested = true) (h : render f = .ok report) :
    ∃ rows, f.syntaxErrorFiles.mapM (lintRowsOf f) = .ok rows ∧
      report = Text.unlines (f.debugReports ++
        (if f.syntaxErrorFiles.isEmpty then [] else [syntaxBlock rows.flatten]) ++ [advice]) := by
  rw [render, if_pos ha, syntaxSection] at h
  by_cases he : f.syntaxErrorFiles.isEmpty
  · rw [if_pos he] at h
    cases h
    refine ⟨[], ?_, ?_⟩
    · rw [List.isEmpty_iff.1 he]
      rfl
    · rw [if_pos he]
  · rw [if_neg he] at h
    cases hrows : f.syntaxErrorFiles.mapM (lintRowsOf f) with
    | error fault =>
      rw [hrows] at h
      cases h
    | ok rows =>
      rw [hrows] at h
      cases h
      refine ⟨rows, rfl, ?_⟩
      rw [if_neg he]
      rfl

theorem infix_of_block (ha : f.abortRequested = true) (h : render f = .ok report) {block : Text}
    (hb : block ∈ f.debugReports) (hin : path <:+: block) : path <:+: report := by
  obtain ⟨rows, _, rfl⟩ := render_eq ha h
  apply hin.trans
  apply Text.infix_unlines
  simp [hb]

/-- A report has the path of a PHP file in it exactly if a block or a telling row has it. -/
theorem infix_iff_names (ha : f.abortRequested = true) (h : render f = .ok report)
    (hext : Gate.hasExtension Gate.phpExtensions path) (hbreak : '\n' ∉ path) :
    path <:+: report ↔ Names f path := by
  obtain ⟨rows, hrows, rfl⟩ := render_eq ha h
  have hfixed := not_infix_fixed hext
  have hne : path ≠ [] := fun he => hfixed [] (by simp) (he ▸ List.infix_rfl)
  have hsection : path <:+: syntaxBlock rows.flatten ↔ ∃ row ∈ rows.flatten, path <:+: row := by
    rw [syntaxBlock, Text.infix_unlines_iff hbreak hne]
    constructor
    · rintro ⟨piece, hp, hin⟩
      rcases List.mem_append.1 hp with hp | hp
      · rcases List.mem_append.1 hp with hp | hp
        · exact absurd hin (hfixed piece (by simp at hp ⊢; tauto))
        · exact ⟨piece, hp, hin⟩
      · exact absurd hin (hfixed piece (by simp at hp ⊢; tauto))
    · rintro ⟨row, hr, hin⟩
      exact ⟨row, by simp [List.mem_flatten.1 hr], hin⟩
  have hmentioned : (∃ row ∈ rows.flatten, path <:+: row) ↔
      ∃ p ∈ f.syntaxErrorFiles, ∃ output, f.lintOutput.lookup p = some output ∧
        ∃ row ∈ lintRows f.scratch output, path <:+: row := by
    constructor
    · rintro ⟨row, hr, hin⟩
      obtain ⟨p, hp, output, ho, hrow⟩ := (mem_flatten_lintRows hrows).1 hr
      exact ⟨p, hp, output, ho, row, hrow, hin⟩
    · rintro ⟨p, hp, output, ho, row, hrow, hin⟩
      exact ⟨row, (mem_flatten_lintRows hrows).2 ⟨p, hp, output, ho, hrow⟩, hin⟩
  rw [Names, ← hmentioned, ← hsection, Text.infix_unlines_iff hbreak hne]
  constructor
  · rintro ⟨piece, hp, hin⟩
    rcases List.mem_append.1 hp with hp | hp
    · rcases List.mem_append.1 hp with hp | hp
      · exact .inl ⟨piece, hp, hin⟩
      · split at hp
        · cases hp
        · exact .inr (List.mem_singleton.1 hp ▸ hin)
    · exact absurd hin (hfixed piece (by simp at hp ⊢; tauto))
  · rintro (⟨block, hb, hin⟩ | hin)
    · exact ⟨block, by simp [hb], hin⟩
    · refine ⟨_, ?_, hin⟩
      by_cases he : f.syntaxErrorFiles.isEmpty
      · -- Without such a file there are no rows, and so no path in the section.
        obtain ⟨row, hr, _⟩ := hsection.1 hin
        obtain ⟨p, hp, _⟩ := (mem_flatten_lintRows hrows).1 hr
        simp [List.isEmpty_iff.1 he] at hp
      · simp [he]

end Report

namespace Check

variable {programs : Programs} {linter : Linter} {path : Text} {copy : Path} {s s' : Session}

def PhpShown (programs : Programs) (linter : Linter) (copy : Path) (m : Moment) : Prop :=
  (∃ fault, m.tree.read copy.toText = .error fault) ∨
    ∃ content, m.tree.read copy.toText = .ok content ∧
      ¬Calls.Free phpDebugFunctions
        (code (m.ask programs (linter.stripCommand copy)).1 (Utf8.readLossy content))

def PhpRejected (programs : Programs) (linter : Linter) (copy : Path) (m : Moment) : Prop :=
  (∃ content, m.tree.read copy.toText = .ok content) ∧
    Rejects ((m.ask programs (linter.stripCommand copy)).2.ask programs (linter.lintCommand copy)).1

def ScriptShown (copy : Path) (m : Moment) : Prop :=
  (∃ fault, m.tree.read copy.toText = .error fault) ∨
    ∃ content, m.tree.read copy.toText = .ok content ∧
      ∃ line ∈ (Utf8.readLossy content).splitOn '\n',
        ¬Calls.Free scriptDebugFunctions (LineComment.cut line)

/-- What findings have of a file that is shown or rejected. -/
structure Noted (path : Text) (shown rejected : Prop) (f : Findings) : Prop where
  shown : shown → ∃ block ∈ f.debugReports, path <:+: block
  rejected : rejected → path ∈ f.syntaxErrorFiles

structure Notes (path : Text) (shown rejected : Prop) (f g : Findings) : Prop where
  added : f.Extends g
  accounts : (∃ lints, f.Accounts lints) → ∃ lints, g.Accounts lints
  noted : Noted path shown rejected g

theorem Noted.extends {shown rejected : Prop} {f g : Findings} (h : Noted path shown rejected f)
    (hfg : f.Extends g) : Noted path shown rejected g where
  shown hs := by
    obtain ⟨block, hb, hin⟩ := h.shown hs
    exact ⟨block, hfg.reports.subset hb, hin⟩
  rejected hr := hfg.errors.subset (h.rejected hr)

theorem noted_of_report {shown : Prop} {f : Findings} {block : Text} (hin : path <:+: block) :
    Noted path shown False (f.addReport block) where
  shown _ := ⟨block, List.mem_append_right _ (List.mem_singleton_self block), hin⟩
  rejected h := h.elim

theorem withCalls_noted {r : Response} {stripped : Option Text} {text : Text} {f : Findings}
    (h : Linter.strippedBy r = .ok stripped) :
    Noted path (¬Calls.Free phpDebugFunctions (code r text)) False
      (withCalls stripped path text f) := by
  by_cases hfree : Calls.Free phpDebugFunctions (code r text)
  · exact ⟨fun hcall => absurd hfree hcall, False.elim⟩
  · have hcall : hasDebugCall stripped text = true := by
      rw [strippedBy_ok h, ← Bool.not_eq_false, Calls.occurIn_eq_false_iff plain_phpDebugFunctions]
      exact hfree
    rw [withCalls, if_pos hcall]
    exact noted_of_report (Report.infix_debugBlock _ _ _)

theorem withLint_rejected {r : Response} {lint : LintResult} {f : Findings}
    (h : linter.lintedBy r = .ok lint) (hr : Rejects r) :
    path ∈ (withLint path lint f).syntaxErrorFiles := by
  rw [withLint, if_pos ((lintedBy_ok h).2 hr)]
  exact List.mem_append_right _ (List.mem_singleton_self path)

theorem php_notes (h : php programs linter path copy s = .ok () s') :
    Notes path (PhpShown programs linter copy s.moment) (PhpRejected programs linter copy s.moment)
      s.findings s'.findings := by
  obtain ⟨queries, _, hrun⟩ := php_run programs linter path copy s
  have hadded := hrun.extends
  have haccounts : (∃ lints, s.findings.Accounts lints) →
      ∃ lints, (ending (php programs linter path copy s)).findings.Accounts lints := by
    rintro ⟨lints, hs⟩
    exact ⟨_, hrun.accounts hs⟩
  rw [h] at hrun hadded haccounts
  refine ⟨hadded, haccounts, ?_⟩
  cases hrun with
  | unreadable hr hf =>
    rw [hf]
    refine ⟨(noted_of_report (Report.infix_unreadableBlock path)).shown, ?_⟩
    rintro ⟨⟨content, hc⟩, _⟩
    cases hr.symm.trans hc
  | through hr hs hl _ hf =>
    rw [hf]
    constructor
    · intro hshown
      rcases hshown with ⟨fault, hfault⟩ | ⟨content, hc, hcall⟩
      · cases hr.symm.trans hfault
      · cases hr.symm.trans hc
        exact ((withCalls_noted hs).extends (Findings.extends_withLint _ _ _)).shown hcall
    · rintro ⟨_, hrejects⟩
      exact withLint_rejected hl hrejects

theorem script_notes (h : script path copy s = .ok () s') :
    Notes path (ScriptShown copy s.moment) False s.findings s'.findings := by
  have hadded := script_extends path copy s
  have haccounts : (∃ lints, s.findings.Accounts lints) →
      ∃ lints, (ending (script path copy s)).findings.Accounts lints := by
    rintro ⟨lints, hs⟩
    exact ⟨lints, script_accounts path copy hs⟩
  rw [h] at hadded haccounts
  refine ⟨hadded, haccounts, ?_⟩
  cases hr : s.tree.read copy.toText with
  | error fault =>
    obtain ⟨log, he⟩ := script_unreadable path hr
    cases h.symm.trans he
    exact noted_of_report (Report.infix_unreadableBlock path)
  | ok content =>
    cases h.symm.trans (script_readable path hr)
    constructor
    · intro hshown
      rcases hshown with ⟨fault, hfault⟩ | ⟨content', hc, line, hline, hcall⟩
      · cases hr.symm.trans hfault
      · cases hr.symm.trans hc
        have hfound : ¬(Calls.find scriptDebugFunctions
            (LineComment.strip (Utf8.readLossy content))).isEmpty := by
          intro hnone
          rw [Calls.find_isEmpty_iff, LineComment.splitOn_strip] at hnone
          apply hcall
          rw [← Calls.occurIn_eq_false_iff plain_scriptDebugFunctions]
          exact hnone _ (List.mem_map_of_mem hline)
        dsimp only
        rw [withScript, if_neg hfound]
        exact (noted_of_report (Report.infix_debugBlock _ _ _)).shown trivial
    · exact False.elim

end Check

namespace Gate

open Check

variable {programs : Programs} {linter : Linter} {scratch : Path} {extensions : List Text}
  {check : Text → Path → Action Unit} {shown rejected : Path → Moment → Prop} {s s' : Session}

theorem inspect_notes {path : Text}
    (hcheck : ∀ copy t t', check path copy t = .ok () t' →
      Notes path (shown copy t.moment) (rejected copy t.moment) t.findings t'.findings)
    (h : inspect programs scratch check path s = .ok () s') :
    Notes path (shown (scratch.child path) ((checkoutQuery scratch path s).after programs))
      (rejected (scratch.child path) ((checkoutQuery scratch path s).after programs))
      s.findings s'.findings := by
  obtain ⟨u, t, tree, hfindings, hmoment, hdone, _, rfl⟩ := inspect_steps h
  have hnotes := hcheck _ _ _ hdone
  rw [hmoment, hfindings] at hnotes
  exact hnotes

theorem checkEach_notes (shown rejected : Path → Moment → Prop) {Clean : Path → Moment → Prop}
    (hsettles : ∀ path copy t, Settles Clean copy t (check path copy t))
    (hcheck : ∀ path copy t t', check path copy t = .ok () t' →
      Notes path (shown copy t.moment) (rejected copy t.moment) t.findings t'.findings)
    {files : List Text} (h : checkEach programs scratch extensions check files s = .ok () s') :
    ∃ queries, Ran s s' queries ∧
      (checkouts queries).map Query.command =
        (due extensions files).map (Staged.checkoutCommand scratch) ∧
      s.findings.Extends s'.findings ∧
      ((∃ lints, s.findings.Accounts lints) → ∃ lints, s'.findings.Accounts lints) ∧
      ∀ x ∈ (due extensions files).zip (checkouts queries),
        Noted x.1 (shown (scratch.child x.1) (x.2.after programs))
          (rejected (scratch.child x.1) (x.2.after programs)) s'.findings := by
  refine checkEach_invariant (fun done t =>
    s.findings.Extends t.findings ∧
      ((∃ lints, s.findings.Accounts lints) → ∃ lints, t.findings.Accounts lints) ∧
      ∀ x ∈ done, Noted x.1 (shown (scratch.child x.1) (x.2.after programs))
        (rejected (scratch.child x.1) (x.2.after programs)) t.findings) hsettles ?_ h
    ⟨Findings.Extends.refl _, id, by simp⟩
  rintro done path t t' - ⟨hadded, haccounts, hnoted⟩ hinspect
  have hnotes := inspect_notes (hcheck path) hinspect
  refine ⟨hadded.trans hnotes.added, fun hs => hnotes.accounts (haccounts hs), ?_⟩
  rw [List.forall_mem_append, List.forall_mem_singleton]
  exact ⟨fun x hx => (hnoted x hx).extends hnotes.added, hnotes.noted⟩

/-- A run that comes to its end can be reported. The report names each file that could not be read or
holds a debug call, and of the files with a syntax error those alone that a block or a telling row of a
lint names. -/
theorem problems_named {files : List Text} {findings : Findings}
    (h : run programs linter scratch files s = .ok findings s') :
    ∃ report forPhp forScripts, Report.render findings = .ok report ∧
      checkouts (queriesBetween s s') = forPhp ++ forScripts ∧
      forPhp.map Query.command =
        (due phpExtensions files).map (Staged.checkoutCommand scratch) ∧
      forScripts.map Query.command =
        (due scriptExtensions files).map (Staged.checkoutCommand scratch) ∧
      (∀ x ∈ (due phpExtensions files).zip forPhp,
        (PhpShown programs linter (scratch.child x.1) (x.2.after programs) → x.1 <:+: report) ∧
        (PhpRejected programs linter (scratch.child x.1) (x.2.after programs) →
          x.1 ∈ findings.syntaxErrorFiles ∧
            ('\n' ∉ x.1 → (x.1 <:+: report ↔ Report.Names findings x.1)))) ∧
      ∀ x ∈ (due scriptExtensions files).zip forScripts,
        ScriptShown (scratch.child x.1) (x.2.after programs) → x.1 <:+: report := by
  rcases run_cases programs linter scratch files s with ⟨refusal, t, he⟩ | ⟨tree, he⟩
  · cases h.symm.trans he
  rw [he] at h
  obtain ⟨_, t, hphp, h⟩ := bind_eq_ok.1 h
  obtain ⟨_, t', hscripts, h⟩ := bind_eq_ok.1 h
  cases h
  obtain ⟨forPhp, hran, hcommands, _, haccounts, hnoted⟩ :=
    checkEach_notes (PhpShown programs linter) (PhpRejected programs linter)
      (php_settles programs linter) (fun _ _ _ _ => php_notes) hphp
  obtain ⟨forScripts, hran', hcommands', hadded, haccounts', hnoted'⟩ :=
    checkEach_notes ScriptShown (fun _ _ => False) script_settles (fun _ _ _ _ => script_notes)
      hscripts
  obtain ⟨lints, hall⟩ := haccounts' (haccounts ⟨[], Findings.accounts_fresh scratch⟩)
  obtain ⟨report, hreport⟩ := hall.printable.render
  have hshown : ∀ path, (∃ block ∈ s'.findings.debugReports, path <:+: block) →
      path <:+: report := by
    rintro path ⟨block, hb, hin⟩
    apply Report.infix_of_block _ hreport hb hin
    apply hall.flag.2
    exact .inl (List.ne_nil_of_mem hb)
  refine ⟨report, checkouts forPhp, checkouts forScripts, hreport, ?_, hcommands, hcommands', ?_, ?_⟩
  · rw [← checkouts_append]
    exact congrArg checkouts (Ran.queriesBetween_eq (hran.trans hran'))
  · rintro ⟨path, q⟩ hx
    have hpath := (hnoted _ hx).extends hadded
    refine ⟨fun hs => hshown path (hpath.shown hs), fun hr => ⟨hpath.rejected hr, ?_⟩⟩
    apply Report.infix_iff_names
    · exact hall.flag.2 (.inr (List.ne_nil_of_mem (hpath.rejected hr)))
    · exact hreport
    · exact (List.mem_filter.1 (List.of_mem_zip hx).1).2
  · rintro ⟨path, q⟩ hx hs
    exact hshown path ((hnoted' _ hx).shown hs)

def runOverOne (responses : Dialogue.Transcript) : EStateM.Result Fault Session Findings :=
  run (Dialogue.programs responses) ⟨"php".toList⟩ (Path.ofText Hook.scratchDirectory)
    ["a.php".toList] Dialogue.start

/-- A checkout that leaves nothing makes an unreadable copy, and the report names its file. -/
theorem unreadable_file_named :
    ∃ findings s' report, runOverOne [Hook.exited 0 "" .nothing] = .ok findings s' ∧
      Report.render findings = .ok report ∧ "a.php".toList <:+: report := by
  have hvalue : (value? (runOverOne [Hook.exited 0 "" .nothing])).isSome := by decide +kernel
  have hread : ∀ q ∈ checkouts (queriesBetween Dialogue.start
      (ending (runOverOne [Hook.exited 0 "" .nothing]))),
      ((q.after (Dialogue.programs [Hook.exited 0 "" .nothing])).tree.read
        ((Path.ofText Hook.scratchDirectory).child "a.php".toList).toText).isOk = false := by
    decide +kernel
  obtain ⟨findings, hfindings⟩ := Option.isSome_iff_exists.1 hvalue
  obtain ⟨s', h⟩ := ok_of_value? hfindings
  obtain ⟨report, forPhp, forScripts, hreport, hqueries, hcommands, _, hnamed, _⟩ :=
    problems_named h
  rw [h] at hread
  change ∀ q ∈ checkouts (queriesBetween Dialogue.start s'), _ at hread
  rw [hqueries] at hread
  obtain ⟨q, rest, rfl⟩ : ∃ q rest, forPhp = q :: rest := by
    cases forPhp with
    | nil => cases hcommands
    | cons q rest => exact ⟨q, rest, rfl⟩
  refine ⟨findings, s', report, h, hreport, (hnamed ("a.php".toList, q) ?_).1 (.inl ?_)⟩
  · exact List.mem_cons_self
  · have hq := hread q List.mem_cons_self
    cases hr : (q.after (Dialogue.programs [Hook.exited 0 "" .nothing])).tree.read
        ((Path.ofText Hook.scratchDirectory).child "a.php".toList).toText with
    | error fault => exact ⟨fault, rfl⟩
    | ok content =>
      rw [hr] at hq
      cases hq

def lintBanner : String := "Errors parsing .validate_pre_commit/a.php\n"

/-- A linter that rejects a file with its banner alone prints no telling row, and the file is not in the
report. -/
theorem rejected_file_unnamed :
    ∃ findings report, value? (runOverOne [checkedOut, Hook.exited 0 "f(1);" .nothing,
        Hook.exited 255 lintBanner .nothing]) = some findings ∧
      findings.syntaxErrorFiles = ["a.php".toList] ∧ Report.render findings = .ok report ∧
      ¬"a.php".toList <:+: report := by
  refine ⟨withLint "a.php".toList ⟨255, lintBanner.toList⟩
      (Findings.fresh (Path.ofText Hook.scratchDirectory)),
    Text.unlines [Text.unlines [[], Report.sectionHeading, Report.rule, Report.rule],
      Report.advice], ?_, rfl, ?_, ?_⟩
  · decide +kernel
  · rfl
  · decide +kernel

end Gate

end CommitGate
