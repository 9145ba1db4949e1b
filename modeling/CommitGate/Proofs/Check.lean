import CommitGate.Check
import CommitGate.Proofs.Answers

/-! The checks of a single copy, as one equation each: how a check ends, and what it adds to the
findings, goes by the copy and the linter's two responses. -/
namespace CommitGate.Check

open Session

def withCalls (stripped : Option Text) (path text : Text) (f : Findings) : Findings :=
  if hasDebugCall stripped text then
    f.addReport (Report.debugBlock (Context.ofCalls phpDebugFunctions (LineComment.strip text))
      "PHP".toList path)
  else f

theorem withCalls_scratch (stripped : Option Text) (path text : Text) (f : Findings) :
    (withCalls stripped path text f).scratch = f.scratch := by
  rw [withCalls]
  split <;> rfl

def withLint (path : Text) (lint : LintResult) (f : Findings) : Findings :=
  if lint.isParseError then (f.addLintOutput path lint.output).addSyntaxError path
  else f.addLintOutput path lint.output

def withScript (path text : Text) (f : Findings) : Findings :=
  if (Calls.find scriptDebugFunctions (LineComment.strip text)).isEmpty then f
  else f.addReport (Report.debugBlock
    (Context.ofCalls scriptDebugFunctions (LineComment.strip text)) "Javascript".toList path)

theorem withLint_debugReports (path : Text) (lint : LintResult) (f : Findings) :
    (withLint path lint f).debugReports = f.debugReports := by
  rw [withLint]
  split <;> rfl

theorem withLint_keeps_abort (path : Text) (lint : LintResult) {f : Findings}
    (h : f.abortRequested) : (withLint path lint f).abortRequested := by
  rw [withLint]
  split
  · rfl
  · exact h

variable {s : Session} {copy : Path} {content : Bytes} {fault : FileFault}

theorem readCopy_unreadable (path : Text) (h : s.tree.read copy.toText = .error fault) :
    ∃ log, readCopy path copy s = .ok none
      { s with log, findings := s.findings.addReport (Report.unreadableBlock path) } := by
  rw [readCopy, get_bind, h]
  exact ⟨_, rfl⟩

theorem readCopy_readable (path : Text) (h : s.tree.read copy.toText = .ok content) :
    readCopy path copy s = .ok (some (Utf8.readLossy content)) s := by
  rw [readCopy, get_bind, h]
  rfl

theorem script_unreadable (path : Text) (h : s.tree.read copy.toText = .error fault) :
    ∃ log, script path copy s = .ok ()
      { s with log, findings := s.findings.addReport (Report.unreadableBlock path) } := by
  obtain ⟨log, hr⟩ := readCopy_unreadable path h
  exact ⟨log, by rw [script, bind_of_ok hr]; rfl⟩

theorem script_readable (path : Text) (h : s.tree.read copy.toText = .ok content) :
    script path copy s = .ok ()
      { s with findings := withScript path (Utf8.readLossy content) s.findings } := by
  rw [script, bind_of_ok (readCopy_readable path h)]
  dsimp only
  rw [withScript]
  cases (Calls.find scriptDebugFunctions (LineComment.strip (Utf8.readLossy content))).isEmpty with
  | true => rfl
  | false => rfl

theorem php_unreadable (programs : Programs) (linter : Linter) (path : Text)
    (h : s.tree.read copy.toText = .error fault) :
    ∃ log, php programs linter path copy s = .ok ()
      { s with log, findings := s.findings.addReport (Report.unreadableBlock path) } := by
  obtain ⟨log, hr⟩ := readCopy_unreadable path h
  exact ⟨log, by rw [php, bind_of_ok hr]; rfl⟩

theorem takeLint_cases (path : Text) (lint : LintResult) (s : Session) :
    (∃ tree log, s.tree.append (s.findings.scratch.child lintLogName).toText
        (Utf8.encode lint.output) = .ok tree ∧
      takeLint path lint s =
        .ok () { s with tree, log, findings := withLint path lint s.findings }) ∨
      ∃ refusal, s.tree.append (s.findings.scratch.child lintLogName).toText
          (Utf8.encode lint.output) = .error refusal ∧
        takeLint path lint s = .error (.file refusal)
          { s with findings := s.findings.addLintOutput path lint.output } := by
  have added : updateFindings (·.addLintOutput path lint.output) s =
      .ok () { s with findings := s.findings.addLintOutput path lint.output } := rfl
  rw [takeLint, bind_of_ok added, get_bind]
  dsimp only
  cases h : s.tree.append (s.findings.scratch.child lintLogName).toText
      (Utf8.encode lint.output) with
  | error refusal =>
    exact .inr ⟨refusal, rfl, bind_of_error (changeTree_error h)⟩
  | ok tree =>
    rw [bind_of_ok (changeTree_ok h)]
    rw [withLint]
    cases lint.isParseError with
    | true => exact .inl ⟨tree, _, rfl, rfl⟩
    | false => exact .inl ⟨tree, s.log, rfl, rfl⟩

def stripQuery (linter : Linter) (copy : Path) (s : Session) : Query :=
  ⟨linter.stripCommand copy, s.moment⟩

/-- The lint of a copy comes right after its strip. -/
def lintQuery (programs : Programs) (linter : Linter) (copy : Path) (s : Session) : Query :=
  ⟨linter.lintCommand copy, (stripQuery linter copy s).after programs⟩

/-- How the check of a PHP copy may go: the queries that it makes, and its end. -/
inductive PhpRun (programs : Programs) (linter : Linter) (path : Text) (copy : Path) (s : Session) :
    List Query → EStateM.Result Fault Session Unit → Prop where
  | unreadable {fault : FileFault} {s' : Session} :
      s.tree.read copy.toText = .error fault →
      s'.findings = s.findings.addReport (Report.unreadableBlock path) →
      PhpRun programs linter path copy s [] (.ok () s')
  | noStrip {content : Bytes} {fault : Fault} {s' : Session} :
      s.tree.read copy.toText = .ok content →
      Linter.strippedBy ((stripQuery linter copy s).response programs) = .error fault →
      s'.findings = s.findings →
      PhpRun programs linter path copy s [stripQuery linter copy s] (.error fault s')
  | noLint {content : Bytes} {stripped : Option Text} {fault : Fault} {s' : Session} :
      s.tree.read copy.toText = .ok content →
      Linter.strippedBy ((stripQuery linter copy s).response programs) = .ok stripped →
      linter.lintedBy ((lintQuery programs linter copy s).response programs) = .error fault →
      s'.findings = withCalls stripped path (Utf8.readLossy content) s.findings →
      PhpRun programs linter path copy s
        [stripQuery linter copy s, lintQuery programs linter copy s] (.error fault s')
  | noLog {content : Bytes} {stripped : Option Text} {lint : LintResult} {refusal : FileFault}
      {s' : Session} :
      s.tree.read copy.toText = .ok content →
      Linter.strippedBy ((stripQuery linter copy s).response programs) = .ok stripped →
      linter.lintedBy ((lintQuery programs linter copy s).response programs) = .ok lint →
      s.tree.append (s.findings.scratch.child lintLogName).toText (Utf8.encode lint.output) =
        .error refusal →
      s'.findings =
        (withCalls stripped path (Utf8.readLossy content) s.findings).addLintOutput path lint.output →
      PhpRun programs linter path copy s
        [stripQuery linter copy s, lintQuery programs linter copy s] (.error (.file refusal) s')
  | through {content : Bytes} {stripped : Option Text} {lint : LintResult} {s' : Session} :
      s.tree.read copy.toText = .ok content →
      Linter.strippedBy ((stripQuery linter copy s).response programs) = .ok stripped →
      linter.lintedBy ((lintQuery programs linter copy s).response programs) = .ok lint →
      s.tree.append (s.findings.scratch.child lintLogName).toText (Utf8.encode lint.output) =
        .ok s'.tree →
      s'.findings =
        withLint path lint (withCalls stripped path (Utf8.readLossy content) s.findings) →
      PhpRun programs linter path copy s
        [stripQuery linter copy s, lintQuery programs linter copy s] (.ok () s')

theorem lint_run {programs : Programs} {linter : Linter} {path : Text} {stripped : Option Text}
    (hr : s.tree.read copy.toText = .ok content)
    (hs : Linter.strippedBy ((stripQuery linter copy s).response programs) = .ok stripped)
    {t : Session} (hran : Ran s t [stripQuery linter copy s])
    (hmoment : t.moment = (stripQuery linter copy s).after programs)
    (hfound : t.findings = withCalls stripped path (Utf8.readLossy content) s.findings) :
    Ran s (ending ((linter.check programs copy >>= takeLint path) t))
        [stripQuery linter copy s, lintQuery programs linter copy s] ∧
      PhpRun programs linter path copy s
        [stripQuery linter copy s, lintQuery programs linter copy s]
        ((linter.check programs copy >>= takeLint path) t) := by
  have htree : (t.asked programs (linter.lintCommand copy)).tree = s.tree :=
    (tree_asked (linter.lintCommand_target copy) programs t).trans
      ((congrArg Moment.tree hmoment).trans (tree_asked (linter.stripCommand_target copy) programs s))
  have happend : ∀ content : Bytes,
      (t.asked programs (linter.lintCommand copy)).tree.append
          (t.findings.scratch.child lintLogName).toText content =
        s.tree.append (s.findings.scratch.child lintLogName).toText content := by
    intro content
    rw [htree, hfound, withCalls_scratch]
  have hquery : (⟨linter.lintCommand copy, t.moment⟩ : Query) = lintQuery programs linter copy s :=
    congrArg _ hmoment
  have hran' := hran.trans (ran_asked programs (linter.lintCommand copy) t)
  rw [hquery] at hran'
  obtain ⟨log, hc⟩ := Linter.check_eq programs linter copy t
  rw [hmoment] at hc
  change _ = outcome (linter.lintedBy ((lintQuery programs linter copy s).response programs)) _ at hc
  cases hl : linter.lintedBy ((lintQuery programs linter copy s).response programs) with
  | error fault =>
    rw [hl] at hc
    rw [bind_of_error hc]
    exact ⟨hran', .noLint hr hs hl hfound⟩
  | ok lint =>
    rw [hl] at hc
    rw [bind_of_ok hc]
    dsimp only
    rcases takeLint_cases path lint { t.asked programs (linter.lintCommand copy) with log } with
      ⟨tree, log', ha, ht⟩ | ⟨refusal, ha, ht⟩
    · rw [ht]
      exact ⟨hran', .through hr hs hl ((happend _).symm.trans ha) (congrArg (withLint path lint) hfound)⟩
    · rw [ht]
      exact ⟨hran', .noLog hr hs hl ((happend _).symm.trans ha)
        (congrArg (·.addLintOutput path lint.output) hfound)⟩

theorem php_run (programs : Programs) (linter : Linter) (path : Text) (copy : Path) (s : Session) :
    ∃ queries, Ran s (ending (php programs linter path copy s)) queries ∧
      PhpRun programs linter path copy s queries (php programs linter path copy s) := by
  have hran : Ran s _ [stripQuery linter copy s] := ran_asked programs (linter.stripCommand copy) s
  cases hr : s.tree.read copy.toText with
  | error fault =>
    obtain ⟨log, he⟩ := php_unreadable programs linter path hr
    rw [he]
    exact ⟨[], Ran.none rfl, .unreadable hr rfl⟩
  | ok content =>
    rw [php, bind_of_ok (readCopy_readable path hr)]
    obtain ⟨log, hstrip⟩ := Linter.strip?_eq programs linter copy s
    change _ = outcome (Linter.strippedBy ((stripQuery linter copy s).response programs)) _ at hstrip
    dsimp only
    cases hs : Linter.strippedBy ((stripQuery linter copy s).response programs) with
    | error fault =>
      rw [hs] at hstrip
      rw [bind_of_error hstrip]
      exact ⟨_, hran, .noStrip hr hs rfl⟩
    | ok stripped =>
      rw [hs] at hstrip
      rw [bind_of_ok hstrip]
      dsimp only
      cases hcall : hasDebugCall stripped (Utf8.readLossy content) with
      | true =>
        refine ⟨_, lint_run (t := _) hr hs hran rfl ?_⟩
        exact (if_pos hcall).symm
      | false =>
        refine ⟨_, lint_run hr hs hran rfl ?_⟩
        rw [withCalls, hcall]
        rfl

/-- What the search for calls reports stays, and so does its request to abort, however the check ends. -/
theorem php_searched {programs : Programs} {linter : Linter} {stripped : Option Text} (path : Text)
    (hread : s.tree.read copy.toText = .ok content)
    (hstrip : Linter.strippedBy ((stripQuery linter copy s).response programs) = .ok stripped) :
    (ending (php programs linter path copy s)).findings.debugReports =
        (withCalls stripped path (Utf8.readLossy content) s.findings).debugReports ∧
      ((withCalls stripped path (Utf8.readLossy content) s.findings).abortRequested →
        (ending (php programs linter path copy s)).findings.abortRequested) := by
  obtain ⟨queries, _, hrun⟩ := php_run programs linter path copy s
  generalize php programs linter path copy s = r at hrun ⊢
  cases hrun with
  | unreadable hr _ => cases hread.symm.trans hr
  | noStrip _ hs => cases hstrip.symm.trans hs
  | noLint hr hs _ hf =>
    cases hread.symm.trans hr
    cases hstrip.symm.trans hs
    rw [ending, hf]
    exact ⟨rfl, id⟩
  | noLog hr hs _ _ hf =>
    cases hread.symm.trans hr
    cases hstrip.symm.trans hs
    rw [ending, hf]
    exact ⟨rfl, id⟩
  | through hr hs _ _ hf =>
    cases hread.symm.trans hr
    cases hstrip.symm.trans hs
    rw [ending, hf]
    exact ⟨withLint_debugReports _ _ _, withLint_keeps_abort _ _⟩

end CommitGate.Check
