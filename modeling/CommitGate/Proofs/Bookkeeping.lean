import CommitGate.Proofs.Report
import CommitGate.Proofs.Verdict

/-! The books that checks keep. However many copies are checked, and however a check ends, the findings
stay in accord with each other and with the lints that were done, and nothing is ever taken back. -/
namespace CommitGate

open Session

namespace Findings

variable {f g h : Findings} {lints : List (Text × Text)} {path output : Text}

structure Extends (f g : Findings) : Prop where
  scratch : g.scratch = f.scratch
  flag : f.abortRequested = true → g.abortRequested = true
  reports : f.debugReports <+: g.debugReports
  log : f.lintLog <+: g.lintLog
  errors : f.syntaxErrorFiles <+: g.syntaxErrorFiles

/-- Findings that are in accord with some lints, each a path and its output, the first lint first. -/
structure Accounts (f : Findings) (lints : List (Text × Text)) : Prop where
  flag : f.abortRequested = true ↔ f.debugReports ≠ [] ∨ f.syntaxErrorFiles ≠ []
  printable : f.Printable
  log : f.lintLog = lints.flatMap Prod.snd
  keys : (f.lintOutput.map Prod.fst).Nodup
  latest : ∀ path, f.lintOutput.lookup path = lints.reverse.lookup path

theorem Extends.refl (f : Findings) : f.Extends f :=
  ⟨rfl, id, List.prefix_rfl, List.prefix_rfl, List.prefix_rfl⟩

theorem Extends.trans (hfg : f.Extends g) (hgh : g.Extends h) : f.Extends h where
  scratch := hgh.scratch.trans hfg.scratch
  flag := fun hf => hgh.flag (hfg.flag hf)
  reports := hfg.reports.trans hgh.reports
  log := hfg.log.trans hgh.log
  errors := hfg.errors.trans hgh.errors

theorem extends_addReport (f : Findings) (block : Text) : f.Extends (f.addReport block) :=
  ⟨rfl, fun _ => rfl, List.prefix_append _ _, List.prefix_rfl, List.prefix_rfl⟩

theorem extends_addLintOutput (f : Findings) (path output : Text) :
    f.Extends (f.addLintOutput path output) :=
  ⟨rfl, id, List.prefix_rfl, List.prefix_append _ _, List.prefix_rfl⟩

theorem extends_addSyntaxError (f : Findings) (path : Text) : f.Extends (f.addSyntaxError path) :=
  ⟨rfl, fun _ => rfl, List.prefix_rfl, List.prefix_rfl, List.prefix_append _ _⟩

theorem extends_withCalls (stripped : Option Text) (path text : Text) (f : Findings) :
    f.Extends (Check.withCalls stripped path text f) := by
  rw [Check.withCalls]
  split
  · exact extends_addReport f _
  · exact Extends.refl f

theorem extends_withLint (path : Text) (lint : LintResult) (f : Findings) :
    f.Extends (Check.withLint path lint f) := by
  rw [Check.withLint]
  split
  · exact (extends_addLintOutput f path lint.output).trans (extends_addSyntaxError _ path)
  · exact extends_addLintOutput f path lint.output

theorem extends_withScript (path text : Text) (f : Findings) :
    f.Extends (Check.withScript path text f) := by
  rw [Check.withScript]
  split
  · exact Extends.refl f
  · exact extends_addReport f _

theorem accounts_fresh (scratch : Path) : (fresh scratch).Accounts [] where
  flag := by simp [fresh]
  printable := printable_fresh scratch
  log := rfl
  keys := List.nodup_nil
  latest _ := rfl

theorem map_fst_withOutput (outputs : List (Text × Text)) (path output : Text) :
    (withOutput outputs path output).map Prod.fst =
      if path ∈ outputs.map Prod.fst then outputs.map Prod.fst
      else outputs.map Prod.fst ++ [path] := by
  induction outputs with
  | nil => rfl
  | cons first rest ih =>
    obtain ⟨q, o⟩ := first
    rw [withOutput]
    by_cases hq : q = path
    · simp [hq]
    · have hne : path ≠ q := fun he => hq he.symm
      rw [if_neg hq, List.map_cons, ih]
      by_cases hmem : path ∈ rest.map Prod.fst
      · simp [hmem]
      · rw [if_neg hmem, if_neg (by simp_all)]
        rfl

theorem Accounts.addReport (hf : f.Accounts lints) (block : Text) :
    (f.addReport block).Accounts lints where
  flag := by simp [Findings.addReport]
  printable := hf.printable
  log := hf.log
  keys := hf.keys
  latest := hf.latest

theorem Accounts.addLintOutput (hf : f.Accounts lints) (path output : Text) :
    (f.addLintOutput path output).Accounts (lints ++ [(path, output)]) where
  flag := hf.flag
  printable p hp := by
    change ((withOutput f.lintOutput path output).lookup p).isSome
    rw [lookup_withOutput]
    split
    · rfl
    · exact hf.printable p hp
  log := by
    change f.lintLog ++ output = _
    simp [hf.log]
  keys := by
    change ((withOutput f.lintOutput path output).map Prod.fst).Nodup
    rw [map_fst_withOutput]
    split
    · exact hf.keys
    · rename_i hnew
      exact List.nodup_append.2 ⟨hf.keys, List.pairwise_singleton _ _,
        fun p hp q hq he => hnew (List.mem_singleton.1 hq ▸ he ▸ hp)⟩
  latest p := by
    change (withOutput f.lintOutput path output).lookup p = _
    rw [lookup_withOutput, List.reverse_append, hf.latest]
    by_cases hp : p = path
    · simp [hp]
    · have hne : (p == path) = false := by simpa using hp
      simp [hp, hne, List.lookup_cons]

theorem Accounts.addSyntaxError (hf : f.Accounts lints) (hpath : (f.lintOutput.lookup path).isSome) :
    (f.addSyntaxError path).Accounts lints where
  flag := by simp [Findings.addSyntaxError]
  printable p hp := by
    rcases List.mem_append.1 hp with hp | hp
    · exact hf.printable p hp
    · rw [List.mem_singleton.1 hp]
      exact hpath
  log := hf.log
  keys := hf.keys
  latest := hf.latest

theorem Accounts.withCalls (hf : f.Accounts lints) (stripped : Option Text) (path text : Text) :
    (Check.withCalls stripped path text f).Accounts lints := by
  rw [Check.withCalls]
  split
  · exact hf.addReport _
  · exact hf

theorem Accounts.withLint (hf : f.Accounts lints) (path : Text) (lint : LintResult) :
    (Check.withLint path lint f).Accounts (lints ++ [(path, lint.output)]) := by
  have hlint := hf.addLintOutput path lint.output
  rw [Check.withLint]
  split
  · apply hlint.addSyntaxError
    rw [hlint.latest]
    simp
  · exact hlint

theorem Accounts.withScript (hf : f.Accounts lints) (path text : Text) :
    (Check.withScript path text f).Accounts lints := by
  rw [Check.withScript]
  split
  · exact hf
  · exact hf.addReport _

end Findings

namespace Check

variable {programs : Programs} {linter : Linter} {path : Text} {copy : Path} {s : Session}
  {queries : List Query} {r : EStateM.Result Fault Session Unit} {lints : List (Text × Text)}

def completedLints (programs : Programs) (linter : Linter) (path : Text) (queries : List Query) :
    List (Text × Text) :=
  queries.filterMap fun q =>
    if q.Asks "-l".toList then
      (linter.lintedBy (q.response programs)).toOption.map fun lint => (path, lint.output)
    else none

theorem completedLints_strip :
    completedLints programs linter path [stripQuery linter copy s] = [] := rfl

theorem completedLints_lint :
    completedLints programs linter path [stripQuery linter copy s, lintQuery programs linter copy s] =
      ((linter.lintedBy ((lintQuery programs linter copy s).response programs)).toOption.map
        fun lint => (path, lint.output)).toList := by
  have hstrip : ¬(stripQuery linter copy s).Asks "-l".toList := by
    rintro he
    exact absurd (Option.some.inj he) (by decide)
  have hlint : (lintQuery programs linter copy s).Asks "-l".toList := rfl
  simp only [completedLints, List.filterMap_cons, List.filterMap_nil, if_neg hstrip, if_pos hlint]
  cases hl : linter.lintedBy ((lintQuery programs linter copy s).response programs) with
  | error fault => rfl
  | ok lint => rfl

theorem PhpRun.extends (h : PhpRun programs linter path copy s queries r) :
    s.findings.Extends (ending r).findings := by
  cases h with
  | unreadable _ hf =>
    rw [ending, hf]
    exact Findings.extends_addReport _ _
  | noStrip _ _ hf =>
    rw [ending, hf]
    exact Findings.Extends.refl _
  | noLint _ _ _ hf =>
    rw [ending, hf]
    exact Findings.extends_withCalls _ _ _ _
  | noLog _ _ _ _ hf =>
    rw [ending, hf]
    exact (Findings.extends_withCalls _ _ _ _).trans (Findings.extends_addLintOutput _ _ _)
  | through _ _ _ _ hf =>
    rw [ending, hf]
    exact (Findings.extends_withCalls _ _ _ _).trans (Findings.extends_withLint _ _ _)

theorem PhpRun.accounts (h : PhpRun programs linter path copy s queries r)
    (hs : s.findings.Accounts lints) :
    (ending r).findings.Accounts (lints ++ completedLints programs linter path queries) := by
  cases h with
  | unreadable _ hf =>
    rw [ending, hf, completedLints, List.filterMap_nil, List.append_nil]
    exact hs.addReport _
  | noStrip _ _ hf =>
    rw [ending, hf, completedLints_strip, List.append_nil]
    exact hs
  | noLint _ _ hl hf =>
    rw [ending, hf, completedLints_lint, hl]
    simpa [Except.toOption] using hs.withCalls _ _ _
  | noLog _ _ hl _ hf =>
    rw [ending, hf, completedLints_lint, hl]
    exact (hs.withCalls _ _ _).addLintOutput _ _
  | through _ _ hl _ hf =>
    rw [ending, hf, completedLints_lint, hl]
    exact (hs.withCalls _ _ _).withLint _ _

theorem script_extends (path : Text) (copy : Path) (s : Session) :
    s.findings.Extends (ending (script path copy s)).findings := by
  cases hr : s.tree.read copy.toText with
  | error fault =>
    obtain ⟨log, he⟩ := script_unreadable path hr
    rw [he]
    exact Findings.extends_addReport _ _
  | ok content =>
    rw [script_readable path hr]
    exact Findings.extends_withScript _ _ _

theorem script_accounts (path : Text) (copy : Path) (hs : s.findings.Accounts lints) :
    (ending (script path copy s)).findings.Accounts lints := by
  cases hr : s.tree.read copy.toText with
  | error fault =>
    obtain ⟨log, he⟩ := script_unreadable path hr
    rw [he]
    exact hs.addReport _
  | ok content =>
    rw [script_readable path hr]
    exact hs.withScript _ _

/-- A check that is called, in a session of its own but for the findings, which it takes over. -/
inductive Call where
  | php (programs : Programs) (linter : Linter) (path : Text) (copy : Path) (around : Session)
  | script (path : Text) (copy : Path) (around : Session)

namespace Call

def run (f : Findings) : Call → EStateM.Result Fault Session Unit
  | .php programs linter path copy around =>
    Check.php programs linter path copy { around with findings := f }
  | .script path copy around => Check.script path copy { around with findings := f }

def found (f : Findings) (call : Call) : Findings := (ending (call.run f)).findings

def completed (f : Findings) : Call → List (Text × Text)
  | .php programs linter path copy around =>
    completedLints programs linter path (queriesBetween around
      (ending (Check.php programs linter path copy { around with findings := f })))
  | .script _ _ _ => []

theorem found_extends (f : Findings) (call : Call) : f.Extends (call.found f) := by
  cases call with
  | php programs linter path copy around =>
    obtain ⟨queries, _, hrun⟩ := php_run programs linter path copy { around with findings := f }
    exact hrun.extends
  | script path copy around => exact script_extends path copy { around with findings := f }

theorem found_accounts {f : Findings} {done : List (Text × Text)} (h : f.Accounts done)
    (call : Call) : (call.found f).Accounts (done ++ call.completed f) := by
  cases call with
  | php programs linter path copy around =>
    obtain ⟨queries, hran, hrun⟩ := php_run programs linter path copy { around with findings := f }
    have hall := hrun.accounts (show Findings.Accounts f done from h)
    have hqueries : queriesBetween around
        (ending (Check.php programs linter path copy { around with findings := f })) = queries :=
      hran.queriesBetween_eq
    rw [completed, hqueries]
    exact hall
  | script path copy around =>
    rw [completed, List.append_nil]
    exact script_accounts path copy h

end Call

def foundBy (f : Findings) (calls : List Call) : Findings := calls.foldl Call.found f

def lintsBy (f : Findings) : List Call → List (Text × Text)
  | [] => []
  | call :: more => call.completed f ++ lintsBy (call.found f) more

theorem foundBy_accounts {f : Findings} {done : List (Text × Text)} (h : f.Accounts done)
    (calls : List Call) : (foundBy f calls).Accounts (done ++ lintsBy f calls) := by
  induction calls generalizing f done with
  | nil => simpa [foundBy, lintsBy] using h
  | cons call more ih =>
    have hmore := ih (Call.found_accounts h call)
    rw [List.append_assoc] at hmore
    exact hmore

/-- After any checks, also such as did not come to their end, the findings account for the lints that
came to a result; a check only adds to them, and a report can be made, which is empty exactly if there
is nothing to report. -/
theorem books_are_kept (scratch : Path) (calls : List Call) :
    (foundBy (Findings.fresh scratch) calls).Accounts (lintsBy (Findings.fresh scratch) calls) ∧
      (∀ call : Call, (foundBy (Findings.fresh scratch) calls).Extends
        (call.found (foundBy (Findings.fresh scratch) calls))) ∧
      ∃ report, Report.render (foundBy (Findings.fresh scratch) calls) = .ok report ∧
        (report = [] ↔ (foundBy (Findings.fresh scratch) calls).debugReports = [] ∧
          (foundBy (Findings.fresh scratch) calls).syntaxErrorFiles = []) := by
  have hall := foundBy_accounts (Findings.accounts_fresh scratch) calls
  rw [List.nil_append] at hall
  obtain ⟨report, hreport⟩ := hall.printable.render
  refine ⟨hall, fun call => Call.found_extends _ call, report, hreport, ?_⟩
  rw [Hook.render_eq_nil_iff hreport, ← Bool.not_eq_true, hall.flag, not_or, not_not, not_not]

end Check

end CommitGate
