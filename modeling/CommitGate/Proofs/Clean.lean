import CommitGate.Proofs.Check
import CommitGate.Proofs.Lines

/-! What a clean copy is, without the steps of a check: it can be read, no call stands where calls
count, and the linter does not reject it. A check that comes to its end asks for an abort exactly if
the copy is not clean. -/
namespace CommitGate.Check

open Session

theorem plain_phpDebugFunctions : Calls.Plain phpDebugFunctions := by
  rw [Calls.Plain]
  decide

theorem plain_scriptDebugFunctions : Calls.Plain scriptDebugFunctions := by
  rw [Calls.Plain]
  decide

/-- The PHP code in which calls count: what the linter prints for the file if it exits with status
zero, and otherwise the text without comments. -/
def code (strip : Response) (text : Text) : Text :=
  match strip with
  | .notStarted _ => Php.withoutComments text
  | .completed c =>
    if c.status = 0 then Utf8.readLossy c.output else Php.withoutComments text

def Rejects (lint : Response) : Prop :=
  ∃ c, lint = .completed c ∧ c.status = LintResult.parseErrorStatus

def PhpClean (programs : Programs) (linter : Linter) (copy : Path) (m : Moment) : Prop :=
  let strip := m.ask programs (linter.stripCommand copy)
  let lint := strip.2.ask programs (linter.lintCommand copy)
  ∃ content, m.tree.read copy.toText = .ok content ∧
    Calls.Free phpDebugFunctions (code strip.1 (Utf8.readLossy content)) ∧ ¬Rejects lint.1

def ScriptClean (copy : Path) (m : Moment) : Prop :=
  ∃ content, m.tree.read copy.toText = .ok content ∧
    ∀ line ∈ (Utf8.readLossy content).splitOn '\n',
      Calls.Free scriptDebugFunctions (LineComment.cut line)

def AsksLinter (q : Query) : Prop := q.Asks "-w".toList ∨ q.Asks "-l".toList

instance (q : Query) : Decidable (AsksLinter q) := inferInstanceAs (Decidable (_ ∨ _))

/-- What a check of a copy may come to: it asks the linter alone, its fault is none of git's, and
without a fault the copy decides about the abort. -/
structure Settles (Clean : Path → Moment → Prop) (copy : Path) (s : Session)
    (r : EStateM.Result Fault Session Unit) : Prop where
  queries : ∃ queries, Ran s (ending r) queries ∧ ∀ q ∈ queries, AsksLinter q
  no_git : ∀ failure s', r ≠ .error (.git failure) s'
  flag : ∀ s', r = .ok () s' → (s'.findings.abortRequested = false ↔
    s.findings.abortRequested = false ∧ Clean copy s.moment)

variable {Clean : Path → Moment → Prop} {copy : Path} {s s' : Session}

theorem settles_of_end {queries : List Query} (hran : Ran s s' queries)
    (hasks : ∀ q ∈ queries, AsksLinter q)
    (hflag : s'.findings.abortRequested = false ↔
      s.findings.abortRequested = false ∧ Clean copy s.moment) :
    Settles Clean copy s (.ok () s') where
  queries := ⟨queries, hran, hasks⟩
  no_git failure t h := by cases h
  flag t h := by
    cases h
    exact hflag

theorem strippedBy_ok {r : Response} {stripped : Option Text}
    (h : Linter.strippedBy r = .ok stripped) (text : Text) :
    hasDebugCall stripped text = Calls.occurIn phpDebugFunctions (code r text) := by
  unfold Linter.strippedBy at h
  split at h
  · split at h
    · cases h
      rfl
    · cases h
  · cases h
    unfold hasDebugCall code
    dsimp only
    split <;> rfl

theorem strippedBy_error {r : Response} {fault : Fault} (h : Linter.strippedBy r = .error fault) :
    ∃ failure, fault = .linterNotStarted failure := by
  unfold Linter.strippedBy at h
  split at h
  · split at h
    · cases h
    · cases h
      exact ⟨_, rfl⟩
  · cases h

theorem lintedBy_ok {linter : Linter} {r : Response} {lint : LintResult}
    (h : linter.lintedBy r = .ok lint) : lint.isParseError ↔ Rejects r := by
  unfold Linter.lintedBy at h
  split at h
  · split at h
    · cases h
      simp [LintResult.isParseError, Linter.notFoundStatus, LintResult.parseErrorStatus, Rejects]
    · cases h
  · split at h
    · cases h
      simp [LintResult.isParseError, Rejects]
    · cases h

theorem lintedBy_error {linter : Linter} {r : Response} {fault : Fault}
    (h : linter.lintedBy r = .error fault) :
    fault = .undecodableOutput ∨ ∃ failure, fault = .linterNotStarted failure := by
  unfold Linter.lintedBy at h
  split at h
  · split at h
    · cases h
    · cases h
      exact .inr ⟨_, rfl⟩
  · split at h
    · cases h
    · cases h
      exact .inl rfl

theorem withCalls_flag {r : Response} {stripped : Option Text} {path text : Text} {f : Findings}
    (h : Linter.strippedBy r = .ok stripped) :
    (withCalls stripped path text f).abortRequested = false ↔
      f.abortRequested = false ∧ Calls.Free phpDebugFunctions (code r text) := by
  rw [← Calls.occurIn_eq_false_iff plain_phpDebugFunctions, withCalls, strippedBy_ok h]
  cases Calls.occurIn phpDebugFunctions (code r text) with
  | true => simp [Findings.addReport]
  | false => simp

theorem withLint_flag {linter : Linter} {r : Response} {lint : LintResult} {path : Text}
    {f : Findings} (h : linter.lintedBy r = .ok lint) :
    (withLint path lint f).abortRequested = false ↔ f.abortRequested = false ∧ ¬Rejects r := by
  rw [← lintedBy_ok h, withLint]
  cases lint.isParseError with
  | true => simp [Findings.addSyntaxError]
  | false => simp [Findings.addLintOutput]

theorem withScript_flag (path text : Text) (f : Findings) :
    (withScript path text f).abortRequested = false ↔ f.abortRequested = false ∧
      ∀ line ∈ text.splitOn '\n', Calls.Free scriptDebugFunctions (LineComment.cut line) := by
  have h : (Calls.find scriptDebugFunctions (LineComment.strip text)).isEmpty ↔
      ∀ line ∈ text.splitOn '\n', Calls.Free scriptDebugFunctions (LineComment.cut line) := by
    rw [Calls.find_isEmpty_iff, LineComment.splitOn_strip, List.forall_mem_map]
    simp only [Calls.occurIn_eq_false_iff plain_scriptDebugFunctions]
  rw [← h, withScript]
  cases (Calls.find scriptDebugFunctions (LineComment.strip text)).isEmpty with
  | true => simp
  | false => simp [Findings.addReport]

section PhpRun

variable {programs : Programs} {linter : Linter} {path : Text} {queries : List Query}

theorem PhpRun.asksLinter {r : EStateM.Result Fault Session Unit}
    (h : PhpRun programs linter path copy s queries r) : ∀ q ∈ queries, AsksLinter q := by
  have strip : AsksLinter (stripQuery linter copy s) := .inl rfl
  have lint : AsksLinter (lintQuery programs linter copy s) := .inr rfl
  cases h with
  | unreadable => simp
  | noStrip => simpa using strip
  | noLint | noLog | through => simpa using ⟨strip, lint⟩

theorem PhpRun.not_git {r : EStateM.Result Fault Session Unit}
    (h : PhpRun programs linter path copy s queries r) :
    ∀ failure s', r ≠ .error (.git failure) s' := by
  rintro failure s' rfl
  cases h with
  | noStrip _ hs _ =>
    obtain ⟨failure, he⟩ := strippedBy_error hs
    cases he
  | noLint _ _ hl _ =>
    rcases lintedBy_error hl with he | ⟨failure, he⟩
    · cases he
    · cases he

theorem PhpRun.flag (h : PhpRun programs linter path copy s queries (.ok () s')) :
    s'.findings.abortRequested = false ↔
      s.findings.abortRequested = false ∧ PhpClean programs linter copy s.moment := by
  cases h with
  | unreadable hr hf => simp [hf, Findings.addReport, PhpClean, moment, hr]
  | through hr hs hl _ hf =>
    rw [hf, withLint_flag hl, withCalls_flag hs, and_assoc]
    refine and_congr_right fun _ => ⟨fun h => ⟨_, hr, h⟩, ?_⟩
    rintro ⟨content, hc, h⟩
    cases hr.symm.trans hc
    exact h

end PhpRun

theorem php_settles (programs : Programs) (linter : Linter) (path : Text) (copy : Path)
    (s : Session) :
    Settles (PhpClean programs linter) copy s (php programs linter path copy s) := by
  obtain ⟨queries, hran, hrun⟩ := php_run programs linter path copy s
  refine ⟨⟨queries, hran, hrun.asksLinter⟩, hrun.not_git, fun s' h => ?_⟩
  rw [h] at hrun
  exact hrun.flag

theorem script_settles (path : Text) (copy : Path) (s : Session) :
    Settles ScriptClean copy s (script path copy s) := by
  cases hr : s.tree.read copy.toText with
  | error fault =>
    obtain ⟨log, he⟩ := script_unreadable path hr
    rw [he]
    refine settles_of_end (Ran.none rfl) (by simp) ?_
    simp [Findings.addReport, ScriptClean, moment, hr]
  | ok content =>
    rw [script_readable path hr]
    refine settles_of_end (Ran.none rfl) (by simp) ?_
    dsimp only
    rw [withScript_flag]
    simp [ScriptClean, moment, hr]

end CommitGate.Check
