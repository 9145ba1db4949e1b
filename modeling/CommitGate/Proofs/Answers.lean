import CommitGate.Git
import CommitGate.Linter
import CommitGate.Proofs.Session

/-! What git's and the linter's responses mean. Each wrapper runs one command and then goes by the
response alone, so a step of a run is known by its query. -/
namespace CommitGate

def Session.outcome (r : Except Fault α) (s : Session) : EStateM.Result Fault Session α :=
  match r with
  | .ok a => .ok a s
  | .error fault => .error fault s

open Session

namespace Git

def command (subcommand : Text) (arguments : List Text) : Command :=
  "git".toList :: subcommand :: arguments

def meaning (subcommand : Text) : Response → Except Fault Text
  | .notStarted failure => .error (.git (.notStarted subcommand failure.text))
  | .completed c =>
    match Utf8.read? c.output, Utf8.read? c.errors with
    | some output, some errors =>
      if c.status = 0 then .ok output
      else .error (.git (.exited subcommand c.status (Text.trim errors)))
    | _, _ => .error .undecodableOutput

theorem run_eq (programs : Programs) (subcommand : Text) (arguments : List Text) (s : Session) :
    run programs subcommand arguments s =
      outcome (meaning subcommand (s.moment.ask programs (command subcommand arguments)).1)
        (s.asked programs (command subcommand arguments)) := by
  rw [run, bind_of_ok (invoke_eq programs _ s)]
  change _ = outcome (meaning subcommand
    (s.moment.ask programs ("git".toList :: subcommand :: arguments)).1) _
  cases (s.moment.ask programs ("git".toList :: subcommand :: arguments)).1 with
  | notStarted failure => rfl
  | completed c =>
    simp only [meaning]
    cases Utf8.read? c.output with
    | none => rfl
    | some output =>
      cases Utf8.read? c.errors with
      | none => rfl
      | some errors =>
        dsimp only
        split <;> rfl

theorem meaning_eq_ok {subcommand output : Text} {r : Response}
    (h : meaning subcommand r = .ok output) :
    ∃ c, r = .completed c ∧ c.status = 0 ∧ Utf8.read? c.output = some output := by
  unfold meaning at h
  split at h
  · cases h
  · rename_i c
    split at h
    · rename_i ho _
      split at h
      · rename_i hz
        cases h
        exact ⟨c, rfl, hz, ho⟩
      · cases h
    · cases h

theorem meaning_eq_git {subcommand : Text} {r : Response} {failure : GitFailure}
    (h : meaning subcommand r = .error (.git failure)) {c : Completion} (hr : r = .completed c) :
    c.status ≠ 0 := by
  subst hr
  unfold meaning at h
  dsimp only at h
  split at h
  · split at h
    · cases h
    · assumption
  · cases h

variable {programs : Programs} {subcommand : Text} {q : Query}

theorem succeeded_of_meaning {output : Text}
    (h : meaning subcommand (q.response programs) = .ok output) : q.Succeeded programs := by
  obtain ⟨c, hc, hzero, _⟩ := meaning_eq_ok h
  exact ⟨c, hc, hzero⟩

theorem not_succeeded_of_meaning {failure : GitFailure}
    (h : meaning subcommand (q.response programs) = .error (.git failure)) :
    ¬q.Succeeded programs := by
  rintro ⟨c, hc, hzero⟩
  exact meaning_eq_git h hc hzero

theorem meaning_of_zero {subcommand : Text} {c : Completion} (hzero : c.status = 0)
    (h : ¬(meaning subcommand (.completed c)).isOk) :
    meaning subcommand (.completed c) = .error .undecodableOutput := by
  unfold meaning at h ⊢
  dsimp only at h ⊢
  split
  · rename_i ho he
    simp only [ho, he, if_pos hzero] at h
    exact absurd rfl h
  · rfl

/-- Whatever a program has printed can be read as text. -/
def Intelligible (r : Response) : Prop :=
  ∀ c, r = .completed c → (Utf8.read? c.output).isSome ∧ (Utf8.read? c.errors).isSome

/-- A response whose output is no text has no meaning, whatever its status. Any other means an output
or a git failure, as the status is zero or not. -/
theorem meaning_cases (subcommand : Text) (r : Response) :
    (Intelligible r ∧ ∃ output, meaning subcommand r = .ok output ∧
        ∃ c, r = .completed c ∧ c.status = 0) ∨
      (Intelligible r ∧ ∃ failure, meaning subcommand r = .error (.git failure) ∧
        ¬∃ c, r = .completed c ∧ c.status = 0) ∨
      ¬Intelligible r ∧ meaning subcommand r = .error .undecodableOutput := by
  cases r with
  | notStarted failure =>
    refine .inr (.inl ⟨fun _ h => Response.noConfusion h, _, rfl, ?_⟩)
    rintro ⟨c, h, _⟩
    cases h
  | completed c =>
    have hcompleted : ∀ {c'}, Response.completed c = .completed c' → c' = c :=
      fun h => (Response.completed.inj h).symm
    rw [meaning]
    cases ho : Utf8.read? c.output with
    | none =>
      refine .inr (.inr ⟨fun h => ?_, rfl⟩)
      have hread := (h c rfl).1
      rw [ho] at hread
      cases hread
    | some output =>
      cases he : Utf8.read? c.errors with
      | none =>
        refine .inr (.inr ⟨fun h => ?_, rfl⟩)
        have hread := (h c rfl).2
        rw [he] at hread
        cases hread
      | some errors =>
        have hintelligible : Intelligible (.completed c) := by
          intro c' h
          rw [hcompleted h, ho, he]
          exact ⟨rfl, rfl⟩
        dsimp only
        by_cases hzero : c.status = 0
        · rw [if_pos hzero]
          exact .inl ⟨hintelligible, output, rfl, c, rfl, hzero⟩
        · rw [if_neg hzero]
          refine .inr (.inl ⟨hintelligible, _, rfl, ?_⟩)
          rintro ⟨c', h, hzero'⟩
          rw [hcompleted h] at hzero'
          exact hzero hzero'

end Git

namespace Linter

def stripCommand (linter : Linter) (path : Path) : Command :=
  [linter.program, "-w".toList, path.toText]

def lintCommand (linter : Linter) (path : Path) : Command :=
  [linter.program, "-l".toList, path.toText]

theorem stripCommand_target (linter : Linter) (path : Path) :
    (linter.stripCommand path).checkoutTarget? = none := by
  exact if_neg (show some "-w".toList ≠ some Command.checkoutWord by decide)

theorem lintCommand_target (linter : Linter) (path : Path) :
    (linter.lintCommand path).checkoutTarget? = none := by
  exact if_neg (show some "-l".toList ≠ some Command.checkoutWord by decide)

def strippedBy : Response → Except Fault (Option Text)
  | .notStarted failure =>
    if failure.kind = .notFound then .ok none else .error (.linterNotStarted failure)
  | .completed c => .ok (if c.status = 0 then some (Utf8.readLossy c.output) else none)

def lintedBy (linter : Linter) : Response → Except Fault LintResult
  | .notStarted failure =>
    if failure.kind = .notFound then
      .ok ⟨notFoundStatus, linter.program ++ ": command not found\n".toList⟩
    else .error (.linterNotStarted failure)
  | .completed c =>
    match Utf8.read? (c.output ++ c.errors) with
    | some output => .ok ⟨c.status, output⟩
    | none => .error .undecodableOutput

theorem strip?_eq (programs : Programs) (linter : Linter) (path : Path) (s : Session) :
    ∃ log, linter.strip? programs path s =
      outcome (strippedBy (s.moment.ask programs (linter.stripCommand path)).1)
        { s.asked programs (linter.stripCommand path) with log } := by
  rw [strip?, bind_of_ok (invoke_eq programs _ s)]
  change ∃ log, _ = outcome (strippedBy
    (s.moment.ask programs [linter.program, "-w".toList, path.toText]).1) _
  cases (s.moment.ask programs [linter.program, "-w".toList, path.toText]).1 with
  | notStarted failure =>
    refine ⟨s.log, ?_⟩
    simp only [strippedBy]
    split <;> rfl
  | completed c =>
    simp only [strippedBy]
    split
    · exact ⟨s.log, rfl⟩
    · exact ⟨_, rfl⟩

theorem check_eq (programs : Programs) (linter : Linter) (path : Path) (s : Session) :
    ∃ log, linter.check programs path s =
      outcome (linter.lintedBy (s.moment.ask programs (linter.lintCommand path)).1)
        { s.asked programs (linter.lintCommand path) with log } := by
  rw [check, bind_of_ok (invoke_eq programs _ s)]
  change ∃ log, _ = outcome (linter.lintedBy
    (s.moment.ask programs [linter.program, "-l".toList, path.toText]).1) _
  cases (s.moment.ask programs [linter.program, "-l".toList, path.toText]).1 with
  | notStarted failure =>
    simp only [lintedBy]
    split
    · exact ⟨_, rfl⟩
    · exact ⟨s.log, rfl⟩
  | completed c =>
    refine ⟨s.log, ?_⟩
    simp only [lintedBy]
    cases Utf8.read? (c.output ++ c.errors) <;> rfl

end Linter

end CommitGate
