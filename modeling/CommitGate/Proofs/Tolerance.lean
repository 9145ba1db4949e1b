import CommitGate.Proofs.Clean
import CommitGate.Proofs.Kept

/-! What the checks put up with. A linter that is not there counts as one that says nothing, and so
does a failing strip; a linter that is there but does not start, or a lint whose output is no text,
ends a check in a fault. A check of a readable copy ends in no other. -/
namespace CommitGate.Check

open Session

variable {programs : Programs}

/-- The response to a linter's command can be made use of. -/
structure Tolerable (programs : Programs) (q : Query) : Prop where
  started : AsksLinter q → ∀ failure, q.response programs = .notStarted failure →
    failure.kind = .notFound
  decodable : q.Asks "-l".toList → ∀ c, q.response programs = .completed c →
    (Utf8.read? (c.output ++ c.errors)).isSome

def tolerates (q : Query) : Response → Bool
  | .notStarted failure => decide (AsksLinter q → failure.kind = .notFound)
  | .completed c => decide (q.Asks "-l".toList → (Utf8.read? (c.output ++ c.errors)).isSome)

theorem tolerates_iff {q : Query} :
    tolerates q (q.response programs) ↔ Tolerable programs q := by
  cases hr : q.response programs with
  | notStarted failure =>
    rw [tolerates, decide_eq_true_eq]
    constructor
    · intro h
      refine ⟨fun hasks failure' hr' => ?_, fun _ c hr' => ?_⟩
      · cases hr.symm.trans hr'
        exact h hasks
      · cases hr.symm.trans hr'
    · exact fun h hasks => h.started hasks failure hr
  | completed c =>
    rw [tolerates, decide_eq_true_eq]
    constructor
    · intro h
      refine ⟨fun _ failure hr' => ?_, fun hasks c' hr' => ?_⟩
      · cases hr.symm.trans hr'
      · cases hr.symm.trans hr'
        exact h hasks
    · exact fun h hasks => h.decodable hasks c hr

instance (programs : Programs) (q : Query) : Decidable (Tolerable programs q) :=
  decidable_of_iff _ tolerates_iff

theorem tolerable_of_not_linter {q : Query} (h : ¬AsksLinter q) : Tolerable programs q where
  started hq := absurd hq h
  decodable hq := absurd (.inr hq) h

theorem tolerable_strip_iff (linter : Linter) (copy : Path) (s : Session) :
    Tolerable programs (stripQuery linter copy s) ↔
      ∃ stripped, Linter.strippedBy ((stripQuery linter copy s).response programs) =
        .ok stripped := by
  have hasks : AsksLinter (stripQuery linter copy s) := .inl rfl
  constructor
  · intro h
    have hstarted := h.started hasks
    cases hr : (stripQuery linter copy s).response programs with
    | notStarted failure => exact ⟨none, if_pos (hstarted failure hr)⟩
    | completed c => exact ⟨_, rfl⟩
  · rintro ⟨stripped, hs⟩
    refine ⟨fun _ failure hr => ?_, fun hl => absurd (Option.some.inj hl) (by decide)⟩
    rw [hr, Linter.strippedBy] at hs
    split at hs
    · assumption
    · cases hs

theorem tolerable_lint_iff (linter : Linter) (copy : Path) (s : Session) :
    Tolerable programs (lintQuery programs linter copy s) ↔
      ∃ lint, linter.lintedBy ((lintQuery programs linter copy s).response programs) =
        .ok lint := by
  have hasks : AsksLinter (lintQuery programs linter copy s) := .inr rfl
  constructor
  · intro h
    have hstarted := h.started hasks
    have hdecodable := h.decodable rfl
    cases hr : (lintQuery programs linter copy s).response programs with
    | notStarted failure => exact ⟨_, if_pos (hstarted failure hr)⟩
    | completed c =>
      obtain ⟨output, ho⟩ := Option.isSome_iff_exists.1 (hdecodable c hr)
      exact ⟨⟨c.status, output⟩, by rw [Linter.lintedBy, ho]⟩
  · rintro ⟨lint, hl⟩
    refine ⟨fun _ failure hr => ?_, fun _ c hr => ?_⟩
    · rw [hr, Linter.lintedBy] at hl
      split at hl
      · assumption
      · cases hl
    · rw [hr, Linter.lintedBy] at hl
      cases ho : Utf8.read? (c.output ++ c.errors) with
      | none =>
        rw [ho] at hl
        cases hl
      | some output => rfl

/-- How a part of a run may end: with these commands run and these findings, or in a fault after a
response that is not tolerable. -/
inductive Ends (programs : Programs) (queries : List Query) (commands : List Command)
    (findings : Findings) (Next : Session → Prop) : EStateM.Result Fault Session Unit → Prop where
  | through {s' : Session} : queries.map Query.command = commands →
      (∀ q ∈ queries, Tolerable programs q) → s'.findings = findings → Next s' →
      Ends programs queries commands findings Next (.ok () s')
  | stopped {fault : Fault} {s' : Session} : (∀ failure, fault ≠ .git failure) →
      (∃ q ∈ queries, ¬Tolerable programs q) →
      Ends programs queries commands findings Next (.error fault s')

theorem Ends.append {queries more : List Query} {commands others : List Command}
    {found all : Findings} {Next Last : Session → Prop} {s : Session}
    {r : EStateM.Result Fault Session Unit} (h : Ends programs queries commands found Next (.ok () s))
    (h' : s.findings = found → Next s → Ends programs more others all Last r) :
    Ends programs (queries ++ more) (commands ++ others) all Last r := by
  cases h with
  | through hcommands htolerable hfound hnext =>
  cases h' hfound hnext with
  | through hcommands' htolerable' hall hlast =>
    refine .through ?_ (List.forall_mem_append.2 ⟨htolerable, htolerable'⟩) hall hlast
    rw [List.map_append, hcommands, hcommands']
  | stopped hgit hno =>
    obtain ⟨q, hq, hno⟩ := hno
    exact .stopped hgit ⟨q, List.mem_append_right _ hq, hno⟩

/-- What a check needs besides its copy: the lint log of its scratch directory. -/
structure Ready (scratch : Path) (s : Session) : Prop where
  log : s.tree.IsFile (scratch.child lintLogName).key
  scratch : s.findings.scratch = scratch

theorem lintLog_names (scratch : Path) :
    (scratch.child lintLogName).names = scratch.names ++ [lintLogName] := by
  rw [Path.child, if_pos (by decide)]
  exact congrArg (scratch.names ++ ·) (show (Path.ofText lintLogName).names = _ by decide)

theorem lintLog_isPlain {scratch : Path} (h : scratch.IsPlain) :
    (scratch.child lintLogName).IsPlain := by
  rw [Path.IsPlain, lintLog_names, List.mem_append, not_or]
  exact ⟨h, by decide⟩

theorem Ready.locate {scratch : Path} {s : Session} (h : Ready scratch s) (hp : scratch.IsPlain) :
    s.tree.locate (scratch.child lintLogName).toText = .ok (scratch.child lintLogName).key := by
  obtain ⟨content, hc⟩ := h.log
  exact FileTree.locate_of_find (lintLog_isPlain hp) (by simp [hc])

def phpFound (programs : Programs) (linter : Linter) (path : Text) (copy : Path) (m : Moment)
    (f : Findings) : Findings :=
  let strip := m.ask programs (linter.stripCommand copy)
  let lint := strip.2.ask programs (linter.lintCommand copy)
  match m.tree.read copy.toText, Linter.strippedBy strip.1, linter.lintedBy lint.1 with
  | .ok content, .ok stripped, .ok result =>
    withLint path result (withCalls stripped path (Utf8.readLossy content) f)
  | _, _, _ => f

theorem phpFound_eq {linter : Linter} {path : Text} {copy : Path} {s : Session} {content : Bytes}
    {stripped : Option Text} {lint : LintResult} {f : Findings}
    (hr : s.tree.read copy.toText = .ok content)
    (hs : Linter.strippedBy ((stripQuery linter copy s).response programs) = .ok stripped)
    (hl : linter.lintedBy ((lintQuery programs linter copy s).response programs) = .ok lint) :
    phpFound programs linter path copy s.moment f =
      withLint path lint (withCalls stripped path (Utf8.readLossy content) f) := by
  change (match s.tree.read copy.toText,
      Linter.strippedBy ((stripQuery linter copy s).response programs),
      linter.lintedBy ((lintQuery programs linter copy s).response programs) with
    | .ok content, .ok stripped, .ok result =>
      withLint path result (withCalls stripped path (Utf8.readLossy content) f)
    | _, _, _ => f) = _
  rw [hr, hs, hl]

def scriptFound (path : Text) (copy : Path) (m : Moment) (f : Findings) : Findings :=
  match m.tree.read copy.toText with
  | .ok content => withScript path (Utf8.readLossy content) f
  | .error _ => f

/-- A check that is ready for its copy comes to its end, but for a response that is not tolerable, and
takes nothing out of the file tree. -/
def Completes (programs : Programs) (scratch : Path) (check : Text → Path → Action Unit)
    (asked : Path → List Command) (found : Text → Path → Moment → Findings → Findings) : Prop :=
  ∀ path copy s, ∃ queries, Ran s (ending (check path copy s)) queries ∧
    (∀ q ∈ queries, AsksLinter q) ∧
    (Ready scratch s → (s.tree.read copy.toText).isOk →
      Ends programs queries (asked copy) (found path copy s.moment s.findings)
        (fun s' => s'.findings.scratch = scratch ∧ s.tree.Grows s'.tree) (check path copy s))

theorem withLint_scratch (path : Text) (lint : LintResult) (f : Findings) :
    (withLint path lint f).scratch = f.scratch := by
  rw [withLint]
  split <;> rfl

theorem withScript_scratch (path text : Text) (f : Findings) :
    (withScript path text f).scratch = f.scratch := by
  rw [withScript]
  split <;> rfl

theorem Ready.append {scratch : Path} {s : Session} (h : Ready scratch s) (hp : scratch.IsPlain)
    (content : Bytes) :
    ∃ tree, s.tree.append (s.findings.scratch.child lintLogName).toText content = .ok tree ∧
      s.tree.Grows tree := by
  rw [h.scratch]
  exact FileTree.append_of_isFile (h.locate hp) h.log content

theorem php_completes {scratch : Path} (hp : scratch.IsPlain) (linter : Linter) :
    Completes programs scratch (php programs linter)
      (fun copy => [linter.stripCommand copy, linter.lintCommand copy])
      (phpFound programs linter) := by
  intro path copy s
  obtain ⟨queries, hran, hrun⟩ := php_run programs linter path copy s
  refine ⟨queries, hran, hrun.asksLinter, ?_⟩
  intro hready hread
  have no_git := hrun.not_git
  generalize php programs linter path copy s = r at hrun no_git ⊢
  cases hrun with
  | unreadable hr _ =>
    rw [hr] at hread
    cases hread
  | noStrip _ hs _ =>
    refine .stopped (fun failure he => no_git failure _ (by rw [he]))
      ⟨_, List.mem_singleton_self _, ?_⟩
    intro htolerable
    obtain ⟨stripped, hok⟩ := (tolerable_strip_iff linter copy s).1 htolerable
    cases hs.symm.trans hok
  | noLint _ _ hl _ =>
    refine .stopped (fun failure he => no_git failure _ (by rw [he]))
      ⟨_, .tail _ (List.mem_singleton_self _), ?_⟩
    intro htolerable
    obtain ⟨lint, hok⟩ := (tolerable_lint_iff linter copy s).1 htolerable
    cases hl.symm.trans hok
  | noLog _ _ _ ha _ =>
    obtain ⟨tree, hok, _⟩ := hready.append hp _
    cases ha.symm.trans hok
  | through hr hs hl ha hf =>
    obtain ⟨tree, hok, hgrows⟩ := hready.append hp _
    cases ha.symm.trans hok
    have strip := (tolerable_strip_iff linter copy s).2 ⟨_, hs⟩
    have lint := (tolerable_lint_iff linter copy s).2 ⟨_, hl⟩
    refine .through rfl (by simpa using ⟨strip, lint⟩) ?_ ⟨?_, hgrows⟩
    · rw [hf, phpFound_eq hr hs hl]
    · rw [hf, withLint_scratch, withCalls_scratch]
      exact hready.scratch

theorem script_completes (scratch : Path) :
    Completes programs scratch script (fun _ => []) scriptFound := by
  intro path copy s
  cases hr : s.tree.read copy.toText with
  | error fault =>
    obtain ⟨log, he⟩ := script_unreadable path hr
    rw [he]
    exact ⟨[], Ran.none rfl, by simp, fun _ hread => Bool.noConfusion hread⟩
  | ok content =>
    rw [script_readable path hr]
    refine ⟨[], Ran.none rfl, by simp, fun hready _ => .through rfl (by simp) ?_ ⟨?_, .refl _⟩⟩
    · simp only [scriptFound, moment, hr]
    · rw [withScript_scratch]
      exact hready.scratch

end CommitGate.Check
