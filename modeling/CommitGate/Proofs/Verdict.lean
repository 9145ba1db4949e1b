import CommitGate.Dialogue
import CommitGate.Proofs.Gate
import CommitGate.Proofs.Listing
import CommitGate.Proofs.LogLevel
import Mathlib.Data.List.Forall2

/-! The verdict of a whole run against the commands that it ran: the commit goes on exactly if there
was a list of staged files and each file on it that is due passes. -/
namespace CommitGate

open Session

namespace Gate

open Check

variable {programs : Programs} {linter : Linter} {scratch : Path} {files : List Text}
  {s s' : Session}

def AllPass (programs : Programs) (linter : Linter) (scratch : Path) (files : List Text)
    (queries : List Query) : Prop :=
  ∃ forPhp forScripts, checkouts queries = forPhp ++ forScripts ∧
    List.Forall₂ (Passes programs scratch (PhpClean programs linter))
      (due phpExtensions files) forPhp ∧
    List.Forall₂ (Passes programs scratch ScriptClean) (due scriptExtensions files) forScripts

theorem succeeded_of_passes {Clean : Path → Moment → Prop} {paths : List Text}
    {queries : List Query} (h : List.Forall₂ (Passes programs scratch Clean) paths queries) :
    ∀ q ∈ queries, q.Succeeded programs := by
  induction h with
  | nil => simp
  | cons hpass _ ih => exact List.forall_mem_cons.2 ⟨hpass.succeeded, ih⟩

theorem AllPass.succeeded {queries : List Query}
    (h : AllPass programs linter scratch files queries) :
    ∀ q ∈ checkouts queries, q.Succeeded programs := by
  obtain ⟨forPhp, forScripts, he, hall, hall'⟩ := h
  rw [he]
  exact List.forall_mem_append.2 ⟨succeeded_of_passes hall, succeeded_of_passes hall'⟩

theorem prepare_cases (scratch : Path) (s : Session) :
    (∃ tree, prepare scratch s = .ok () { s with tree }) ∨
      ∃ refusal tree, prepare scratch s = .error (.file refusal) { s with tree } := by
  rw [prepare]
  rcases changeTree_cases (FileTree.ensureDirectory scratch) s with ⟨tree, h⟩ | ⟨refusal, tree, h⟩
  · rw [bind_of_ok h]
    exact changeTree_cases _ _
  · rw [bind_of_error h]
    exact .inr ⟨refusal, tree, rfl⟩

theorem ran_prepare {s₀ : Session} (h : prepare scratch s = .ok () s₀) (f : Findings) :
    Ran s { s₀ with findings := f } [] := by
  rcases prepare_cases scratch s with ⟨tree, he⟩ | ⟨refusal, tree, he⟩
  · cases h.symm.trans he
    exact Ran.none rfl
  · cases h.symm.trans he

theorem write_of_prepare {s₀ : Session} (h : prepare scratch s = .ok () s₀) :
    ∃ t : FileTree, t.write (scratch.child lintLogName).toText [] = .ok s₀.tree := by
  obtain ⟨_, t, _, hw⟩ := bind_eq_ok.1 h
  cases hwrite : t.tree.write (scratch.child lintLogName).toText [] with
  | error refusal => cases hw.symm.trans (changeTree_error hwrite)
  | ok tree =>
    cases hw.symm.trans (changeTree_ok hwrite)
    exact ⟨t.tree, hwrite⟩

theorem run_of_prepare {s₀ : Session} (h : prepare scratch s = .ok () s₀) :
    run programs linter scratch files s =
      (checkEach programs scratch phpExtensions (php programs linter) files >>= fun _ =>
        checkEach programs scratch scriptExtensions script files >>= fun _ =>
          get >>= fun t => pure t.findings)
        { s₀ with findings := Findings.fresh scratch } := by
  rw [run, bind_of_ok h]
  rfl

theorem passes_of_run {findings : Findings}
    (h : run programs linter scratch files s = .ok findings s') :
    ∃ s₀ t, prepare scratch s = .ok () s₀ ∧
      checkEach programs scratch phpExtensions (php programs linter) files
        { s₀ with findings := Findings.fresh scratch } = .ok () t ∧
      checkEach programs scratch scriptExtensions script files t = .ok () s' ∧
      findings = s'.findings := by
  cases hprepare : prepare scratch s with
  | error fault t => cases h.symm.trans (bind_of_error hprepare)
  | ok _ s₀ =>
    rw [run_of_prepare hprepare] at h
    obtain ⟨_, t, hphp, h⟩ := bind_eq_ok.1 h
    obtain ⟨_, t', hscripts, h⟩ := bind_eq_ok.1 h
    cases h
    exact ⟨s₀, t, rfl, hphp, hscripts, rfl⟩

theorem run_cases (programs : Programs) (linter : Linter) (scratch : Path) (files : List Text)
    (s : Session) :
    (∃ refusal tree, run programs linter scratch files s =
        .error (.file refusal) { s with tree }) ∨
      ∃ tree, run programs linter scratch files s =
        (checkEach programs scratch phpExtensions (php programs linter) files >>= fun _ =>
          checkEach programs scratch scriptExtensions script files >>= fun _ =>
            get >>= fun t => pure t.findings)
          { s with tree, findings := Findings.fresh scratch } := by
  rcases prepare_cases scratch s with ⟨tree, h⟩ | ⟨refusal, tree, h⟩
  · exact .inr ⟨tree, run_of_prepare h⟩
  · exact .inl ⟨refusal, tree, bind_of_error h⟩

theorem run_ok {findings : Findings}
    (h : run programs linter scratch files s = .ok findings s') :
    ∃ queries, Ran s s' queries ∧ (∀ q ∈ queries, AsksGate q) ∧
      (findings.abortRequested = false ↔ AllPass programs linter scratch files queries) := by
  obtain ⟨s₀, t, hprepare, hp, hs, rfl⟩ := passes_of_run h
  obtain ⟨forPhp, hran, hasks, hcommands, hflag⟩ := checkEach_ok (php_settles programs linter) hp
  obtain ⟨forScripts, hran', hasks', _, hflag'⟩ := checkEach_ok script_settles hs
  refine ⟨forPhp ++ forScripts, (ran_prepare hprepare _).trans (hran.trans hran'),
    List.forall_mem_append.2 ⟨hasks, hasks'⟩, ?_⟩
  rw [hflag', hflag, AllPass, checkouts_append]
  constructor
  · rintro ⟨⟨_, hall⟩, hall'⟩
    exact ⟨_, _, rfl, hall, hall'⟩
  · rintro ⟨qs, qs', he, hall, hall'⟩
    have hlen : (checkouts forPhp).length = qs.length := by
      have := congrArg List.length hcommands
      rw [List.length_map, List.length_map] at this
      exact this.trans hall.length_eq
    obtain ⟨rfl, rfl⟩ := List.append_inj he hlen
    exact ⟨⟨rfl, hall⟩, hall'⟩

theorem run_git {failure : GitFailure}
    (h : run programs linter scratch files s = .error (.git failure) s') :
    ∃ queries, Ran s s' queries ∧ (∀ q ∈ queries, AsksGate q) ∧
      ¬AllPass programs linter scratch files queries := by
  rcases run_cases programs linter scratch files s with ⟨refusal, t, he⟩ | ⟨tree, he⟩
  · rw [he] at h
    cases h
  rw [he] at h
  rcases bind_eq_error.1 h with hp | ⟨_, t, hp, h⟩
  · obtain ⟨queries, hran, hasks, q, hq, no⟩ := checkEach_git (php_settles programs linter) hp
    exact ⟨queries, hran, hasks, fun hall => no (hall.succeeded q hq)⟩
  obtain ⟨forPhp, hran, hasks, _⟩ := checkEach_ok (php_settles programs linter) hp
  rcases bind_eq_error.1 h with hs | ⟨_, t', hs, h⟩
  · obtain ⟨forScripts, hran', hasks', q, hq, no⟩ := checkEach_git script_settles hs
    refine ⟨_, hran.trans hran', List.forall_mem_append.2 ⟨hasks, hasks'⟩, ?_⟩
    intro hall
    refine no (hall.succeeded q ?_)
    rw [checkouts_append]
    exact List.mem_append_right _ hq
  · cases h

end Gate

namespace Hook

variable {programs : Programs} {environment : Environment} {s s' : Session}

/-- What lets a commit go on, by the commands that were run. -/
def LetsPass (programs : Programs) (environment : Environment) (queries : List Query) : Prop :=
  ∃ files, Staged.Listed programs queries files ∧
    Gate.AllPass programs (Linter.ofSettings none environment.php)
      (Path.ofText scratchDirectory) files queries

/-- The queries before the gate are about the list alone, those of the gate about its files. -/
theorem letsPass_append {listing checks : List Query} {files : List Text}
    (hlist : ∀ q ∈ listing, Staged.AsksListing q) (hchecks : ∀ q ∈ checks, Gate.AsksGate q)
    (hfiles : ∀ files', Staged.Listed programs listing files' ↔ files' = files) :
    LetsPass programs environment (listing ++ checks) ↔
      Gate.AllPass programs (Linter.ofSettings none environment.php)
        (Path.ofText scratchDirectory) files checks := by
  have hlisted : ∀ files', Staged.Listed programs (listing ++ checks) files' ↔ files' = files :=
    fun files' => (Staged.listed_append fun q hq =>
      Gate.not_asksListing_of_asksGate (hchecks q hq)).trans (hfiles files')
  have hcheckouts : Gate.checkouts (listing ++ checks) = Gate.checkouts checks := by
    rw [Gate.checkouts_append, Gate.checkouts_listing hlist, List.nil_append]
  simp only [LetsPass, hlisted, exists_eq_left, Gate.AllPass, hcheckouts]

theorem unlines_append_ne_nil (pieces : List Text) {last : Text} (h : last ≠ []) :
    Text.unlines (pieces ++ [last]) ≠ [] := by
  intro he
  induction pieces with
  | nil => exact h (by simpa [Text.unlines] using he)
  | cons piece rest ih =>
    cases hr : rest ++ [last] with
    | nil => simp at hr
    | cons next more => simp [Text.unlines, hr] at he

theorem render_eq_nil_iff {f : Findings} {report : Text} (h : Report.render f = .ok report) :
    report = [] ↔ f.abortRequested = false := by
  rw [Report.render] at h
  cases ha : f.abortRequested with
  | false =>
    rw [ha] at h
    cases h
    simp
  | true =>
    rw [ha, if_pos rfl] at h
    cases hs : Report.syntaxSection f with
    | error fault =>
      rw [hs] at h
      cases h
    | ok sections =>
      rw [hs] at h
      cases h
      have hne := unlines_append_ne_nil (f.debugReports ++ sections)
        (show Report.advice ≠ [] by decide)
      exact iff_of_false hne Bool.noConfusion

theorem verdict_ok {findings : Findings} {v : Verdict} (h : verdict findings s = .ok v s') :
    s' = s ∧ (v.status = 0 ∨ v.status = 1) ∧ (v.status = 0 ↔ v.output = []) ∧
      (v.status = 0 ↔ findings.abortRequested = false) := by
  rw [verdict] at h
  cases hr : Report.render findings with
  | error fault =>
    rw [hr] at h
    cases h
  | ok report =>
    rw [hr] at h
    cases h
    have hreport := render_eq_nil_iff hr
    cases ha : findings.abortRequested with
    | false =>
      rw [ha] at hreport
      simp [hreport.2 rfl]
    | true =>
      rw [ha] at hreport
      have hne : report ≠ [] := fun he => by simpa using hreport.1 he
      simp [hne, abortStatus]

theorem gitTrouble_ok {failure : GitFailure} {notice : Text} {v : Verdict}
    (h : gitTrouble failure notice s = .ok v s') :
    s'.invocations = s.invocations ∧ v.status = 1 ∧ v.output ≠ [] := by
  obtain ⟨_, t, hr, hv⟩ := bind_eq_ok.1 h
  cases hr
  cases hv
  exact ⟨rfl, rfl, by simp⟩

theorem judge_cases {php : Option Text} {v : Verdict} (h : judge programs php s = .ok v s') :
    (∃ failure notice t, Staged.list programs s = .error (.git failure) t ∧
        gitTrouble failure notice t = .ok v s') ∨
      ∃ files t, Staged.list programs s = .ok files t ∧
        ((∃ failure notice t', Gate.run programs (Linter.ofSettings none php)
            (Path.ofText scratchDirectory) files t = .error (.git failure) t' ∧
          gitTrouble failure notice t' = .ok v s') ∨
        ∃ findings t', Gate.run programs (Linter.ofSettings none php)
            (Path.ofText scratchDirectory) files t = .ok findings t' ∧
          verdict findings t' = .ok v s') := by
  obtain ⟨listed, t, hl, h⟩ := bind_eq_ok.1 h
  rcases attempt_eq_ok hl with ⟨files, rfl, hlist⟩ | ⟨failure, rfl, hlist⟩
  · obtain ⟨found, t', hg, h⟩ := bind_eq_ok.1 h
    refine .inr ⟨files, t, hlist, ?_⟩
    rcases attempt_eq_ok hg with ⟨findings, rfl, hgate⟩ | ⟨failure, rfl, hgate⟩
    · exact .inr ⟨findings, t', hgate, h⟩
    · exact .inl ⟨failure, _, t', hgate, h⟩
  · exact .inl ⟨failure, _, t, hlist, h⟩

/-- A run that comes to a verdict exits with 0 or 1, prints nothing exactly if it exits with 0, and
does so exactly if everything that has to be clean is. -/
theorem verdict_sound_and_complete {v : Verdict} (h : run programs environment s = .ok v s') :
    (v.status = 0 ∨ v.status = 1) ∧ (v.status = 0 ↔ v.output = []) ∧
      (v.status = 0 ↔ LetsPass programs environment (queriesBetween s s')) := by
  obtain ⟨level, log, hrun⟩ := run_eq programs environment s
  obtain ⟨s', hjudge, rfl⟩ := withLog_eq_ok (hrun.symm.trans h)
  change _ ∧ _ ∧ (_ ↔ LetsPass programs environment (queriesBetween s s'))
  have aborts : ∀ {failure notice t queries}, Ran s t queries →
      ¬LetsPass programs environment queries → gitTrouble failure notice t = .ok v s' →
      (v.status = 0 ∨ v.status = 1) ∧ (v.status = 0 ↔ v.output = []) ∧
        (v.status = 0 ↔ LetsPass programs environment (queriesBetween s s')) := by
    intro failure notice t queries hran hno ht
    obtain ⟨hi, hs, ho⟩ := gitTrouble_ok ht
    have hran' := hran.trans (Ran.none hi)
    rw [List.append_nil] at hran'
    rw [hran'.queriesBetween_eq]
    simp [hs, ho, hno]
  rcases judge_cases hjudge with ⟨failure, notice, t, hl, ht⟩ | ⟨files, t, hl, h⟩
  · obtain ⟨listing, hran, _, hno⟩ := Staged.list_git hl
    exact aborts hran (fun ⟨files, hfiles, _⟩ => hno files hfiles) ht
  obtain ⟨listing, hran, hlist, hfiles⟩ := Staged.list_ok hl
  rcases h with ⟨failure, notice, t', hg, ht⟩ | ⟨findings, t', hg, hv⟩
  · obtain ⟨checks, hran', hchecks, hno⟩ := Gate.run_git hg
    refine aborts (hran.trans hran') (fun hp => ?_) ht
    exact hno ((letsPass_append hlist hchecks hfiles).1 hp)
  · obtain ⟨checks, hran', hchecks, hflag⟩ := Gate.run_ok hg
    obtain ⟨rfl, hs, ho, hstatus⟩ := verdict_ok hv
    refine ⟨hs, ho, ?_⟩
    rw [(hran.trans hran').queriesBetween_eq, letsPass_append hlist hchecks hfiles, hstatus, hflag]

def exited (status : Int) (output : String) (left : Deposit) : Reply :=
  .completed ⟨status, Utf8.encode output.toList, []⟩ left

def oneStaged (source : String) : Dialogue.Transcript :=
  [exited 0 "8e0a1c2f\n" .nothing,
    exited 0 ":100644 100644 1c2f 8e0a M\x00index.php\x00" .nothing,
    exited 0 "" (.file (Utf8.encode source.toList))]

def acceptedRun (source : String) : Programs :=
  Dialogue.programs (oneStaged source ++ [exited 0 source .nothing, exited 0 "" .nothing])

theorem run_with_a_clean_file :
    ∃ v s', run (acceptedRun "<?php f(1);\n") ⟨none, none⟩ Dialogue.start = .ok v s' ∧
      v.status = 0 ∧
      LetsPass (acceptedRun "<?php f(1);\n") ⟨none, none⟩ (queriesBetween Dialogue.start s') := by
  have hvalue : value? (run (acceptedRun "<?php f(1);\n") ⟨none, none⟩ Dialogue.start) =
      some ⟨0, []⟩ := by decide +kernel
  obtain ⟨s', h⟩ := ok_of_value? hvalue
  exact ⟨_, s', h, rfl, (verdict_sound_and_complete h).2.2.1 rfl⟩

end Hook

end CommitGate
