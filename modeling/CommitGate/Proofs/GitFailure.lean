import CommitGate.Proofs.Plan

/-! What becomes of a git command that fails. Its output is read as text before its status is looked at,
so a failure that prints what is no text never counts as a failure of git's: it stops the run. Any other
one is a git failure, which the run falls back from or aborts at. -/
namespace CommitGate

open Session

namespace Git

def FaultOf (r : Response) (fault : Fault) : Prop :=
  (Intelligible r ∧ ∃ failure, fault = .git failure) ∨ ¬Intelligible r ∧ fault = .undecodableOutput

theorem faultOf_meaning {subcommand : Text} {r : Response} {fault : Fault}
    (h : meaning subcommand r = .error fault) : FaultOf r fault := by
  rcases meaning_cases subcommand r with ⟨_, output, hm, _⟩ | ⟨hr, failure, hm, _⟩ | ⟨hr, hm⟩
  · cases h.symm.trans hm
  · cases h.symm.trans hm
    exact .inl ⟨hr, failure, rfl⟩
  · cases h.symm.trans hm
    exact .inr ⟨hr, rfl⟩

theorem meaning_of_failed (subcommand : Text) {r : Response}
    (h : ¬∃ c, r = .completed c ∧ c.status = 0) :
    ∃ fault, meaning subcommand r = .error fault := by
  rcases meaning_cases subcommand r with ⟨_, output, _, hok⟩ | ⟨_, failure, hm, _⟩ | ⟨_, hm⟩
  · exact absurd hok h
  · exact ⟨_, hm⟩
  · exact ⟨_, hm⟩

theorem run_of_failed {programs : Programs} {subcommand : Text} {arguments : List Text} {s : Session}
    (h : ¬Query.Succeeded programs ⟨command subcommand arguments, s.moment⟩) :
    ∃ fault, run programs subcommand arguments s =
        .error fault (s.asked programs (command subcommand arguments)) ∧
      FaultOf (Query.response programs ⟨command subcommand arguments, s.moment⟩) fault := by
  obtain ⟨fault, hm⟩ := meaning_of_failed subcommand h
  have hrun := run_eq programs subcommand arguments s
  rw [show meaning subcommand (s.moment.ask programs (command subcommand arguments)).1 = _ from hm]
    at hrun
  exact ⟨fault, hrun, faultOf_meaning hm⟩

end Git

namespace Staged

variable {programs : Programs} {s : Session} {q : Query}

theorem asked_failed {base : Text} {asked : List Query} (h : BaseAsked programs s base asked)
    (hq : q ∈ asked) (hfailed : ¬q.Succeeded programs) :
    q = headQuery s ∧ Git.Intelligible (q.response programs) ∧
      emptyTreeQuery programs s ∈ asked := by
  cases h with
  | lastCommit hhead =>
    rw [List.mem_singleton.1 hq] at hfailed
    exact absurd hhead hfailed
  | emptyTree hhead hid =>
    rcases List.mem_cons.1 hq with rfl | hq
    · rcases Git.faultOf_meaning hhead with ⟨hr, _⟩ | ⟨_, hfault⟩
      · exact ⟨rfl, hr, .tail _ (List.mem_singleton_self _)⟩
      · cases hfault
    · rw [List.mem_singleton.1 hq] at hfailed
      exact absurd (Git.succeeded_of_meaning hid) hfailed

theorem list_failed {queries : List Query} {r : EStateM.Result Fault Session (List Text)}
    (h : ListRun programs s queries r) (hq : q ∈ queries) (hfailed : ¬q.Succeeded programs) :
    (q = headQuery s ∧ Git.Intelligible (q.response programs) ∧
        emptyTreeQuery programs s ∈ queries) ∨
      ∃ fault s', r = .error fault s' ∧ Git.FaultOf (q.response programs) fault ∧
        (q.Asks headWord → fault = .undecodableOutput) := by
  cases h with
  | noHead hm =>
    obtain rfl := List.mem_singleton.1 hq
    exact .inr ⟨_, _, rfl, Git.faultOf_meaning hm, fun _ => rfl⟩
  | noEmptyTree hhead hm =>
    rcases List.mem_cons.1 hq with rfl | hq
    · rcases Git.faultOf_meaning hhead with ⟨hr, _⟩ | ⟨_, hfault⟩
      · exact .inl ⟨rfl, hr, .tail _ (List.mem_singleton_self _)⟩
      · cases hfault
    · obtain rfl := List.mem_singleton.1 hq
      refine .inr ⟨_, _, rfl, Git.faultOf_meaning hm, fun hasks => ?_⟩
      exact absurd (hasks.unique rfl) (by decide)
  | noComparison hasked hm =>
    rcases List.mem_append.1 hq with hq | hq
    · obtain ⟨rfl, hr, hempty⟩ := asked_failed hasked hq hfailed
      exact .inl ⟨rfl, hr, List.mem_append_left _ hempty⟩
    · obtain rfl := List.mem_singleton.1 hq
      refine .inr ⟨_, _, rfl, Git.faultOf_meaning hm, fun hasks => ?_⟩
      exact absurd (hasks.unique rfl) (by decide)
  | malformed hasked hm | through hasked hm =>
    rcases List.mem_append.1 hq with hq | hq
    · obtain ⟨rfl, hr, hempty⟩ := asked_failed hasked hq hfailed
      exact .inl ⟨rfl, hr, List.mem_append_left _ hempty⟩
    · obtain rfl := List.mem_singleton.1 hq
      exact absurd (Git.succeeded_of_meaning hm) hfailed

end Staged

namespace Gate

variable {programs : Programs} {linter : Linter} {scratch : Path} {files : List Text} {s t : Session}

theorem Walked.succeeded {rows : List (Text × Query)}
    (h : Walked programs linter scratch s rows t) : ∀ x ∈ rows, x.2.Succeeded programs := by
  induction h with
  | start => simp
  | next _ hi ih =>
    refine List.forall_mem_append.2 ⟨ih, List.forall_mem_singleton.2 ?_⟩
    exact inspect_succeeded hi

/-- A failing checkout is the last thing that a run of the gate asks for. -/
theorem checkout_failed {queries : List Query} {q : Query}
    (hran : Ran s (ending (run programs linter scratch files s)) queries)
    (hq : q ∈ checkouts queries) (hfailed : ¬q.Succeeded programs) :
    ∃ fault s', run programs linter scratch files s = .error fault s' ∧
      Git.FaultOf (q.response programs) fault := by
  have hrun := gate_run programs linter scratch files s
  generalize run programs linter scratch files s = r at hrun hran
  cases hrun with
  | unprepared _ =>
    have hnone := hran.queriesBetween_eq.symm.trans (Ran.none rfl).queriesBetween_eq
    rw [hnone] at hq
    cases hq
  | through hprepare hwalk _ =>
    have hrows := hran.queriesBetween_eq.symm.trans (hwalk.ran_prepared hprepare).queriesBetween_eq
    rw [hrows, checkouts_rows hwalk.checkout] at hq
    obtain ⟨x, hx, rfl⟩ := List.mem_map.1 hq
    exact absurd (hwalk.succeeded x hx) hfailed
  | @stopped s₀ t s' rows path rest fault hprepare hwalk hfiles hstop =>
    obtain ⟨part, _, hall, hprefix⟩ := hwalk.ran_stopped hprepare hstop
    have hrows := hran.queriesBetween_eq.symm.trans hall.queriesBetween_eq
    rw [hrows, hwalk.checkouts_stopped hprefix, List.map_append] at hq
    rcases List.mem_append.1 hq with hq | hq
    · obtain ⟨x, hx, rfl⟩ := List.mem_map.1 hq
      exact absurd (hwalk.succeeded x hx) hfailed
    · obtain rfl := List.mem_singleton.1 hq
      obtain ⟨u, _, _, _, he⟩ :=
        inspect_eq programs scratch (checkFor programs linter) path t
      rw [he] at hstop
      split at hstop
      · rename_i hm
        cases hstop
        exact ⟨_, _, rfl, Git.faultOf_meaning hm⟩
      · rename_i hm
        exact absurd (Git.succeeded_of_meaning hm) hfailed

end Gate

namespace Hook

open Gate Staged

variable {programs : Programs} {environment : Environment} {s t : Session} {response : Response}
  {fault : Fault}

/-- A run that stops for a response: with a notice, at the abort status, if the response can be read. -/
structure Stops (response : Response) (notice : Text) (r : EStateM.Result Fault Session Verdict) :
    Prop where
  aborts : Git.Intelligible response → ∃ s', r = .ok ⟨abortStatus, notice ++ ['\n']⟩ s'
  raises : ¬Git.Intelligible response → ∃ s', r = .error .undecodableOutput s'

theorem stops_with_notice {failure : GitFailure} (notice : Text) (s : Session)
    (h : Git.FaultOf response (.git failure)) :
    Stops response notice (.ok ⟨abortStatus, notice ++ ['\n']⟩ s) := by
  rcases h with ⟨hread, _⟩ | ⟨_, hfault⟩
  · exact ⟨fun _ => ⟨s, rfl⟩, fun hno => absurd hread hno⟩
  · cases hfault

theorem stops_with_fault (notice : Text) (s : Session) (h : Git.FaultOf response fault)
    (hno : ∀ failure, fault ≠ .git failure) : Stops response notice (.error fault s) := by
  rcases h with ⟨_, failure, hfault⟩ | ⟨hillegible, rfl⟩
  · exact absurd hfault (hno failure)
  · exact ⟨fun hread => absurd hread hillegible, fun _ => ⟨s, rfl⟩⟩

theorem stops_of_list (hl : Staged.list programs s = .error fault t)
    (hfault : Git.FaultOf response fault) :
    Stops response listingNotice (run programs environment s) := by
  obtain ⟨level, log, r, hr, hrun⟩ := hook_run programs environment s
  rw [hr]
  cases hrun with
  | unlisted hl' =>
    cases hl.symm.trans hl'
    exact stops_with_notice _ _ hfault
  | listingFault hl' hno =>
    cases hl.symm.trans hl'
    exact stops_with_fault _ _ hfault hno
  | unchecked hl' _ | gateFault hl' _ _ | judged hl' _ => cases hl.symm.trans hl'

theorem stops_of_gate {files : List Text} {t' : Session}
    (hl : Staged.list programs s = .ok files t)
    (hg : gate programs environment.php files t = .error fault t')
    (hfault : Git.FaultOf response fault) :
    Stops response checkoutNotice (run programs environment s) := by
  obtain ⟨level, log, r, hr, hrun⟩ := hook_run programs environment s
  rw [hr]
  cases hrun with
  | unlisted hl' | listingFault hl' _ => cases hl.symm.trans hl'
  | unchecked hl' hg' =>
    cases hl.symm.trans hl'
    cases hg.symm.trans hg'
    exact stops_with_notice _ _ hfault
  | gateFault hl' hg' hno =>
    cases hl.symm.trans hl'
    cases hg.symm.trans hg'
    exact stops_with_fault _ _ hfault hno
  | judged hl' hg' =>
    cases hl.symm.trans hl'
    cases hg.symm.trans hg'

/-- What a run does about a git command that fails, by what it was asked for. -/
structure Handled (programs : Programs) (queries : List Query)
    (r : EStateM.Result Fault Session Verdict) (q : Query) : Prop where
  lastCommit : q.Asks headWord →
    (Git.Intelligible (q.response programs) →
      ⟨emptyTreeCommand, q.after programs⟩ ∈ queries) ∧
    (¬Git.Intelligible (q.response programs) → ∃ s', r = .error .undecodableOutput s')
  listing : q.Asks emptyTreeWord ∨ q.Asks comparisonWord →
    Stops (q.response programs) listingNotice r
  checkout : q.Asks Command.checkoutWord → Stops (q.response programs) checkoutNotice r

theorem handled_of_fallback {queries : List Query} {r : EStateM.Result Fault Session Verdict}
    (hread : Git.Intelligible ((headQuery s).response programs))
    (hempty : emptyTreeQuery programs s ∈ queries) :
    Handled programs queries r (headQuery s) where
  lastCommit _ := ⟨fun _ => hempty, fun h => absurd hread h⟩
  listing h := by
    rcases h with h | h
    · exact absurd (h.unique rfl) (by decide)
    · exact absurd (h.unique rfl) (by decide)
  checkout h := absurd (h.unique rfl) (by decide)

/-- A git command that fails is a git failure if what it has printed can be read, and else a fault that
nothing handles. Of the git failures of a run, the one about the last commit makes it ask for the empty
tree, and any other ends it with the notice for the listing or the checkout, at the abort status. -/
theorem git_failures_handled (programs : Programs) (environment : Environment) (s : Session) :
    let r := run programs environment s
    let queries := queriesBetween s (ending r)
    (∀ subcommand arguments (t : Session) (q : Query),
        q = ⟨Git.command subcommand arguments, t.moment⟩ → ¬q.Succeeded programs →
        ∃ fault t', Git.run programs subcommand arguments t = .error fault t' ∧
          Git.FaultOf (q.response programs) fault) ∧
      ∀ q ∈ queries, ¬q.Succeeded programs → Handled programs queries r q := by
  intro r queries
  constructor
  · rintro subcommand arguments t q rfl hfailed
    obtain ⟨fault, hrun, hfault⟩ := Git.run_of_failed hfailed
    exact ⟨fault, _, hrun, hfault⟩
  intro q hq hfailed
  obtain ⟨listing, hlisting, hlist⟩ := Staged.list_run programs s
  have hasks := listing_asks hlist
  cases hl : Staged.list programs s with
  | error fault t =>
    have hqueries : queries = listing := queries_of_list_error hlisting hl
    rw [hqueries] at hq ⊢
    rw [hl] at hlist
    rcases list_failed hlist hq hfailed with ⟨rfl, hread, hempty⟩ | ⟨_, _, he, hfault, hhead⟩
    · exact handled_of_fallback hread hempty
    · cases he
      have hstops : Stops (q.response programs) listingNotice r := stops_of_list hl hfault
      refine ⟨fun h => ⟨fun hread => ?_, hstops.raises⟩, fun _ => hstops, fun h => ?_⟩
      · rcases hfault with ⟨_, failure, hfault⟩ | ⟨hno, _⟩
        · cases hfault.symm.trans (hhead h)
        · exact absurd hread hno
      · exact absurd (hasks q hq) (not_asksListing_of_asksGate (.inl h))
  | ok files t =>
    obtain ⟨copies, checks, hchecks, htrace, _⟩ := gate_trace programs
      (Linter.ofSettings none environment.php) (Path.ofText scratchDirectory) files t
    have hqueries : queries = listing ++ checks := queries_of_list_ok hlisting hl hchecks
    rw [hqueries] at hq ⊢
    rw [hl] at hlist
    rcases List.mem_append.1 hq with hq | hq
    · rcases list_failed hlist hq hfailed with ⟨rfl, hread, hempty⟩ | ⟨_, _, he, _⟩
      · exact handled_of_fallback hread (List.mem_append_left _ hempty)
      · cases he
    · have hno := not_asksListing_of_asksGate (htrace.asks q hq)
      refine ⟨fun h => absurd (.inl (.inl h)) hno, fun h => ?_, fun h => ?_⟩
      · rcases h with h | h
        · exact absurd (.inl (.inr h)) hno
        · exact absurd (.inr h) hno
      · have hmem : q ∈ checkouts checks := List.mem_filter.2 ⟨hq, by simpa using h⟩
        obtain ⟨fault, t', hg, hfault⟩ := checkout_failed hchecks hmem hfailed
        exact stops_of_gate hl hg hfault

def garbledFailure : Reply := .completed ⟨128, [], [0xFF]⟩ .nothing

def garbledAfter (earlier : Dialogue.Transcript) : Option (Option Text × Response) × Bool :=
  let programs := Dialogue.programs (earlier ++ [garbledFailure])
  let r := run programs ⟨none, none⟩ Dialogue.start
  let last := (queriesBetween Dialogue.start (ending r)).getLast?
  (last.map fun q => (q.command[1]?, q.response programs), (value? r).isSome)

/-- Whatever git was asked for, such a failure stops the run without a verdict. -/
theorem unreadable_failures_raise :
    [[],
      [.completed ⟨1, [], []⟩ .nothing],
      [exited 0 "8e0a1c2f\n" .nothing],
      [exited 0 "8e0a1c2f\n" .nothing,
        exited 0 ":100644 100644 1c2f 8e0a M\x00index.php\x00" .nothing]].map garbledAfter =
      [headWord, emptyTreeWord, comparisonWord, Command.checkoutWord].map fun subcommand =>
        (some (some subcommand, garbledFailure.response), false) := by
  decide +kernel

end Hook

end CommitGate
