import CommitGate.Proofs.ListingRun
import CommitGate.Proofs.Reported
import CommitGate.Proofs.Trace

/-! The commands of a whole run against a plan. The responses settle the plan step by step, and a run
asks for what is planned, in order, up to where it stops. -/
namespace CommitGate

open Session

namespace Hook

open Gate Check

variable {programs : Programs} {environment : Environment} {s s' t : Session}

def listingNotice : Text := "Error getting list of changed files in pre-commit hook".toList

def checkoutNotice : Text := "Error checking out staged files in pre-commit hook".toList

def IsNotice (output : Text) : Prop :=
  output = listingNotice ++ ['\n'] ∨ output = checkoutNotice ++ ['\n']

def gate (programs : Programs) (php : Option Text) (files : List Text) : Action Findings :=
  Gate.run programs (Linter.ofSettings none php) (Path.ofText scratchDirectory) files

/-- How a run may go once its log is set up, by how the listing goes and then the gate. -/
inductive JudgeRun (programs : Programs) (php : Option Text) (s : Session) :
    EStateM.Result Fault Session Verdict → Prop where
  | unlisted {failure : GitFailure} {t : Session} {log : List Log.Record} :
      Staged.list programs s = .error (.git failure) t →
      JudgeRun programs php s
        (.ok ⟨abortStatus, listingNotice ++ ['\n']⟩ { t with log })
  | listingFault {fault : Fault} {t : Session} :
      Staged.list programs s = .error fault t → (∀ failure, fault ≠ .git failure) →
      JudgeRun programs php s (.error fault t)
  | unchecked {files : List Text} {t t' : Session} {failure : GitFailure} {log : List Log.Record} :
      Staged.list programs s = .ok files t →
      gate programs php files t = .error (.git failure) t' →
      JudgeRun programs php s
        (.ok ⟨abortStatus, checkoutNotice ++ ['\n']⟩ { t' with log })
  | gateFault {files : List Text} {t t' : Session} {fault : Fault} :
      Staged.list programs s = .ok files t → gate programs php files t = .error fault t' →
      (∀ failure, fault ≠ .git failure) →
      JudgeRun programs php s (.error fault t')
  | judged {files : List Text} {t t' : Session} {findings : Findings} :
      Staged.list programs s = .ok files t → gate programs php files t = .ok findings t' →
      JudgeRun programs php s (verdict findings t')

theorem judge_run (programs : Programs) (php : Option Text) (s : Session) :
    JudgeRun programs php s (judge programs php s) := by
  cases hl : Staged.list programs s with
  | error fault t =>
    by_cases hgit : ∃ failure, fault = .git failure
    · obtain ⟨failure, rfl⟩ := hgit
      have hrun : judge programs php s = gitTrouble failure listingNotice t :=
        bind_of_ok (attempt_of_git hl)
      rw [hrun]
      exact .unlisted hl
    · rw [not_exists] at hgit
      have hrun : judge programs php s = .error fault t :=
        bind_of_error (attempt_of_error hl hgit)
      rw [hrun]
      exact .listingFault hl hgit
  | ok files t =>
    rw [judge, bind_of_ok (attempt_of_ok hl)]
    dsimp only
    change JudgeRun programs php s
      ((attempt (gate programs php files) >>= fun found => _) t)
    cases hg : gate programs php files t with
    | error fault t' =>
      by_cases hgit : ∃ failure, fault = .git failure
      · obtain ⟨failure, rfl⟩ := hgit
        rw [bind_of_ok (attempt_of_git hg)]
        exact .unchecked hl hg
      · rw [not_exists] at hgit
        rw [bind_of_error (attempt_of_error hg hgit)]
        exact .gateFault hl hg hgit
    | ok findings t' =>
      rw [bind_of_ok (attempt_of_ok hg)]
      exact .judged hl hg

theorem hook_run (programs : Programs) (environment : Environment) (s : Session) :
    ∃ level log r, run programs environment s = withLog level log r ∧
      JudgeRun programs environment.php s r := by
  obtain ⟨level, log, h⟩ := run_eq programs environment s
  exact ⟨level, log, _, h, judge_run programs environment.php s⟩

theorem verdict_ending (findings : Findings) (s : Session) :
    ending (verdict findings s) = s := by
  rw [verdict]
  cases Report.render findings <;> rfl

theorem advice_infix_render {f : Findings} {report : Text} (h : Report.render f = .ok report)
    (hne : report ≠ []) : Report.advice <:+: report := by
  rw [Report.render] at h
  split at h
  · cases hs : Report.syntaxSection f with
    | error fault =>
      rw [hs] at h
      cases h
    | ok sections =>
      rw [hs] at h
      cases h
      exact Text.infix_unlines (by simp)
  · cases h
    exact absurd rfl hne

theorem break_mem_unlines (first second : Text) (rest : List Text) :
    '\n' ∈ Text.unlines (first :: second :: rest) := by
  rw [Text.unlines, List.intercalate_cons_cons]
  simp

theorem not_isNotice_of_verdict {findings : Findings} {v : Verdict}
    (h : verdict findings s = .ok v s') : ¬IsNotice v.output := by
  have hbreak : '\n' ∈ Report.advice := break_mem_unlines _ _ _
  have hsingle : '\n' ∉ listingNotice ∧ '\n' ∉ checkoutNotice := by decide
  have hnot : ∀ notice, '\n' ∉ notice → v.output ≠ notice ++ ['\n'] := by
    intro notice hnotice he
    rw [verdict] at h
    cases hr : Report.render findings with
    | error fault =>
      rw [hr] at h
      cases h
    | ok report =>
      rw [hr] at h
      cases h
      dsimp only at he
      split at he
      · simp at he
      · rename_i hne
        have hadvice := advice_infix_render hr (by simpa using hne)
        rw [List.append_cancel_right he] at hadvice
        exact hnotice (hadvice.subset hbreak)
  rintro (he | he)
  · exact hnot _ hsingle.1 he
  · exact hnot _ hsingle.2 he

theorem ending_of_gate {files : List Text} (hl : Staged.list programs s = .ok files t) :
    (ending (run programs environment s)).invocations =
      (ending (gate programs environment.php files t)).invocations := by
  obtain ⟨level, log, r, hr, hrun⟩ := hook_run programs environment s
  rw [hr]
  cases hrun with
  | unlisted hl' | listingFault hl' _ => cases hl.symm.trans hl'
  | unchecked hl' hg =>
    cases hl.symm.trans hl'
    rw [hg]
    rfl
  | gateFault hl' hg _ =>
    cases hl.symm.trans hl'
    rw [hg]
    rfl
  | judged hl' hg =>
    cases hl.symm.trans hl'
    rw [hg, ending_withLog, verdict_ending]
    rfl

theorem ending_of_list {fault : Fault} (hl : Staged.list programs s = .error fault t) :
    (ending (run programs environment s)).invocations = t.invocations ∧
      (ending (run programs environment s)).tree = t.tree := by
  obtain ⟨level, log, r, hr, hrun⟩ := hook_run programs environment s
  rw [hr]
  cases hrun with
  | unlisted hl' | listingFault hl' _ =>
    cases hl.symm.trans hl'
    exact ⟨rfl, rfl⟩
  | unchecked hl' _ | gateFault hl' _ _ | judged hl' _ => cases hl.symm.trans hl'

theorem queries_of_list_error {fault : Fault} {listing : List Query}
    (hlisting : Ran s (ending (Staged.list programs s)) listing)
    (hl : Staged.list programs s = .error fault t) :
    queriesBetween s (ending (run programs environment s)) = listing := by
  rw [hl] at hlisting
  have hnone : Ran t (ending (run programs environment s)) [] := Ran.none (ending_of_list hl).1
  have hran := hlisting.trans hnone
  rw [List.append_nil] at hran
  exact hran.queriesBetween_eq

theorem queries_of_list_ok {files : List Text} {listing checks : List Query}
    (hlisting : Ran s (ending (Staged.list programs s)) listing)
    (hl : Staged.list programs s = .ok files t)
    (hchecks : Ran t (ending (gate programs environment.php files t)) checks) :
    queriesBetween s (ending (run programs environment s)) = listing ++ checks := by
  rw [hl] at hlisting
  have hran := (hlisting.trans hchecks).trans (Ran.none (ending_of_gate hl))
  rw [List.append_nil] at hran
  exact hran.queriesBetween_eq

theorem run_of_list_error {fault : Fault} {v : Verdict}
    (hl : Staged.list programs s = .error fault t) (h : run programs environment s = .ok v s') :
    (∃ failure, fault = .git failure) ∧ v.output = listingNotice ++ ['\n'] := by
  obtain ⟨level, log, r, hr, hrun⟩ := hook_run programs environment s
  obtain ⟨t', rfl, _⟩ := withLog_eq_ok (hr.symm.trans h)
  generalize hend : EStateM.Result.ok v t' = r at hrun
  cases hrun with
  | unlisted hl' =>
    cases hl.symm.trans hl'
    cases hend
    exact ⟨⟨_, rfl⟩, rfl⟩
  | listingFault _ _ => cases hend
  | unchecked hl' _ | gateFault hl' _ _ | judged hl' _ => cases hl.symm.trans hl'

theorem run_of_list_ok {files : List Text} {v : Verdict}
    (hl : Staged.list programs s = .ok files t) (h : run programs environment s = .ok v s') :
    (∃ failure t', gate programs environment.php files t = .error (.git failure) t' ∧
        v.output = checkoutNotice ++ ['\n']) ∨
      ∃ findings t' t'', gate programs environment.php files t = .ok findings t' ∧
        verdict findings t' = .ok v t'' := by
  obtain ⟨level, log, r, hr, hrun⟩ := hook_run programs environment s
  obtain ⟨t', rfl, _⟩ := withLog_eq_ok (hr.symm.trans h)
  generalize hend : EStateM.Result.ok v t' = r at hrun
  cases hrun with
  | unlisted hl' | listingFault hl' _ => cases hl.symm.trans hl'
  | unchecked hl' hg =>
    cases hl.symm.trans hl'
    cases hend
    exact .inl ⟨_, _, hg, rfl⟩
  | gateFault _ _ _ => cases hend
  | judged hl' hg =>
    cases hl.symm.trans hl'
    exact .inr ⟨_, _, _, hg, hend.symm⟩

def AsksGit (q : Query) : Prop := Staged.AsksListing q ∨ q.Asks Command.checkoutWord

/-- What a run is to ask for: whether it has to fall back on the empty tree, what it compares the
staged files with, and the files to check, each with whether its copy can be read. -/
structure Plan where
  fallback : Bool
  base : Text
  copies : List (Text × Bool)

def Plan.commands (linter : Linter) (scratch : Path) (p : Plan) : List Command :=
  Staged.headCommand :: (if p.fallback then [Staged.emptyTreeCommand] else []) ++
    Staged.comparisonCommand p.base :: p.copies.flatMap (fileCommands linter scratch)

/-- A plan is the one that the responses to some queries settle, as far as they do. -/
structure Plan.Fits (programs : Programs) (scratch : Path) (queries : List Query) (p : Plan) :
    Prop where
  fallback : ∀ q ∈ queries, q.Asks Staged.headWord →
    (p.fallback = true ↔ ¬q.Succeeded programs)
  lastCommit : p.fallback = false → p.base = Git.head
  emptyTree : p.fallback = true → ∀ q ∈ queries, q.Asks Staged.emptyTreeWord → ∀ id,
    Git.meaning Staged.emptyTreeWord (q.response programs) = .ok id → p.base = Text.trim id
  files : ∀ q ∈ queries, q.Asks Staged.comparisonWord → ∀ listing,
    Git.meaning Staged.comparisonWord (q.response programs) = .ok listing →
      p.copies.map Prod.fst = agenda (Staged.listed listing)
  readable : ∀ x ∈ p.copies.zip (checkouts queries),
    x.1.2 = true ↔ Reads programs scratch (x.1.1, x.2)

section Plan

open Staged

variable {base : Text} {asked checks : List Query} {copies : List (Text × Bool)} {scratch : Path}
  {linter : Linter}

theorem asksBase_of_listing {q : Query} (h : q = headQuery s ∨ q = emptyTreeQuery programs s) :
    AsksBase q := by
  rcases h with rfl | rfl
  · exact .inl rfl
  · exact .inr rfl

theorem mem_of_baseAsked (h : BaseAsked programs s base asked) :
    ∀ q ∈ asked, q = headQuery s ∨ q = emptyTreeQuery programs s := by
  cases h with
  | lastCommit _ => simp
  | emptyTree _ _ => simp

theorem query_of_baseWord {q : Query} (h : q = headQuery s ∨ q = emptyTreeQuery programs s) :
    (q.Asks headWord → q = headQuery s) ∧ (q.Asks emptyTreeWord → q = emptyTreeQuery programs s) := by
  rcases h with rfl | rfl
  · exact ⟨fun _ => rfl, fun h => absurd (h.unique rfl) (by decide)⟩
  · exact ⟨fun h => absurd (h.unique rfl) (by decide), fun _ => rfl⟩

theorem query_of_word (hasked : BaseAsked programs s base asked)
    (hchecks : ∀ q ∈ checks, AsksGate q) {q : Query}
    (hq : q ∈ asked ++ [comparisonQuery base t] ++ checks) :
    (q.Asks headWord → q = headQuery s) ∧ (q.Asks emptyTreeWord → q = emptyTreeQuery programs s) ∧
      (q.Asks comparisonWord → q = comparisonQuery base t) := by
  rw [List.append_assoc] at hq
  rcases List.mem_append.1 hq with hq | hq
  · have hbase := mem_of_baseAsked hasked q hq
    obtain ⟨hhead, hempty⟩ := query_of_baseWord hbase
    refine ⟨hhead, hempty, fun h => ?_⟩
    exact absurd h (not_comparison_of_asksBase (asksBase_of_listing hbase))
  · rcases List.mem_cons.1 hq with rfl | hq
    · exact ⟨fun h => absurd (h.unique rfl) (by decide), fun h => absurd (h.unique rfl) (by decide),
        fun _ => rfl⟩
    · have hnot := not_asksListing_of_asksGate (hchecks q hq)
      exact ⟨fun h => absurd (.inl (.inl h)) hnot, fun h => absurd (.inl (.inr h)) hnot,
        fun h => absurd (.inr h) hnot⟩

theorem fits_of_no_base {queries : List Query} {p : Plan}
    (hqueries : ∀ q ∈ queries, q = headQuery s ∨ q = emptyTreeQuery programs s)
    (hfallback : p.fallback = true ↔ ¬(headQuery s).Succeeded programs)
    (hbase : p.fallback = false → p.base = Git.head)
    (hid : ∀ q ∈ queries, q.Asks emptyTreeWord → ∀ id,
      Git.meaning emptyTreeWord (q.response programs) ≠ .ok id) :
    p.Fits programs scratch queries where
  fallback q hq hasks := by
    obtain rfl := (query_of_baseWord (hqueries q hq)).1 hasks
    exact hfallback
  lastCommit := hbase
  emptyTree _ q hq hasks id hm := absurd hm (hid q hq hasks id)
  files q hq hasks := by
    have hno := not_comparison_of_asksBase (asksBase_of_listing (hqueries q hq))
    exact absurd hasks hno
  readable := by
    rw [checkouts_listing fun q hq => .inl (asksBase_of_listing (hqueries q hq)), List.zip_nil_right]
    simp

variable (checks copies scratch linter) in
/-- With a base found, the plan is made up of what was asked to find it, the comparison, and what is
asked for the files. -/
theorem plan_of_base (hasked : BaseAsked programs s base asked)
    (hchecks : ∀ q ∈ checks, AsksGate q)
    (hfiles : ∀ listing,
      Git.meaning comparisonWord ((comparisonQuery base t).response programs) = .ok listing →
        copies.map Prod.fst = agenda (listed listing))
    (hread : ∀ x ∈ copies.zip (checkouts checks),
      x.1.2 = true ↔ Reads programs scratch (x.1.1, x.2)) :
    ∃ p : Plan, p.Fits programs scratch (asked ++ [comparisonQuery base t] ++ checks) ∧
      p.commands linter scratch = (asked ++ [comparisonQuery base t]).map Query.command ++
        copies.flatMap (fileCommands linter scratch) := by
  have hword := fun q => query_of_word (t := t) hasked hchecks (q := q)
  have hlisting : ∀ q ∈ asked ++ [comparisonQuery base t], AsksListing q := by
    refine List.forall_mem_append.2 ⟨fun q hq => ?_, List.forall_mem_singleton.2 (.inr rfl)⟩
    exact .inl (asksBase_of_listing (mem_of_baseAsked hasked q hq))
  have hcheckouts : checkouts (asked ++ [comparisonQuery base t] ++ checks) = checkouts checks := by
    rw [checkouts_append, checkouts_listing hlisting, List.nil_append]
  have fits : ∀ fallback, (fallback = true ↔ ¬(headQuery s).Succeeded programs) →
      (fallback = false → base = Git.head) →
      (fallback = true → ∀ id, Git.meaning emptyTreeWord
        ((emptyTreeQuery programs s).response programs) = .ok id → base = Text.trim id) →
      Plan.Fits programs scratch (asked ++ [comparisonQuery base t] ++ checks)
        ⟨fallback, base, copies⟩ := by
    intro fallback hfallback hhead hempty
    refine ⟨fun q hq hasks => ?_, hhead, fun h q hq hasks => ?_, fun q hq hasks => ?_, ?_⟩
    · obtain rfl := (hword q hq).1 hasks
      exact hfallback
    · obtain rfl := (hword q hq).2.1 hasks
      exact hempty h
    · obtain rfl := (hword q hq).2.2 hasks
      exact hfiles
    · rw [hcheckouts]
      exact hread
  cases hasked with
  | lastCommit hhead =>
    refine ⟨_, fits false ?_ (fun _ => rfl) (fun h => (by cases h)), rfl⟩
    exact iff_of_false Bool.false_ne_true fun hno => hno hhead
  | emptyTree hhead hid =>
    refine ⟨_, fits true ?_ (fun h => (by cases h)) (fun _ id hm => ?_), rfl⟩
    · exact iff_of_true rfl (Git.not_succeeded_of_meaning hhead)
    · rw [Except.ok.inj (hid.symm.trans hm)]

end Plan

theorem listing_asks {queries : List Query} {r : EStateM.Result Fault Session (List Text)}
    (h : Staged.ListRun programs s queries r) : ∀ q ∈ queries, Staged.AsksListing q := by
  have base : ∀ {base asked}, Staged.BaseAsked programs s base asked →
      ∀ q ∈ asked, Staged.AsksListing q :=
    fun h q hq => .inl (asksBase_of_listing (mem_of_baseAsked h q hq))
  cases h with
  | noHead _ => exact List.forall_mem_singleton.2 (.inl (.inl rfl))
  | noEmptyTree _ _ =>
    exact List.forall_mem_cons.2
      ⟨.inl (.inl rfl), List.forall_mem_singleton.2 (.inl (.inr rfl))⟩
  | noComparison h _ | malformed h _ | through h _ =>
    exact List.forall_mem_append.2 ⟨base h, List.forall_mem_singleton.2 (.inr rfl)⟩

theorem listing_last_failed {queries : List Query} {failure : GitFailure}
    (h : Staged.ListRun programs s queries (.error (.git failure) s')) :
    ∃ q, queries.getLast? = some q ∧ AsksGit q ∧ ¬q.Succeeded programs := by
  cases h with
  | noEmptyTree _ hm =>
    exact ⟨_, rfl, .inl (.inl (.inr rfl)), Git.not_succeeded_of_meaning hm⟩
  | noComparison _ hm =>
    exact ⟨_, List.getLast?_concat, .inl (.inr rfl), Git.not_succeeded_of_meaning hm⟩

theorem plan_of_listing {queries : List Query} {fault : Fault} (linter : Linter) (scratch : Path)
    (h : Staged.ListRun programs s queries (.error fault s')) :
    ∃ p : Plan, p.Fits programs scratch queries ∧
      queries.map Query.command <+: p.commands linter scratch := by
  cases h with
  | noHead hm =>
    by_cases hhead : (Staged.headQuery s).Succeeded programs
    · refine ⟨⟨false, Git.head, []⟩, fits_of_no_base (s := s) (by simp) ?_ (fun _ => rfl) ?_, ?_⟩
      · exact iff_of_false Bool.false_ne_true fun hno => hno hhead
      · intro q hq hasks
        obtain rfl := List.mem_singleton.1 hq
        exact absurd (hasks.unique rfl) (by decide)
      · exact ⟨_, rfl⟩
    · refine ⟨⟨true, [], []⟩, fits_of_no_base (s := s) (by simp) ?_ (fun h => (by cases h)) ?_, ?_⟩
      · exact iff_of_true rfl hhead
      · intro q hq hasks
        obtain rfl := List.mem_singleton.1 hq
        exact absurd (hasks.unique rfl) (by decide)
      · exact ⟨_, rfl⟩
  | noEmptyTree hhead hm =>
    refine ⟨⟨true, [], []⟩, fits_of_no_base (s := s) (by simp) ?_ (fun h => (by cases h)) ?_,
      ⟨_, rfl⟩⟩
    · exact iff_of_true rfl (Git.not_succeeded_of_meaning hhead)
    · intro q hq hasks id hid
      obtain rfl : q = Staged.emptyTreeQuery programs s := by
        rcases List.mem_cons.1 hq with rfl | hq
        · exact absurd (hasks.unique rfl) (by decide)
        · exact List.mem_singleton.1 hq
      cases hid.symm.trans hm
  | @noComparison base t _ asked _ hasked hm =>
    obtain ⟨p, hfits, hcommands⟩ := plan_of_base [] [] scratch linter (t := t) hasked (by simp)
      (fun listing hok => (by cases hm.symm.trans hok)) (by simp)
    rw [List.append_nil] at hfits
    refine ⟨p, hfits, ?_⟩
    rw [hcommands]
    exact List.prefix_append _ _
  | @malformed base listing t _ asked n hasked hm =>
    obtain ⟨p, hfits, hcommands⟩ := plan_of_base []
      ((agenda (Staged.listed listing)).map fun path => (path, false)) scratch linter (t := t)
      hasked (by simp)
      (fun listing' hok => (by
        rw [Except.ok.inj (hm.symm.trans hok), List.map_map]
        exact List.map_id _)) (by simp [checkouts])
    rw [List.append_nil] at hfits
    refine ⟨p, hfits, ?_⟩
    rw [hcommands]
    exact List.prefix_append _ _

theorem plan_of_trace {listing checks : List Query} {files : List Text} {copies : List (Text × Bool)}
    {linter : Linter} {scratch : Path} (hlist : Staged.ListRun programs s listing (.ok files t))
    (htrace : GateTrace programs linter scratch files copies checks) :
    ∃ p : Plan, p.Fits programs scratch (listing ++ checks) ∧
      p.commands linter scratch =
        listing.map Query.command ++ copies.flatMap (fileCommands linter scratch) := by
  cases hlist with
  | through hasked hm =>
    refine plan_of_base checks copies scratch linter hasked htrace.asks (fun output hok => ?_)
      htrace.readable
    rw [Except.ok.inj (hm.symm.trans hok)] at htrace
    exact htrace.files

/-- A run asks for what its responses have settled, in order, and for nothing else. One that comes to a
report has asked for all of it, and one that prints the notice of a git failure has last asked for what
failed. While a linter looks at a copy the copy is there, and it is gone when the next file is checked out.
A run whose listing fails leaves the files as they are. -/
theorem commands_keep_to_plan (programs : Programs) (environment : Environment) (s : Session) :
    let linter := Linter.ofSettings none environment.php
    let scratch := Path.ofText scratchDirectory
    let r := run programs environment s
    let queries := queriesBetween s (ending r)
    (∃ p : Plan, p.Fits programs scratch queries ∧
        queries.map Query.command <+: p.commands linter scratch ∧
        ∀ v s', r = .ok v s' → ¬IsNotice v.output →
          queries.map Query.command = p.commands linter scratch) ∧
      (∀ v s', r = .ok v s' → IsNotice v.output →
        ∃ q, queries.getLast? = some q ∧ AsksGit q ∧ ¬q.Succeeded programs) ∧
      (∀ q ∈ queries, AsksLinter q → Present linter q) ∧
      (checkouts queries).IsChain (GoneBy scratch) ∧
      ∀ fault t, Staged.list programs s = .error fault t → (ending r).tree = s.tree := by
  intro linter scratch r queries
  obtain ⟨listing, hlisting, hlist⟩ := Staged.list_run programs s
  have hkept := Staged.list_keeps_tree programs s
  have hasks := listing_asks hlist
  have hno : ∀ q ∈ listing, ¬AsksLinter q :=
    fun q hq h => not_asksListing_of_asksGate (.inr h) (hasks q hq)
  cases hl : Staged.list programs s with
  | error fault t =>
    have hqueries : queries = listing := queries_of_list_error hlisting hl
    have htree : (ending r).tree = t.tree := (ending_of_list hl).2
    rw [hl] at hlist hkept
    rw [hqueries]
    obtain ⟨p, hfits, hprefix⟩ := plan_of_listing linter scratch hlist
    refine ⟨⟨p, hfits, hprefix, fun v s' h hv => ?_⟩, fun v s' h _ => ?_, ?_, ?_, fun _ _ _ => ?_⟩
    · obtain ⟨_, hout⟩ := run_of_list_error hl h
      exact absurd (.inl hout) hv
    · obtain ⟨⟨failure, rfl⟩, _⟩ := run_of_list_error hl h
      exact listing_last_failed hlist
    · exact fun q hq h => absurd h (hno q hq)
    · rw [checkouts_listing hasks]
      exact .nil
    · exact htree.trans hkept
  | ok files t =>
    obtain ⟨copies, checks, hchecks, htrace, hall, hlast⟩ :=
      gate_trace programs linter scratch files t
    have hqueries : queries = listing ++ checks := queries_of_list_ok hlisting hl hchecks
    rw [hl] at hlist
    rw [hqueries]
    obtain ⟨p, hfits, hcommands⟩ := plan_of_trace hlist htrace
    refine ⟨⟨p, hfits, ?_, fun v s' h hv => ?_⟩, fun v s' h hv => ?_, ?_, ?_,
      fun _ _ h => by cases h⟩
    · rw [hcommands, List.map_append]
      exact (List.prefix_append_right_inj _).2 htrace.commands
    · rw [hcommands, List.map_append]
      rcases run_of_list_ok hl h with ⟨failure, t'', _, hout⟩ | ⟨findings, t'', _, hg, _⟩
      · exact absurd (.inr hout) hv
      · exact congrArg _ (hall findings t'' hg)
    · rcases run_of_list_ok hl h with ⟨failure, t'', hg, _⟩ | ⟨findings, t'', _, _, hverdict⟩
      · obtain ⟨q, hq, hcheckout, hfailed⟩ := hlast failure t'' hg
        refine ⟨q, ?_, .inr hcheckout, hfailed⟩
        rw [List.getLast?_append, hq]
        rfl
      · exact absurd hv (not_isNotice_of_verdict hverdict)
    · intro q hq hlinter
      rcases List.mem_append.1 hq with hq | hq
      · exact absurd hlinter (hno q hq)
      · exact htrace.present q hq hlinter
    · rw [checkouts_append, checkouts_listing hasks, List.nil_append]
      exact htrace.gone

end Hook

end CommitGate
