import CommitGate.Proofs.Answers
import CommitGate.Staged.Listing

/-! What a run learns about the staged files. The commands that ask for them decide it: whether there
is a base to compare with, and what the comparison prints. -/
namespace CommitGate

open Session

namespace Git

variable {programs : Programs} {subcommand : Text} {arguments : List Text} {s s' : Session}

theorem run_ok {output : Text} (h : run programs subcommand arguments s = .ok output s') :
    s' = s.asked programs (command subcommand arguments) ∧
      ∃ c, (s.moment.ask programs (command subcommand arguments)).1 = .completed c ∧
        c.status = 0 ∧ Utf8.read? c.output = some output := by
  rw [run_eq] at h
  cases hm : meaning subcommand (s.moment.ask programs (command subcommand arguments)).1 with
  | error fault => rw [hm] at h; cases h
  | ok out =>
    rw [hm] at h
    cases h
    exact ⟨rfl, meaning_eq_ok hm⟩

theorem run_git {failure : GitFailure}
    (h : run programs subcommand arguments s = .error (.git failure) s') :
    s' = s.asked programs (command subcommand arguments) ∧
      ¬Query.Succeeded programs ⟨command subcommand arguments, s.moment⟩ := by
  rw [run_eq] at h
  cases hm : meaning subcommand (s.moment.ask programs (command subcommand arguments)).1 with
  | ok out => rw [hm] at h; cases h
  | error fault =>
    rw [hm] at h
    cases h
    exact ⟨rfl, not_succeeded_of_meaning hm⟩

end Git

namespace Staged

def pathOf? : Text × Text → Option Text
  | (words, path) =>
    match Text.fields words with
    | [_, mode, _, id, _] => if isSkipped mode id then none else some path
    | _ => none

def listed (listing : Text) : List Text := (records (listing.splitOn fieldEnd)).filterMap pathOf?

theorem select_cons (words path : Text) (rest : List (Text × Text)) :
    (∃ n, select ((words, path) :: rest) = throw (.malformedRecord n)) ∨
      (pathOf? (words, path) = none ∧ ∃ message,
        select ((words, path) :: rest) = record .debug message >>= fun _ => select rest) ∨
      pathOf? (words, path) = some path ∧
        select ((words, path) :: rest) = select rest >>= fun more => pure (path :: more) := by
  rw [pathOf?, select]
  rcases Text.fields words with _ | ⟨_, _ | ⟨mode, _ | ⟨_, _ | ⟨id, _ | ⟨_, _ | _⟩⟩⟩⟩⟩
  case cons.cons.cons.cons.cons.nil =>
    dsimp only
    by_cases hs : isSkipped mode id
    · rw [if_pos hs, if_pos hs]
      exact .inr (.inl ⟨rfl, _, rfl⟩)
    · rw [if_neg hs, if_neg hs]
      exact .inr (.inr ⟨rfl, rfl⟩)
  all_goals exact .inl ⟨_, rfl⟩

theorem select_ok {rows : List (Text × Text)} {s s' : Session} {files : List Text}
    (h : select rows s = .ok files s') :
    files = rows.filterMap pathOf? ∧ ∃ log, s' = { s with log } := by
  induction rows generalizing s files with
  | nil =>
    cases h
    exact ⟨rfl, s'.log, rfl⟩
  | cons row rest ih =>
    rcases select_cons row.1 row.2 rest with ⟨n, hr⟩ | ⟨hp, message, hr⟩ | ⟨hp, hr⟩
    · rw [hr] at h
      cases h
    · rw [hr] at h
      obtain ⟨_, t, hm, ht⟩ := bind_eq_ok.1 h
      cases hm
      obtain ⟨rfl, log, rfl⟩ := ih ht
      exact ⟨by rw [List.filterMap_cons_none hp], log, rfl⟩
    · rw [hr] at h
      obtain ⟨more, t, hm, ht⟩ := bind_eq_ok.1 h
      cases ht
      obtain ⟨rfl, log, rfl⟩ := ih hm
      exact ⟨by rw [List.filterMap_cons_some hp], log, rfl⟩

theorem select_error {rows : List (Text × Text)} {s s' : Session} {fault : Fault}
    (h : select rows s = .error fault s') : ∃ n, fault = .malformedRecord n := by
  induction rows generalizing s with
  | nil => cases h
  | cons row rest ih =>
    rcases select_cons row.1 row.2 rest with ⟨n, hr⟩ | ⟨_, message, hr⟩ | ⟨_, hr⟩
    · rw [hr] at h
      cases h
      exact ⟨n, rfl⟩
    · rw [hr] at h
      rcases bind_eq_error.1 h with hm | ⟨_, t, hm, ht⟩
      · cases hm
      · exact ih ht
    · rw [hr] at h
      rcases bind_eq_error.1 h with hm | ⟨_, t, hm, ht⟩
      · exact ih hm
      · cases ht

def headWord : Text := "rev-parse".toList
def emptyTreeWord : Text := "hash-object".toList
def comparisonWord : Text := "diff-index".toList

def AsksBase (q : Query) : Prop := q.Asks headWord ∨ q.Asks emptyTreeWord

def AsksListing (q : Query) : Prop := AsksBase q ∨ q.Asks comparisonWord

/-- The comparison has succeeded and gives these files. -/
def Lists (programs : Programs) (q : Query) (files : List Text) : Prop :=
  ∃ c listing, q.response programs = .completed c ∧ c.status = 0 ∧
    Utf8.read? c.output = some listing ∧ files = listed listing

/-- Some base was found, and the comparison gave these files. -/
def Listed (programs : Programs) (queries : List Query) (files : List Text) : Prop :=
  (∃ q ∈ queries, AsksBase q ∧ q.Succeeded programs) ∧
    ∃ q ∈ queries, q.Asks comparisonWord ∧ Lists programs q files

theorem listed_append {programs : Programs} {queries others : List Query} {files : List Text}
    (h : ∀ q ∈ others, ¬AsksListing q) :
    Listed programs (queries ++ others) files ↔ Listed programs queries files := by
  have hb : ∀ q ∈ others, ¬AsksBase q := fun q hq ha => h q hq (.inl ha)
  have hc : ∀ q ∈ others, ¬q.Asks comparisonWord := fun q hq ha => h q hq (.inr ha)
  constructor
  · rintro ⟨⟨q, hq, ha, hs⟩, q', hq', ha', hl⟩
    refine ⟨⟨q, (List.mem_append.1 hq).resolve_right fun hm => hb q hm ha, ha, hs⟩, q', ?_, ha', hl⟩
    exact (List.mem_append.1 hq').resolve_right fun hm => hc q' hm ha'
  · rintro ⟨⟨q, hq, ha, hs⟩, q', hq', ha', hl⟩
    exact ⟨⟨q, List.mem_append_left _ hq, ha, hs⟩, q', List.mem_append_left _ hq', ha', hl⟩

theorem not_comparison_of_asksBase {q : Query} (h : AsksBase q) : ¬q.Asks comparisonWord := by
  intro hc
  rcases h with h | h
  · exact absurd (h.unique hc) (by decide)
  · exact absurd (h.unique hc) (by decide)

theorem eq_last_of_comparison {queries : List Query} {last q : Query}
    (hasks : ∀ q ∈ queries, AsksBase q) (hq : q ∈ queries ++ [last]) (h : q.Asks comparisonWord) :
    q = last := by
  rcases List.mem_append.1 hq with hq | hq
  · exact absurd h (not_comparison_of_asksBase (hasks q hq))
  · exact List.mem_singleton.1 hq

variable {programs : Programs} {s s' : Session}

theorem diffBase_ok {base : Text} (h : Git.diffBase programs s = .ok base s') :
    ∃ queries, Ran s s' queries ∧ (∀ q ∈ queries, AsksBase q) ∧
      ∃ q ∈ queries, q.Succeeded programs := by
  obtain ⟨r, t, ht, h⟩ := bind_eq_ok.1 h
  have first := ran_asked programs
    (Git.command headWord ["--verify".toList, "-q".toList, Git.head]) s
  rcases attempt_eq_ok ht with ⟨out, rfl, hr⟩ | ⟨failure, rfl, hr⟩
  · cases h
    obtain ⟨rfl, c, hc, hz, _⟩ := Git.run_ok hr
    refine ⟨_, first, ?_, _, List.mem_singleton_self _, c, hc, hz⟩
    exact List.forall_mem_singleton.2 (.inl rfl)
  · obtain ⟨rfl, _⟩ := Git.run_git hr
    obtain ⟨id, t', hr', hp⟩ := bind_eq_ok.1 h
    cases hp
    obtain ⟨rfl, c, hc, hz, _⟩ := Git.run_ok hr'
    refine ⟨_, first.trans (ran_asked programs _ _), ?_, _,
      List.mem_append_right _ (List.mem_singleton_self _), c, hc, hz⟩
    exact List.forall_mem_append.2
      ⟨List.forall_mem_singleton.2 (.inl rfl), List.forall_mem_singleton.2 (.inr rfl)⟩

theorem diffBase_git {failure : GitFailure}
    (h : Git.diffBase programs s = .error (.git failure) s') :
    ∃ queries, Ran s s' queries ∧ (∀ q ∈ queries, AsksBase q) ∧
      ∀ q ∈ queries, ¬q.Succeeded programs := by
  rcases bind_eq_error.1 h with h | ⟨r, t, ht, h⟩
  · exact absurd rfl ((attempt_eq_error h).2 failure)
  rcases attempt_eq_ok ht with ⟨out, rfl, hr⟩ | ⟨failure', rfl, hr⟩
  · cases h
  obtain ⟨rfl, no⟩ := Git.run_git hr
  rcases bind_eq_error.1 h with hr' | ⟨id, t', hr', hp⟩
  · obtain ⟨rfl, no'⟩ := Git.run_git hr'
    refine ⟨_, (ran_asked programs _ _).trans (ran_asked programs _ _), ?_, ?_⟩
    · exact List.forall_mem_append.2
        ⟨List.forall_mem_singleton.2 (.inl rfl), List.forall_mem_singleton.2 (.inr rfl)⟩
    · exact List.forall_mem_append.2
        ⟨List.forall_mem_singleton.2 no, List.forall_mem_singleton.2 no'⟩
  · cases hp

/-- The list is the one that the queries give, and no other. -/
theorem list_ok {files : List Text} (h : list programs s = .ok files s') :
    ∃ queries, Ran s s' queries ∧ (∀ q ∈ queries, AsksListing q) ∧
      ∀ files', Listed programs queries files' ↔ files' = files := by
  obtain ⟨base, t, hb, h⟩ := bind_eq_ok.1 h
  obtain ⟨listing, t', hl, hs⟩ := bind_eq_ok.1 h
  obtain ⟨queries, hran, hasks, q, hq, hsucc⟩ := diffBase_ok hb
  obtain ⟨rfl, c, hc, hz, hread⟩ := Git.run_ok hl
  obtain ⟨rfl, log, rfl⟩ := select_ok hs
  refine ⟨_, hran.trans (ran_asked programs _ _), ?_, ?_⟩
  · exact List.forall_mem_append.2
      ⟨fun q' hq' => .inl (hasks q' hq'), List.forall_mem_singleton.2 (.inr rfl)⟩
  · intro files'
    constructor
    · rintro ⟨_, q', hq', ha', c', listing', hc', _, hread', rfl⟩
      obtain rfl := eq_last_of_comparison hasks hq' ha'
      obtain rfl : c = c' := Response.completed.inj (hc.symm.trans hc')
      rw [Option.some.inj (hread.symm.trans hread')]
      rfl
    · rintro rfl
      exact ⟨⟨q, List.mem_append_left _ hq, hasks q hq, hsucc⟩, _,
        List.mem_append_right _ (List.mem_singleton_self _), rfl, c, listing, hc, hz, hread, rfl⟩

theorem list_git {failure : GitFailure} (h : list programs s = .error (.git failure) s') :
    ∃ queries, Ran s s' queries ∧ (∀ q ∈ queries, AsksListing q) ∧
      ∀ files, ¬Listed programs queries files := by
  rcases bind_eq_error.1 h with hb | ⟨base, t, hb, h⟩
  · obtain ⟨queries, hran, hasks, no⟩ := diffBase_git hb
    refine ⟨queries, hran, fun q hq => .inl (hasks q hq), ?_⟩
    rintro files ⟨⟨q, hq, _, hs⟩, _⟩
    exact no q hq hs
  obtain ⟨queries, hran, hasks, _⟩ := diffBase_ok hb
  rcases bind_eq_error.1 h with hl | ⟨listing, t', hl, hs⟩
  · obtain ⟨rfl, no⟩ := Git.run_git hl
    refine ⟨_, hran.trans (ran_asked programs _ _), ?_, ?_⟩
    · exact List.forall_mem_append.2
        ⟨fun q' hq' => .inl (hasks q' hq'), List.forall_mem_singleton.2 (.inr rfl)⟩
    · rintro files ⟨_, q', hq', ha', c, listing, hc, hz, _⟩
      obtain rfl := eq_last_of_comparison hasks hq' ha'
      exact no ⟨c, hc, hz⟩
  · obtain ⟨n, hn⟩ := select_error hs
    cases hn

end Staged

end CommitGate
