import CommitGate.Proofs.Records

/-! The listing of the staged files as a run of its own. Up to three git commands are run, and which
come after the first goes by the responses; however the listing ends, the files stay as they are. -/
namespace CommitGate

open Session

namespace Staged

def headQuery (s : Session) : Query := ⟨headCommand, s.moment⟩

def emptyTreeQuery (programs : Programs) (s : Session) : Query :=
  ⟨emptyTreeCommand, (headQuery s).after programs⟩

def comparisonQuery (base : Text) (t : Session) : Query := ⟨comparisonCommand base, t.moment⟩

variable {programs : Programs} {s s' t : Session} {base : Text}

/-- What a run has asked by the time that it has found a base. -/
inductive BaseAsked (programs : Programs) (s : Session) : Text → List Query → Prop where
  | lastCommit : (headQuery s).Succeeded programs → BaseAsked programs s Git.head [headQuery s]
  | emptyTree {failure : GitFailure} {id : Text} :
      Git.meaning headWord ((headQuery s).response programs) = .error (.git failure) →
      Git.meaning emptyTreeWord ((emptyTreeQuery programs s).response programs) = .ok id →
      BaseAsked programs s (Text.trim id) [headQuery s, emptyTreeQuery programs s]

theorem FindsBase.asked (h : FindsBase programs s base t) :
    t.tree = s.tree ∧ ∃ queries, Ran s t queries ∧ BaseAsked programs s base queries := by
  have first := ran_asked programs headCommand s
  have hhead : (s.asked programs headCommand).tree = s.tree := tree_asked (by decide) programs s
  cases h with
  | lastCommit output hm =>
    exact ⟨hhead, _, first, .lastCommit (Git.succeeded_of_meaning hm)⟩
  | emptyTree failure id hm hid =>
    have second := ran_asked programs emptyTreeCommand (s.asked programs headCommand)
    have hempty : ((s.asked programs headCommand).asked programs emptyTreeCommand).tree =
        (s.asked programs headCommand).tree := tree_asked (by decide) programs _
    exact ⟨hempty.trans hhead, _, first.trans second, .emptyTree hm hid⟩

theorem select_ending (rows : List (Text × Text)) (s : Session) :
    ∃ log, ending (select rows s) = { s with log } := by
  induction rows generalizing s with
  | nil => exact ⟨s.log, rfl⟩
  | cons row rest ih =>
    rcases select_cons row.1 row.2 rest with ⟨n, hr⟩ | ⟨_, message, hr⟩ | ⟨_, hr⟩
    · rw [hr]
      exact ⟨s.log, rfl⟩
    · rw [hr]
      exact ih _
    · rw [hr]
      obtain ⟨log, he⟩ := ih s
      cases hs : select rest s with
      | ok more t =>
        rw [bind_of_ok hs]
        rw [hs] at he
        exact ⟨log, he⟩
      | error fault t =>
        rw [bind_of_error hs]
        rw [hs] at he
        exact ⟨log, he⟩

theorem list_eq (h : FindsBase programs s base t) :
    list programs s =
      match Git.meaning comparisonWord ((comparisonQuery base t).response programs) with
      | .error fault => .error fault (t.asked programs (comparisonCommand base))
      | .ok listing => select (records (listing.splitOn fieldEnd))
          (t.asked programs (comparisonCommand base)) := by
  have hrun := Git.run_eq programs comparisonWord
    [base, "--cached".toList, "-z".toList, "--diff-filter=d".toList] t
  change _ = outcome (Git.meaning comparisonWord ((comparisonQuery base t).response programs))
    (t.asked programs (comparisonCommand base)) at hrun
  rw [list, bind_of_ok h.diffBase]
  cases hm : Git.meaning comparisonWord ((comparisonQuery base t).response programs) with
  | error fault =>
    rw [hm] at hrun
    exact bind_of_error hrun
  | ok listing =>
    rw [hm] at hrun
    exact bind_of_ok hrun

theorem base_cases (programs : Programs) (s : Session) :
    (∃ base t, FindsBase programs s base t) ∨
      (Git.meaning headWord ((headQuery s).response programs) = .error .undecodableOutput ∧
        list programs s = .error .undecodableOutput (s.asked programs headCommand)) ∨
      ∃ failure fault,
        Git.meaning headWord ((headQuery s).response programs) = .error (.git failure) ∧
        Git.meaning emptyTreeWord ((emptyTreeQuery programs s).response programs) = .error fault ∧
        list programs s =
          .error fault ((s.asked programs headCommand).asked programs emptyTreeCommand) := by
  have hhead := Git.run_eq programs headWord ["--verify".toList, "-q".toList, Git.head] s
  change _ = outcome (Git.meaning headWord ((headQuery s).response programs))
    (s.asked programs headCommand) at hhead
  have hempty := Git.run_eq programs emptyTreeWord ["-t".toList, "tree".toList, "/dev/null".toList]
    (s.asked programs headCommand)
  change _ = outcome (Git.meaning emptyTreeWord ((emptyTreeQuery programs s).response programs))
    ((s.asked programs headCommand).asked programs emptyTreeCommand) at hempty
  rcases Git.meaning_cases headWord ((headQuery s).response programs) with
    ⟨_, output, hm, _⟩ | ⟨_, failure, hm, _⟩ | ⟨_, hm⟩
  · exact .inl ⟨_, _, .lastCommit output hm⟩
  · rw [hm] at hhead
    cases hm' : Git.meaning emptyTreeWord ((emptyTreeQuery programs s).response programs) with
    | ok id => exact .inl ⟨_, _, .emptyTree failure id hm hm'⟩
    | error fault =>
      rw [hm'] at hempty
      refine .inr (.inr ⟨failure, fault, hm, rfl, ?_⟩)
      exact bind_of_error ((bind_of_ok (attempt_of_git hhead)).trans (bind_of_error hempty))
  · rw [hm] at hhead
    have hattempt := attempt_of_error hhead fun _ h => Fault.noConfusion h
    exact .inr (.inl ⟨hm, bind_of_error (bind_of_error hattempt)⟩)

/-- How the listing of the staged files may go: the queries that it makes, and its end. -/
inductive ListRun (programs : Programs) (s : Session) :
    List Query → EStateM.Result Fault Session (List Text) → Prop where
  | noHead {s' : Session} :
      Git.meaning headWord ((headQuery s).response programs) = .error .undecodableOutput →
      ListRun programs s [headQuery s] (.error .undecodableOutput s')
  | noEmptyTree {failure : GitFailure} {fault : Fault} {s' : Session} :
      Git.meaning headWord ((headQuery s).response programs) = .error (.git failure) →
      Git.meaning emptyTreeWord ((emptyTreeQuery programs s).response programs) = .error fault →
      ListRun programs s [headQuery s, emptyTreeQuery programs s] (.error fault s')
  | noComparison {base : Text} {t s' : Session} {asked : List Query} {fault : Fault} :
      BaseAsked programs s base asked →
      Git.meaning comparisonWord ((comparisonQuery base t).response programs) = .error fault →
      ListRun programs s (asked ++ [comparisonQuery base t]) (.error fault s')
  | malformed {base listing : Text} {t s' : Session} {asked : List Query} {n : Nat} :
      BaseAsked programs s base asked →
      Git.meaning comparisonWord ((comparisonQuery base t).response programs) = .ok listing →
      ListRun programs s (asked ++ [comparisonQuery base t]) (.error (.malformedRecord n) s')
  | through {base listing : Text} {t s' : Session} {asked : List Query} :
      BaseAsked programs s base asked →
      Git.meaning comparisonWord ((comparisonQuery base t).response programs) = .ok listing →
      ListRun programs s (asked ++ [comparisonQuery base t]) (.ok (listed listing) s')

theorem list_run (programs : Programs) (s : Session) :
    ∃ queries, Ran s (ending (list programs s)) queries ∧
      ListRun programs s queries (list programs s) := by
  have first := ran_asked programs headCommand s
  rcases base_cases programs s with ⟨base, t, hbase⟩ | ⟨hm, he⟩ | ⟨failure, fault, hm, hm', he⟩
  · obtain ⟨_, queries, hran, hasked⟩ := hbase.asked
    have hran' := hran.trans (ran_asked programs (comparisonCommand base) t)
    rw [list_eq hbase]
    cases hm : Git.meaning comparisonWord ((comparisonQuery base t).response programs) with
    | error fault => exact ⟨_, hran', .noComparison hasked hm⟩
    | ok listing =>
      dsimp only
      obtain ⟨log, hend⟩ := select_ending (records (listing.splitOn fieldEnd))
        (t.asked programs (comparisonCommand base))
      refine ⟨queries ++ [comparisonQuery base t], ?_, ?_⟩
      · rw [hend]
        exact hran'
      · cases hs : select (records (listing.splitOn fieldEnd))
            (t.asked programs (comparisonCommand base)) with
        | ok files s' =>
          obtain ⟨rfl, _⟩ := select_ok hs
          exact .through hasked hm
        | error fault s' =>
          obtain ⟨n, rfl⟩ := select_error hs
          exact .malformed hasked hm
  · rw [he]
    exact ⟨_, first, .noHead hm⟩
  · rw [he]
    exact ⟨_, first.trans (ran_asked programs emptyTreeCommand _), .noEmptyTree hm hm'⟩

theorem list_keeps_tree (programs : Programs) (s : Session) :
    (ending (list programs s)).tree = s.tree := by
  have hhead : (s.asked programs headCommand).tree = s.tree := tree_asked (by decide) programs s
  rcases base_cases programs s with ⟨base, t, hbase⟩ | ⟨_, he⟩ | ⟨_, fault, _, _, he⟩
  · have hnone : (comparisonCommand base).checkoutTarget? = none :=
      if_neg (show some comparisonWord ≠ some Command.checkoutWord by decide)
    have hcomparison := tree_asked hnone programs t
    rw [list_eq hbase, ← hbase.asked.1, ← hcomparison]
    split
    · rfl
    · obtain ⟨log, hend⟩ := select_ending (records _) (t.asked programs (comparisonCommand base))
      rw [hend]
  · rw [he]
    exact hhead
  · rw [he]
    have hempty : ((s.asked programs headCommand).asked programs emptyTreeCommand).tree =
        (s.asked programs headCommand).tree := tree_asked (by decide) programs _
    exact hempty.trans hhead

end Staged

end CommitGate
