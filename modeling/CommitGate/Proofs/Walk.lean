import CommitGate.Proofs.Independence
import CommitGate.Proofs.LintRecords

/-! A run of the gate as one walk over the files that are due. A walk either comes to the end of its
list or stops in one inspection, with the files before it done; and what the inspection of a file asks
for is known from the file, its checkout, and whether the copy can be read. -/
namespace CommitGate

open Session

namespace Gate

open Check

/-- The files that a run inspects, the PHP files first. -/
def agenda (files : List Text) : List Text := due phpExtensions files ++ due scriptExtensions files

def checkFor (programs : Programs) (linter : Linter) (path : Text) : Path → Action Unit :=
  if hasExtension phpExtensions path then php programs linter path else script path

variable {programs : Programs} {linter : Linter} {scratch copy : Path} {path : Text}
  {files paths : List Text} {s s' t : Session} {fault : Fault}

theorem checkFor_php (programs : Programs) (linter : Linter)
    (h : hasExtension phpExtensions path) : checkFor programs linter path = php programs linter path :=
  if_pos h

theorem checkFor_script (programs : Programs) (linter : Linter)
    (h : ¬hasExtension phpExtensions path) : checkFor programs linter path = script path :=
  if_neg h

theorem checkFor_settles (programs : Programs) (linter : Linter) (path : Text) :
    ∃ Clean, ∀ copy s, Settles Clean copy s (checkFor programs linter path copy s) := by
  by_cases hphp : hasExtension phpExtensions path
  · rw [checkFor_php programs linter hphp]
    exact ⟨_, php_settles programs linter path⟩
  · rw [checkFor_script programs linter hphp]
    exact ⟨_, script_settles path⟩

theorem mem_agenda {files : List Text} : path ∈ agenda files ↔ path ∈ files ∧ IsDue path := by
  simp only [agenda, due, List.mem_append, List.mem_filter, IsDue]
  tauto

theorem forM_inspect_congr {check check' : Text → Path → Action Unit}
    (h : ∀ path ∈ paths, check path = check' path) :
    paths.forM (inspect programs scratch check) = paths.forM (inspect programs scratch check') := by
  induction paths with
  | nil => rfl
  | cons path rest ih =>
    obtain ⟨hpath, hrest⟩ := List.forall_mem_cons.1 h
    change (inspect programs scratch check path >>= fun _ => _) =
      inspect programs scratch check' path >>= _
    rw [ih hrest, inspect, inspect, hpath]

theorem run_eq_forM {s₀ : Session} (h : prepare scratch s = .ok () s₀) :
    run programs linter scratch files s =
      ((agenda files).forM (inspect programs scratch (checkFor programs linter)) >>= fun _ =>
        get >>= fun t => pure t.findings) { s₀ with findings := Findings.fresh scratch } := by
  have hphp : checkEach programs scratch phpExtensions (php programs linter) files =
      (due phpExtensions files).forM (inspect programs scratch (checkFor programs linter)) := by
    funext t
    rw [checkEach_eq_forM]
    refine congrFun (forM_inspect_congr fun path hp => ?_) t
    exact (checkFor_php programs linter (List.mem_filter.1 hp).2).symm
  have hscripts : checkEach programs scratch scriptExtensions script files =
      (due scriptExtensions files).forM (inspect programs scratch (checkFor programs linter)) := by
    funext t
    rw [checkEach_eq_forM]
    refine congrFun (forM_inspect_congr fun path hp => ?_) t
    refine (checkFor_script programs linter fun hphp => ?_).symm
    exact not_script_of_php hphp (List.mem_filter.1 hp).2
  have happend : (agenda files).forM (inspect programs scratch (checkFor programs linter)) =
      (due phpExtensions files).forM (inspect programs scratch (checkFor programs linter)) >>= fun _ =>
        (due scriptExtensions files).forM (inspect programs scratch (checkFor programs linter)) :=
    List.forM_append
  rw [run_of_prepare h, hphp, hscripts, happend, bind_assoc]

/-- Inspections that have led from one session to another, by the files and the queries that checked
them out. -/
inductive Walked (programs : Programs) (linter : Linter) (scratch : Path) (s : Session) :
    List (Text × Query) → Session → Prop where
  | start : Walked programs linter scratch s [] s
  | next {rows : List (Text × Query)} {path : Text} {t t' : Session} :
      Walked programs linter scratch s rows t →
      inspect programs scratch (checkFor programs linter) path t = .ok () t' →
      Walked programs linter scratch s (rows ++ [(path, checkoutQuery scratch path t)]) t'

/-- A walk goes on to the end of its list, or to an inspection that ends in a fault. -/
theorem Walked.forM_cases {rows : List (Text × Query)}
    (h : Walked programs linter scratch s rows t) (paths : List Text) :
    (∃ more t', paths.forM (inspect programs scratch (checkFor programs linter)) t = .ok () t' ∧
        more.map Prod.fst = paths ∧ Walked programs linter scratch s (rows ++ more) t') ∨
      ∃ more path rest t₁ fault t',
        paths.forM (inspect programs scratch (checkFor programs linter)) t = .error fault t' ∧
        paths = more.map Prod.fst ++ path :: rest ∧
        Walked programs linter scratch s (rows ++ more) t₁ ∧
        inspect programs scratch (checkFor programs linter) path t₁ = .error fault t' := by
  induction paths generalizing rows t with
  | nil => exact .inl ⟨[], t, rfl, rfl, by rwa [List.append_nil]⟩
  | cons path rest ih =>
    cases hi : inspect programs scratch (checkFor programs linter) path t with
    | error fault t' =>
      refine .inr ⟨[], path, rest, t, fault, t', bind_of_error hi, rfl, ?_, hi⟩
      rwa [List.append_nil]
    | ok _ t₁ =>
      have hfirst : (path :: rest).forM (inspect programs scratch (checkFor programs linter)) t =
          rest.forM (inspect programs scratch (checkFor programs linter)) t₁ := bind_of_ok hi
      rw [hfirst]
      rcases ih (h.next hi) with ⟨more, t', hend, hpaths, hwalk⟩ |
        ⟨more, path', rest', t₂, fault, t', hend, hpaths, hwalk, hstop⟩
      · refine .inl ⟨(path, checkoutQuery scratch path t) :: more, t', hend, ?_, ?_⟩
        · rw [List.map_cons, hpaths]
        · rwa [List.append_assoc] at hwalk
      · refine .inr ⟨(path, checkoutQuery scratch path t) :: more, path', rest', t₂, fault, t', hend,
          ?_, ?_, hstop⟩
        · rw [List.map_cons, List.cons_append, hpaths]
        · rwa [List.append_assoc] at hwalk

/-- How a run of the gate may go: it is not prepared, it walks through, or it stops at a file. -/
inductive GateRun (programs : Programs) (linter : Linter) (scratch : Path) (files : List Text)
    (s : Session) : EStateM.Result Fault Session Findings → Prop where
  | unprepared {refusal : FileFault} {tree : FileTree} :
      prepare scratch s = .error (.file refusal) { s with tree } →
      GateRun programs linter scratch files s (.error (.file refusal) { s with tree })
  | through {s₀ s' : Session} {rows : List (Text × Query)} :
      prepare scratch s = .ok () s₀ →
      Walked programs linter scratch { s₀ with findings := Findings.fresh scratch } rows s' →
      rows.map Prod.fst = agenda files →
      GateRun programs linter scratch files s (.ok s'.findings s')
  | stopped {s₀ t s' : Session} {rows : List (Text × Query)} {path : Text} {rest : List Text}
      {fault : Fault} :
      prepare scratch s = .ok () s₀ →
      Walked programs linter scratch { s₀ with findings := Findings.fresh scratch } rows t →
      agenda files = rows.map Prod.fst ++ path :: rest →
      inspect programs scratch (checkFor programs linter) path t = .error fault s' →
      GateRun programs linter scratch files s (.error fault s')

theorem gate_run (programs : Programs) (linter : Linter) (scratch : Path) (files : List Text)
    (s : Session) :
    GateRun programs linter scratch files s (run programs linter scratch files s) := by
  rcases prepare_cases scratch s with ⟨tree, h⟩ | ⟨refusal, tree, h⟩
  · rw [run_eq_forM h]
    have hstart : Walked programs linter scratch
        { s with tree, findings := Findings.fresh scratch } [] _ := .start
    rcases hstart.forM_cases (agenda files) with ⟨rows, t', hend, hpaths, hwalk⟩ |
      ⟨rows, path, rest, t, fault, t', hend, hpaths, hwalk, hstop⟩
    · rw [bind_of_ok hend]
      exact .through h hwalk hpaths
    · rw [bind_of_error hend]
      exact .stopped h hwalk hpaths hstop
  · rw [run, bind_of_error h]
    exact .unprepared h

def linterQueries (programs : Programs) (linter : Linter) (path : Text) (copy : Path) (m : Moment) :
    List Query :=
  if hasExtension phpExtensions path ∧ (m.tree.read copy.toText).isOk then
    [⟨linter.stripCommand copy, m⟩,
      ⟨linter.lintCommand copy, (m.ask programs (linter.stripCommand copy)).2⟩]
  else []

theorem linterQueries_readable {content : Bytes} (hphp : hasExtension phpExtensions path)
    (hr : s.tree.read copy.toText = .ok content) :
    linterQueries programs linter path copy s.moment =
      [stripQuery linter copy s, lintQuery programs linter copy s] := by
  refine if_pos ⟨hphp, ?_⟩
  change (s.tree.read copy.toText).isOk
  rw [hr]
  rfl

theorem checkFor_asks (programs : Programs) (linter : Linter) (path : Text) (copy : Path)
    (s : Session) :
    ∃ queries, Ran s (ending (checkFor programs linter path copy s)) queries ∧
      queries <+: linterQueries programs linter path copy s.moment ∧
      ∀ s', checkFor programs linter path copy s = .ok () s' →
        queries = linterQueries programs linter path copy s.moment := by
  by_cases hphp : hasExtension phpExtensions path
  · rw [checkFor_php programs linter hphp]
    obtain ⟨queries, hran, hrun⟩ := php_run programs linter path copy s
    refine ⟨queries, hran, ?_⟩
    generalize php programs linter path copy s = r at hrun
    cases hrun with
    | unreadable hr _ =>
      have hnone : linterQueries programs linter path copy s.moment = [] := by
        refine if_neg fun h => ?_
        have hread := h.2
        change (s.tree.read copy.toText).isOk at hread
        rw [hr] at hread
        cases hread
      exact ⟨List.nil_prefix, fun _ _ => hnone.symm⟩
    | noStrip hr _ _ =>
      rw [linterQueries_readable hphp hr]
      exact ⟨List.prefix_append [_] [_], fun _ h => by cases h⟩
    | noLint hr _ _ _ | noLog hr _ _ _ _ =>
      rw [linterQueries_readable hphp hr]
      exact ⟨List.prefix_refl _, fun _ h => by cases h⟩
    | through hr _ _ _ _ =>
      rw [linterQueries_readable hphp hr]
      exact ⟨List.prefix_refl _, fun _ _ => rfl⟩
  · have hnone : linterQueries programs linter path copy s.moment = [] :=
      if_neg fun h => hphp h.1
    rw [checkFor_script programs linter hphp, hnone]
    refine ⟨[], ?_, List.prefix_refl _, fun _ _ => rfl⟩
    cases hr : s.tree.read copy.toText with
    | error fault =>
      obtain ⟨log, he⟩ := script_unreadable path hr
      rw [he]
      exact Ran.none rfl
    | ok content =>
      rw [script_readable path hr]
      exact Ran.none rfl

def rowQueries (programs : Programs) (linter : Linter) (scratch : Path) (x : Text × Query) :
    List Query :=
  x.2 :: linterQueries programs linter x.1 (scratch.child x.1) (x.2.after programs)

theorem remove_invocations (copy scratch : Path) (s : Session) :
    (ending (Staged.remove copy scratch s)).invocations = s.invocations := by
  rcases Staged.remove_cases copy scratch s with ⟨tree, he⟩ | ⟨fault, he⟩
  · rw [he]
    rfl
  · rw [he]
    rfl

theorem inspect_queries (programs : Programs) (linter : Linter) (scratch : Path) (path : Text)
    (s : Session) :
    ∃ queries, Ran s (ending (inspect programs scratch (checkFor programs linter) path s))
        (checkoutQuery scratch path s :: queries) ∧
      checkoutQuery scratch path s :: queries <+:
        rowQueries programs linter scratch (path, checkoutQuery scratch path s) ∧
      ∀ s', inspect programs scratch (checkFor programs linter) path s = .ok () s' →
        checkoutQuery scratch path s :: queries =
          rowQueries programs linter scratch (path, checkoutQuery scratch path s) := by
  obtain ⟨u, _, hmoment, hran, he⟩ :=
    inspect_eq programs scratch (checkFor programs linter) path s
  rw [he, rowQueries, ← hmoment]
  split
  · refine ⟨[], hran, ?_, fun _ h => by cases h⟩
    exact (List.prefix_cons_inj _).2 List.nil_prefix
  · obtain ⟨queries, hran', hprefix, hall⟩ :=
      checkFor_asks programs linter path (scratch.child path) u
    refine ⟨queries, ?_, (List.prefix_cons_inj _).2 hprefix, fun s' h => ?_⟩
    · exact hran.trans (ran_thenAlways hran' fun t => remove_invocations _ _ t)
    · obtain ⟨t, hcheck, _⟩ := thenAlways_eq_ok h
      exact congrArg _ (hall t hcheck)

theorem Walked.ran {rows : List (Text × Query)} (h : Walked programs linter scratch s rows t) :
    Ran s t (rows.flatMap (rowQueries programs linter scratch)) := by
  induction h with
  | start => exact Ran.none rfl
  | next _ hi ih =>
    obtain ⟨queries, hran, _, hall⟩ := inspect_queries programs linter scratch _ _
    rw [hi] at hran
    rw [hall _ hi] at hran
    rw [List.flatMap_append, List.flatMap_singleton]
    exact ih.trans hran

theorem Walked.ran_prepared {s₀ : Session} {rows : List (Text × Query)}
    (h : Walked programs linter scratch { s₀ with findings := Findings.fresh scratch } rows t)
    (hprepare : prepare scratch s = .ok () s₀) :
    Ran s t (rows.flatMap (rowQueries programs linter scratch)) :=
  (ran_prepare hprepare _).trans h.ran

theorem Walked.ran_stopped {s₀ : Session} {rows : List (Text × Query)}
    (h : Walked programs linter scratch { s₀ with findings := Findings.fresh scratch } rows t)
    (hprepare : prepare scratch s = .ok () s₀)
    (hstop : inspect programs scratch (checkFor programs linter) path t = .error fault s') :
    ∃ part, Ran t s' (checkoutQuery scratch path t :: part) ∧
      Ran s s' (rows.flatMap (rowQueries programs linter scratch) ++
        checkoutQuery scratch path t :: part) ∧
      checkoutQuery scratch path t :: part <+:
        rowQueries programs linter scratch (path, checkoutQuery scratch path t) := by
  obtain ⟨part, hran, hprefix, _⟩ := inspect_queries programs linter scratch path t
  rw [hstop] at hran
  exact ⟨part, hran, (h.ran_prepared hprepare).trans hran, hprefix⟩

theorem Walked.checkout {rows : List (Text × Query)} (h : Walked programs linter scratch s rows t) :
    ∀ x ∈ rows, x.2.command = Staged.checkoutCommand scratch x.1 := by
  induction h with
  | start => simp
  | next _ _ ih =>
    refine List.forall_mem_append.2 ⟨ih, ?_⟩
    exact List.forall_mem_singleton.2 rfl

theorem linterQueries_asks {q : Query} {m : Moment}
    (h : q ∈ linterQueries programs linter path copy m) : AsksLinter q := by
  rw [linterQueries] at h
  split at h
  · rcases List.mem_cons.1 h with rfl | h
    · exact .inl rfl
    · rw [List.mem_singleton.1 h]
      exact .inr rfl
  · cases h

theorem checkouts_rowQueries {x : Text × Query}
    (h : x.2.command = Staged.checkoutCommand scratch x.1) :
    checkouts (rowQueries programs linter scratch x) = [x.2] := by
  have hasks : x.2.Asks Command.checkoutWord := by
    rw [Query.Asks, h]
    rfl
  rw [rowQueries, checkouts, List.filter_cons_of_pos (by simpa using hasks)]
  exact congrArg _ (checkouts_linter fun q hq => linterQueries_asks hq)

theorem checkouts_rows {rows : List (Text × Query)}
    (h : ∀ x ∈ rows, x.2.command = Staged.checkoutCommand scratch x.1) :
    checkouts (rows.flatMap (rowQueries programs linter scratch)) = rows.map Prod.snd := by
  induction rows with
  | nil => rfl
  | cons x rest ih =>
    obtain ⟨hx, hrest⟩ := List.forall_mem_cons.1 h
    rw [List.flatMap_cons, checkouts_append, checkouts_rowQueries hx, ih hrest]
    rfl

end Gate

end CommitGate
