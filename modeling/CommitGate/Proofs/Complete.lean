import CommitGate.Proofs.Gate
import CommitGate.Proofs.Report
import CommitGate.Proofs.Tolerance
import CommitGate.Proofs.Verdict

/-! Runs of the gate that come to their end. When every checkout succeeds and leaves a regular file,
nothing but an intolerable response of the linter stops a run, and a run that is not stopped has
checked each file that is due. -/
namespace CommitGate

open Session

theorem Session.ran_thenAlways {first : Action α} {second : Action Unit} {s : Session}
    {queries : List Query} (h : Ran s (ending (first s)) queries)
    (hsecond : ∀ t, (ending (second t)).invocations = t.invocations) :
    Ran s (ending (thenAlways first second s)) queries := by
  have hend : ending (thenAlways first second s) = ending (second (ending (first s))) := by
    rw [thenAlways]
    cases first s with
    | ok a t =>
      dsimp only [ending]
      cases second t <;> rfl
    | error fault t =>
      dsimp only [ending]
      cases second t <;> rfl
  rw [hend]
  simpa using h.trans (Ran.none (hsecond _))

namespace Gate

open Check

variable {programs : Programs} {scratch : Path} {extensions : List Text}
  {check : Text → Path → Action Unit} {asked : Path → List Command}
  {found : Text → Path → Moment → Findings → Findings}

def checkedPath (q : Query) : Text := q.command.getLast?.getD []

theorem checkedPath_checkout {q : Query} {path : Text}
    (h : q.command = Staged.checkoutCommand scratch path) : checkedPath q = path := by
  rw [checkedPath, h]
  rfl

/-- A checkout has succeeded and left a regular file where the copy belongs. -/
structure ChecksOut (programs : Programs) (scratch : Path) (q : Query) : Prop where
  succeeded : (Git.meaning Command.checkoutWord (q.response programs)).isOk
  regular : ((q.after programs).tree.read (scratch.child (checkedPath q)).toText).isOk

/-- Such a checkout is in order if it has not taken the lint log away. -/
structure InOrder (programs : Programs) (scratch : Path) (q : Query) : Prop
    extends ChecksOut programs scratch q where
  log : q.moment.tree.IsFile (scratch.child lintLogName).key →
    (q.after programs).tree.IsFile (scratch.child lintLogName).key

theorem exists_of_isOk {ε β : Type} {r : Except ε β} (h : r.isOk) : ∃ b, r = .ok b := by
  cases r with
  | ok b => exact ⟨b, rfl⟩
  | error e => cases h

instance (programs : Programs) (scratch : Path) (q : Query) :
    Decidable (ChecksOut programs scratch q) :=
  decidable_of_iff (_ ∧ _) ⟨fun h => ⟨h.1, h.2⟩, fun h => ⟨h.succeeded, h.regular⟩⟩

instance (programs : Programs) (scratch : Path) (q : Query) :
    Decidable (InOrder programs scratch q) :=
  decidable_of_iff (ChecksOut programs scratch q ∧ _)
    ⟨fun h => ⟨h.1, h.2⟩, fun h => ⟨h.toChecksOut, h.log⟩⟩

theorem ChecksOut.inOrder {programs : Programs} {q : Query} (h : ChecksOut programs scratch q)
    (hadd : programs.OnlyAdd) : InOrder programs scratch q where
  toChecksOut := h
  log := (hadd q.moment.past ⟨q.command, q.moment.tree⟩).files _

/-- No file with one of the extensions can be taken for the lint log. -/
def Apart (extensions : List Text) : Prop :=
  ∀ ext ∈ extensions, Path.slash ∉ ext ∧ 2 < ext.length ∧ ¬ext <:+ lintLogName

theorem phpExtensions_apart : Apart phpExtensions := by
  rw [Apart]
  decide

theorem scriptExtensions_apart : Apart scriptExtensions := by
  rw [Apart]
  decide

theorem copy_ne_lintLog (hapart : Apart extensions) {path : Text}
    (hdue : hasExtension extensions path) {t : FileTree} {key : Key}
    (hl : t.locate (scratch.child path).toText = .ok key) :
    (scratch.child lintLogName).key ≠ key := by
  obtain ⟨ext, hext, hsuffix⟩ := List.any_eq_true.1 hdue
  obtain ⟨hslash, hlen, hlog⟩ := hapart ext hext
  obtain ⟨directory, last, rfl, hlast⟩ :=
    FileTree.locate_child hslash hlen (List.isSuffixOf_iff_suffix.1 hsuffix) hl
  rw [Path.key, lintLog_names, ← List.append_assoc]
  intro he
  obtain ⟨_, hsingle⟩ := List.append_inj' he rfl
  exact hlog (List.singleton_inj.1 hsingle ▸ hlast)

theorem ready_asked {s : Session} {path : Text} (h : Ready scratch s)
    (hout : InOrder programs scratch (checkoutQuery scratch path s)) :
    Ready scratch (s.asked programs (Staged.checkoutCommand scratch path)) where
  log := hout.log h.log
  scratch := h.scratch

theorem remove_of_grows (hapart : Apart extensions) {path : Text}
    (hdue : hasExtension extensions path) {s t : Session} (hready : Ready scratch s)
    (hregular : (s.tree.read (scratch.child path).toText).isOk) (hgrows : s.tree.Grows t.tree)
    (hscratch : t.findings.scratch = scratch) :
    ∃ tree, Staged.remove (scratch.child path) scratch t = .ok () { t with tree } ∧
      Ready scratch { t with tree } := by
  obtain ⟨content, hread⟩ := exists_of_isOk hregular
  obtain ⟨key, hlocate, hfile⟩ := FileTree.read_eq_ok hread
  have hplace : t.tree.locate (scratch.child path).toText = .ok key := by
    rw [FileTree.locate_toText] at hlocate ⊢
    exact FileTree.follow_of_directories hgrows.directories hlocate
  obtain ⟨tree, hremoved, hkept⟩ :=
    FileTree.removed_of_isFile hplace (hgrows.files key ⟨content, hfile⟩) scratch
  refine ⟨tree, ?_, ?_, hscratch⟩
  · rw [Staged.remove_eq, hremoved]
  · exact hkept _ (copy_ne_lintLog hapart hdue hplace) (hgrows.files _ hready.log)

theorem withCopy_completes (hapart : Apart extensions)
    (hcheck : Completes programs scratch check asked found) {path : Text}
    (hdue : hasExtension extensions path) (s : Session) :
    ∃ queries, Ran s (ending (Staged.withCopy programs scratch path (check path) s))
        (checkoutQuery scratch path s :: queries) ∧ (∀ q ∈ queries, AsksLinter q) ∧
      (InOrder programs scratch (checkoutQuery scratch path s) → Ready scratch s →
        Ends programs (checkoutQuery scratch path s :: queries)
          (Staged.checkoutCommand scratch path :: asked (scratch.child path))
          (found path (scratch.child path) ((checkoutQuery scratch path s).after programs) s.findings)
          (Ready scratch) (Staged.withCopy programs scratch path (check path) s)) := by
  rw [Staged.withCopy_eq]
  have hran := ran_asked programs (Staged.checkoutCommand scratch path) s
  cases hm : Git.meaning Command.checkoutWord
      (s.moment.ask programs (Staged.checkoutCommand scratch path)).1 with
  | error fault =>
    refine ⟨[], hran, by simp, ?_⟩
    intro hout _
    have hok := hout.succeeded
    rw [Query.response, checkoutQuery, hm] at hok
    cases hok
  | ok output =>
    dsimp only
    obtain ⟨queries, hran', hasks, hends⟩ := hcheck path (scratch.child path)
      (s.asked programs (Staged.checkoutCommand scratch path))
    refine ⟨queries, hran.trans (ran_thenAlways hran' ?_), hasks, ?_⟩
    · intro t
      rcases Staged.remove_cases (scratch.child path) scratch t with ⟨tree, he⟩ | ⟨fault, he⟩ <;>
        rw [he] <;> rfl
    intro hout hready
    have hends := hends (ready_asked hready hout) hout.regular
    have tolerable : Tolerable programs (checkoutQuery scratch path s) :=
      tolerable_of_not_linter (not_asksLinter_of_asksCheckout rfl)
    rw [thenAlways]
    cases hw : check path (scratch.child path)
        (s.asked programs (Staged.checkoutCommand scratch path)) with
    | ok _ t =>
      rw [hw] at hends
      cases hends with
      | through hcommands htolerable hfound hnext =>
      obtain ⟨hscratch, hgrows⟩ := hnext
      obtain ⟨tree, hremove, hleft⟩ :=
        remove_of_grows hapart hdue (ready_asked hready hout) hout.regular hgrows hscratch
      dsimp only
      rw [hremove]
      refine .through (congrArg _ hcommands) ?_ hfound hleft
      exact List.forall_mem_cons.2 ⟨tolerable, htolerable⟩
    | error fault t =>
      rw [hw] at hends
      cases hends with
      | stopped hgit hno =>
      obtain ⟨q, hq, hno⟩ := hno
      dsimp only
      rcases Staged.remove_cases (scratch.child path) scratch t with ⟨tree, he⟩ | ⟨refusal, he⟩
      · rw [he]
        exact .stopped hgit ⟨q, .tail _ hq, hno⟩
      · rw [he]
        exact .stopped (fun failure h => by cases h) ⟨q, .tail _ hq, hno⟩

theorem inspect_completes (hapart : Apart extensions)
    (hcheck : Completes programs scratch check asked found) {path : Text}
    (hdue : hasExtension extensions path) (s : Session) :
    ∃ queries, Ran s (ending (inspect programs scratch check path s))
        (checkoutQuery scratch path s :: queries) ∧ (∀ q ∈ queries, AsksLinter q) ∧
      (InOrder programs scratch (checkoutQuery scratch path s) → Ready scratch s →
        Ends programs (checkoutQuery scratch path s :: queries)
          (Staged.checkoutCommand scratch path :: asked (scratch.child path))
          (found path (scratch.child path) ((checkoutQuery scratch path s).after programs) s.findings)
          (Ready scratch) (inspect programs scratch check path s)) := by
  obtain ⟨queries, hran, hasks, hends⟩ := withCopy_completes hapart hcheck hdue
    { s with log := s.logged .debug ("checking ".toList ++ path) }
  exact ⟨queries, hran, hasks, fun hout hready => hends hout ⟨hready.log, hready.scratch⟩⟩

def commandsFor (scratch : Path) (asked : Path → List Command) (paths : List Text) : List Command :=
  paths.flatMap fun path => Staged.checkoutCommand scratch path :: asked (scratch.child path)

def collect (programs : Programs) (scratch : Path)
    (found : Text → Path → Moment → Findings → Findings) (paths : List Text)
    (queries : List Query) (f : Findings) : Findings :=
  (paths.zip queries).foldl (fun f x => found x.1 (scratch.child x.1) (x.2.after programs) f) f

/-- A pass over a list comes to its end, and with all that is due done, unless a response is not
tolerable. -/
theorem checkEach_completes (hapart : Apart extensions)
    (hcheck : Completes programs scratch check asked found) (files : List Text) (s : Session) :
    ∃ queries, Ran s (ending (checkEach programs scratch extensions check files s)) queries ∧
      (∀ q ∈ queries, AsksGate q) ∧
      ((∀ q ∈ checkouts queries, InOrder programs scratch q) → Ready scratch s →
        Ends programs queries (commandsFor scratch asked (due extensions files))
          (collect programs scratch found (due extensions files) (checkouts queries) s.findings)
          (Ready scratch) (checkEach programs scratch extensions check files s)) := by
  induction files generalizing s with
  | nil => exact ⟨[], Ran.none rfl, by simp, fun _ hready => .through rfl (by simp) rfl hready⟩
  | cons path rest ih =>
    rw [checkEach_cons]
    split
    · rename_i hdue
      obtain ⟨queries, hran, hasks, hends⟩ := inspect_completes hapart hcheck hdue s
      have hlist : due extensions (path :: rest) = path :: due extensions rest :=
        List.filter_cons_of_pos hdue
      cases hi : inspect programs scratch check path s with
      | error fault t =>
        rw [bind_of_error hi]
        rw [hi] at hran hends
        refine ⟨_, hran, asksGate_inspect hasks, ?_⟩
        intro hout hready
        have hfirst := hends (hout _ (by simp [checkouts_cons scratch path s hasks])) hready
        cases hfirst with
        | stopped hgit hno => exact .stopped hgit hno
      | ok _ t =>
        rw [bind_of_ok hi]
        rw [hi] at hran hends
        obtain ⟨more, hran', hasks', hends'⟩ := ih t
        have hall : checkouts (checkoutQuery scratch path s :: queries ++ more) =
            checkoutQuery scratch path s :: checkouts more := by
          rw [checkouts_append, checkouts_cons scratch path s hasks, List.singleton_append]
        refine ⟨_, hran.trans hran',
          List.forall_mem_append.2 ⟨asksGate_inspect hasks, hasks'⟩, ?_⟩
        intro hout hready
        rw [hall] at hout ⊢
        obtain ⟨hout₁, hout₂⟩ := List.forall_mem_cons.1 hout
        rw [hlist]
        refine (hends hout₁ hready).append fun hfound hnext => ?_
        have hrest := hends' hout₂ hnext
        rw [hfound] at hrest
        exact hrest
    · rename_i hdue
      have hlist : due extensions (path :: rest) = due extensions rest :=
        List.filter_cons_of_neg hdue
      rw [hlist]
      exact ih s

/-- A run that has done all it should: each file that is due is checked out and put through its check,
in order, and what was found in one file is kept with what was found in the others. -/
structure Complete (programs : Programs) (linter : Linter) (scratch : Path) (files : List Text)
    (queries : List Query) (findings : Findings) : Prop where
  commands : queries.map Query.command =
    commandsFor scratch (fun copy => [linter.stripCommand copy, linter.lintCommand copy])
        (due phpExtensions files) ++
      commandsFor scratch (fun _ => []) (due scriptExtensions files)
  findings : ∃ forPhp forScripts, checkouts queries = forPhp ++ forScripts ∧
    forPhp.length = (due phpExtensions files).length ∧
    findings = collect programs scratch scriptFound (due scriptExtensions files) forScripts
      (collect programs scratch (phpFound programs linter) (due phpExtensions files) forPhp
        (Findings.fresh scratch))

theorem ready_of_prepare (hp : scratch.IsPlain) {s s₀ : Session}
    (h : prepare scratch s = .ok () s₀) :
    Ready scratch { s₀ with findings := Findings.fresh scratch } := by
  obtain ⟨t, hwrite⟩ := write_of_prepare h
  obtain ⟨key, hl, _, hfind⟩ := FileTree.find_of_write hwrite
  obtain rfl := FileTree.locate_eq_ok (lintLog_isPlain hp) hl
  exact ⟨⟨[], by rw [hfind, if_pos rfl]⟩, rfl⟩

theorem run_completes (hp : scratch.IsPlain) (linter : Linter) (files : List Text)
    {s s₀ : Session} (hprepare : prepare scratch s = .ok () s₀) :
    ∃ queries, Ran s (ending (run programs linter scratch files s)) queries ∧
      ((∀ q ∈ checkouts queries, InOrder programs scratch q) →
        (∃ findings s', run programs linter scratch files s = .ok findings s' ∧
            (∀ q ∈ queries, Tolerable programs q) ∧
            Complete programs linter scratch files queries findings) ∨
          ∃ fault s', run programs linter scratch files s = .error fault s' ∧
            (∀ failure, fault ≠ .git failure) ∧ ∃ q ∈ queries, ¬Tolerable programs q) := by
  have hready := ready_of_prepare hp hprepare
  have hstart : Ran s { s₀ with findings := Findings.fresh scratch } [] := ran_prepare hprepare _
  obtain ⟨forPhp, hran, _, hends⟩ := checkEach_completes phpExtensions_apart
    (php_completes hp linter) files { s₀ with findings := Findings.fresh scratch }
  rw [run_of_prepare hprepare]
  cases hphp : checkEach programs scratch phpExtensions (php programs linter) files
      { s₀ with findings := Findings.fresh scratch } with
  | error fault t =>
    rw [hphp] at hran hends
    rw [bind_of_error hphp]
    refine ⟨forPhp, hstart.trans hran, fun hout => .inr ⟨fault, t, rfl, ?_⟩⟩
    cases hends hout hready with
    | stopped hgit hno => exact ⟨hgit, hno⟩
  | ok _ t =>
    rw [hphp] at hran hends
    rw [bind_of_ok hphp]
    obtain ⟨forScripts, hran', _, hends'⟩ := checkEach_completes scriptExtensions_apart
      (script_completes scratch) files t
    have both : (∀ q ∈ checkouts (forPhp ++ forScripts), InOrder programs scratch q) →
        Ends programs (forPhp ++ forScripts)
          (commandsFor scratch (fun copy => [linter.stripCommand copy, linter.lintCommand copy])
              (due phpExtensions files) ++
            commandsFor scratch (fun _ => []) (due scriptExtensions files))
          (collect programs scratch scriptFound (due scriptExtensions files) (checkouts forScripts)
            (collect programs scratch (phpFound programs linter) (due phpExtensions files)
              (checkouts forPhp) (Findings.fresh scratch)))
          (Ready scratch) (checkEach programs scratch scriptExtensions script files t) := by
      intro hout
      rw [checkouts_append, List.forall_mem_append] at hout
      refine (hends hout.1 hready).append fun hfound hnext => ?_
      have hrest := hends' hout.2 hnext
      rw [hfound] at hrest
      exact hrest
    cases hscripts : checkEach programs scratch scriptExtensions script files t with
    | error fault t' =>
      rw [hscripts] at hran' both
      rw [bind_of_error hscripts]
      refine ⟨forPhp ++ forScripts, hstart.trans (hran.trans hran'),
        fun hout => .inr ⟨fault, t', rfl, ?_⟩⟩
      cases both hout with
      | stopped hgit hno => exact ⟨hgit, hno⟩
    | ok _ t' =>
      rw [hscripts] at hran' both
      rw [bind_of_ok hscripts]
      refine ⟨forPhp ++ forScripts, hstart.trans (hran.trans hran'),
        fun hout => .inl ⟨t'.findings, t', rfl, ?_⟩⟩
      cases both hout with
      | through hcommands htolerable hfound _ =>
      refine ⟨htolerable, hcommands, checkouts forPhp, checkouts forScripts, checkouts_append _ _,
        ?_, hfound⟩
      obtain ⟨queries, hran'', _, hcheckouts, _⟩ := checkEach_ok (php_settles programs linter) hphp
      obtain rfl : forPhp = queries := hran.queriesBetween_eq.symm.trans hran''.queriesBetween_eq
      have hlen := congrArg List.length hcheckouts
      rwa [List.length_map, List.length_map] at hlen

theorem collect_induction {P : Findings → Prop}
    (hstep : ∀ path copy m f, P f → P (found path copy m f)) (paths : List Text)
    (queries : List Query) {f : Findings} (h : P f) :
    P (collect programs scratch found paths queries f) := by
  rw [collect]
  induction paths.zip queries generalizing f with
  | nil => exact h
  | cons x rest ih => exact ih (hstep _ _ _ _ h)

theorem phpFound_printable (linter : Linter) (path : Text) (copy : Path) (m : Moment) (f : Findings)
    (h : f.Printable) : (phpFound programs linter path copy m f).Printable := by
  unfold phpFound
  dsimp only
  split
  · exact (h.withCalls _ _ _).withLint _ _
  · exact h

theorem scriptFound_printable (path : Text) (copy : Path) (m : Moment) (f : Findings)
    (h : f.Printable) : (scriptFound path copy m f).Printable := by
  rw [scriptFound]
  split
  · exact h.withScript _ _
  · exact h

theorem Complete.printable {linter : Linter} {files : List Text} {queries : List Query}
    {findings : Findings} (h : Complete programs linter scratch files queries findings) :
    findings.Printable := by
  obtain ⟨forPhp, forScripts, _, _, rfl⟩ := h.findings
  refine collect_induction scriptFound_printable _ _ ?_
  exact collect_induction (phpFound_printable linter) _ _ (Findings.printable_fresh scratch)

end Gate

namespace Hook

open Gate

theorem judge_of_gate {programs : Programs} {environment : Environment} {files : List Text}
    {findings : Findings} {s s₁ s' : Session} (hlist : Staged.list programs s₁ = .ok files s)
    (hgate : Gate.run programs (Linter.ofSettings none environment.php)
      (Path.ofText scratchDirectory) files s = .ok findings s') :
    judge programs environment.php s₁ = verdict findings s' := by
  rw [judge, bind_of_ok (attempt_of_ok hlist)]
  exact bind_of_ok (attempt_of_ok hgate)

theorem returns_iff_judge_returns {programs : Programs} {environment : Environment} {s : Session} :
    (∃ v s', run programs environment s = .ok v s') ↔
      ∃ v s', judge programs environment.php s = .ok v s' := by
  obtain ⟨level, log, h⟩ := run_eq programs environment s
  rw [h]
  cases judge programs environment.php s <;> simp [withLog]

theorem verdict_returns {findings : Findings} (h : findings.Printable) (s : Session) :
    ∃ v, verdict findings s = .ok v s := by
  obtain ⟨report, hr⟩ := h.render
  rw [verdict, hr]
  exact ⟨_, rfl⟩

end Hook

namespace Gate

open Check

/-- With every checkout in order, a run comes to its end exactly if each of the linter's responses is
tolerable. Then it is complete, and the whole hook comes to its verdict exactly then too. -/
theorem returns_iff_tolerable {programs : Programs} {linter : Linter} {scratch : Path}
    {files : List Text} {s s₀ : Session} (hp : scratch.IsPlain)
    (hprepare : prepare scratch s = .ok () s₀)
    (hout : ∀ q ∈ checkouts (queriesBetween s (ending (run programs linter scratch files s))),
      InOrder programs scratch q) :
    ((∃ findings s', run programs linter scratch files s = .ok findings s') ↔
        ∀ q ∈ queriesBetween s (ending (run programs linter scratch files s)),
          Tolerable programs q) ∧
      (∀ findings s', run programs linter scratch files s = .ok findings s' →
        Complete programs linter scratch files (queriesBetween s s') findings) ∧
      ∀ environment s₁, linter = Linter.ofSettings none environment.php →
        scratch = Path.ofText Hook.scratchDirectory → Staged.list programs s₁ = .ok files s →
        ((∃ v s', Hook.run programs environment s₁ = .ok v s') ↔
          ∀ q ∈ queriesBetween s (ending (run programs linter scratch files s)),
            Tolerable programs q) := by
  obtain ⟨queries, hran, houtcome⟩ := run_completes hp linter files hprepare
  rw [hran.queriesBetween_eq] at hout ⊢
  rcases houtcome hout with ⟨findings, s', hr, htolerable, hcomplete⟩ | ⟨fault, s', hr, hgit, hno⟩
  · refine ⟨⟨fun _ => htolerable, fun _ => ⟨findings, s', hr⟩⟩, ?_, ?_⟩
    · intro findings' s'' hr'
      obtain ⟨rfl, rfl⟩ := EStateM.Result.ok.inj (hr.symm.trans hr')
      rw [hr] at hran
      rwa [show queriesBetween s s' = queries from hran.queriesBetween_eq]
    · rintro environment s₁ rfl rfl hlist
      rw [Hook.returns_iff_judge_returns]
      refine ⟨fun _ => htolerable, fun _ => ?_⟩
      obtain ⟨v, hv⟩ := Hook.verdict_returns hcomplete.printable s'
      exact ⟨v, s', (Hook.judge_of_gate hlist hr).trans hv⟩
  · have intolerable : ¬∀ q ∈ queries, Tolerable programs q := by
      obtain ⟨q, hq, hnot⟩ := hno
      exact fun hall => hnot (hall q hq)
    refine ⟨iff_of_false ?_ intolerable, ?_, ?_⟩
    · rintro ⟨findings, t, hr'⟩
      cases hr.symm.trans hr'
    · intro findings t hr'
      cases hr.symm.trans hr'
    · rintro environment s₁ rfl rfl hlist
      rw [Hook.returns_iff_judge_returns]
      refine iff_of_false ?_ intolerable
      rintro ⟨v, t, hv⟩
      rcases Hook.judge_cases hv with ⟨failure, _, t', hl, _⟩ | ⟨files', t', hl, hg⟩
      · cases hlist.symm.trans hl
      · obtain ⟨rfl, rfl⟩ := EStateM.Result.ok.inj (hlist.symm.trans hl)
        rcases hg with ⟨failure, _, t'', hg, _⟩ | ⟨findings, t'', hg, _⟩
        · obtain ⟨rfl, _⟩ := EStateM.Result.error.inj (hr.symm.trans hg)
          exact hgit failure rfl
        · cases hr.symm.trans hg

def runOverTwo (responses : Dialogue.Transcript) : EStateM.Result Fault Session Findings :=
  run (Dialogue.programs responses) ⟨"php".toList⟩ (Path.ofText Hook.scratchDirectory)
    ["a.php".toList, "b.js".toList] Dialogue.start

def checkedOut : Reply := Hook.exited 0 "" (.file (Utf8.encode "f(1);".toList))

def syntaxErrorFirst : Dialogue.Transcript :=
  [checkedOut, .notStarted ⟨.notFound, []⟩, Hook.exited 255 "Parse error\n" .nothing, checkedOut]

theorem run_over_two_complete :
    ∃ findings s', runOverTwo syntaxErrorFirst = .ok findings s' ∧
      Complete (Dialogue.programs syntaxErrorFirst) ⟨"php".toList⟩
        (Path.ofText Hook.scratchDirectory) ["a.php".toList, "b.js".toList]
        (queriesBetween Dialogue.start s') findings := by
  have hvalue : (value? (runOverTwo syntaxErrorFirst)).isSome := by decide +kernel
  obtain ⟨findings, hfindings⟩ := Option.isSome_iff_exists.1 hvalue
  obtain ⟨s', h⟩ := ok_of_value? hfindings
  obtain ⟨s₀, hprepare⟩ := ok_of_value? (show value? (prepare (Path.ofText Hook.scratchDirectory)
    Dialogue.start) = some () by decide +kernel)
  have hplain : (Path.ofText Hook.scratchDirectory).IsPlain := by
    rw [Path.IsPlain]
    decide +kernel
  have hout : ∀ q ∈ checkouts (queriesBetween Dialogue.start
      (ending (runOverTwo syntaxErrorFirst))),
      ChecksOut (Dialogue.programs syntaxErrorFirst) (Path.ofText Hook.scratchDirectory) q := by
    decide +kernel
  have horder := fun q hq => (hout q hq).inOrder (Programs.onlyAdd_placing _)
  exact ⟨findings, s', h, (returns_iff_tolerable hplain hprepare horder).2.1 findings s' h⟩

/-- A linter that may not be started stops a run, and so does one that prints what is not text, though
every checkout is in order. -/
theorem run_over_two_stopped :
    (∀ responses ∈ [[checkedOut, .notStarted ⟨.notPermitted, []⟩],
        [checkedOut, Hook.exited 1 "" .nothing, .completed ⟨0, [0xFF], []⟩ .nothing]],
      (∀ q ∈ checkouts (queriesBetween Dialogue.start (ending (runOverTwo responses))),
        InOrder (Dialogue.programs responses) (Path.ofText Hook.scratchDirectory) q) ∧
      value? (runOverTwo responses) = none) ∧
      value? (Hook.run (Dialogue.programs (Hook.oneStaged "f(1);" ++
        [.notStarted ⟨.notPermitted, []⟩])) ⟨none, none⟩ Dialogue.start) = none := by
  decide +kernel

end Gate

end CommitGate
