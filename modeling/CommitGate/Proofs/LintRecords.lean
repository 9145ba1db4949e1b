import CommitGate.Proofs.Bookkeeping
import CommitGate.Proofs.Clearing
import CommitGate.Proofs.Complete
import CommitGate.Proofs.Prepared
import CommitGate.Proofs.Utf8

/-! The three records of the lints: the log on disk, the log in the findings, and the outputs and syntax
errors by path. The checks write the file, and no copy can be taken for it; so it says what the findings
say, unless git itself takes it away. -/
namespace CommitGate

open Session

namespace Check

/-- What the lint of a copy comes to. It is asked for right after the strip. -/
def lintOf (programs : Programs) (linter : Linter) (copy : Path) (m : Moment) :
    Except Fault LintResult :=
  let strip := m.ask programs (linter.stripCommand copy)
  linter.lintedBy (strip.2.ask programs (linter.lintCommand copy)).1

end Check

namespace Gate

open Check

variable {programs : Programs} {linter : Linter} {scratch : Path} {extensions : List Text}
  {path : Text} {t t' : FileTree} {key : Key} {old content : Bytes} {s s' : Session}
  {lints : List (Text × LintResult)}

theorem locate_eq_logKey (h : t.locate (scratch.child lintLogName).toText = .ok key) :
    key = logKey scratch :=
  (FileTree.locate_eq_ok_iff.1 h).2.trans (lintLog_leadsOn scratch).place_eq

theorem write_log (h : t.write (scratch.child lintLogName).toText content = .ok t') :
    t'.find (logKey scratch) = some (.file content) := by
  obtain ⟨key, hl, _, hfind⟩ := FileTree.find_of_write h
  obtain rfl := locate_eq_logKey hl
  rw [hfind, if_pos rfl]

theorem append_log (log : Option Bytes)
    (h : t.append (scratch.child lintLogName).toText content = .ok t')
    (hlog : t.find (logKey scratch) = log.map Entry.file) :
    t'.find (logKey scratch) = some (.file (log.getD [] ++ content)) := by
  obtain ⟨_, hwrite⟩ := FileTree.write_of_append h
  obtain ⟨key, hl, _, _⟩ := FileTree.find_of_write hwrite
  obtain rfl := locate_eq_logKey hl
  rw [FileTree.append] at h
  cases log with
  | none =>
    rw [read_nothing (.inr ⟨hl, hlog⟩)] at h
    exact write_log h
  | some old =>
    rw [FileTree.read_of_find hl hlog] at h
    exact write_log h

section Apart

variable (hapart : Apart extensions) (hdue : hasExtension extensions path)

include hapart hdue

theorem place_ne_logKey :
    ∀ place, t.locate (scratch.child path).toText = .ok place → place ≠ logKey scratch := by
  obtain ⟨ext, hext, hsuffix⟩ := List.any_eq_true.1 hdue
  obtain ⟨hslash, hlen, hlog⟩ := hapart ext hext
  rw [List.isSuffixOf_iff_suffix] at hsuffix
  intro place hl he
  obtain ⟨directory, last, hplace, hlast⟩ := FileTree.locate_child hslash hlen hsuffix hl
  obtain ⟨_, hsingle⟩ := List.append_inj' (hplace.symm.trans he) rfl
  exact hlog (List.singleton_inj.1 hsingle ▸ hlast)

end Apart

/-- A command leaves what stands at the place of the lint log as it is. -/
def SparesLog (programs : Programs) (scratch : Path) (q : Query) : Prop :=
  (q.after programs).tree.find (logKey scratch) = q.moment.tree.find (logKey scratch)

instance (programs : Programs) (scratch : Path) (q : Query) :
    Decidable (SparesLog programs scratch q) := inferInstanceAs (Decidable (_ = _))

theorem find_log_of_replaced (hpath : WrittenPath.IsRepositoryPath path)
    (h : t.Replaced t' (scratch.child path) content) (hapart : ApartFromLog path)
    (hoff : logKey scratch ∉ scratch.way) :
    logKey scratch ∉ (scratch.child path).way ∧
      t'.find (logKey scratch) = t.find (logKey scratch) := by
  have hcopy := hpath.leadsOn scratch
  have hway : logKey scratch ∉ (scratch.child path).way := by
    intro hmem
    rcases hcopy.mem_way.1 hmem with hmem | ⟨i, hi, he⟩
    · exact hoff hmem
    · rcases Nat.eq_zero_or_pos i with rfl | h0
      · rw [Path.station, List.take_zero, List.append_nil] at he
        exact logKey_ne_place scratch he
      · exact station_ne_logKey hapart h0 hi.le he.symm
  refine ⟨hway, h.kept _ (fun hbelow => ?_) hway⟩
  have hpos := List.length_pos_iff.2 (WrittenPath.steps_ne_nil path)
  rw [place_eq_station hcopy] at hbelow
  have hlength : (logKey scratch).length ≤
      (scratch.station (WrittenPath.steps path) (WrittenPath.steps path).length).length := by
    rw [logKey_length, Path.station_length le_rfl]
    omega
  exact station_ne_logKey hapart hpos le_rfl (hbelow.eq_of_length_le hlength)

theorem sparesLog_of_writes {answer : Command → Reply} {q : Query}
    (hwrites : programs.Writes scratch answer path) (hpath : WrittenPath.IsRepositoryPath path)
    (hapart : ApartFromLog path) (hoff : logKey scratch ∉ scratch.way)
    (hq : q.command = Staged.checkoutCommand scratch path) (hsucceeded : q.Succeeded programs) :
    SparesLog programs scratch q := by
  obtain ⟨_, _, _, _, hreplaced⟩ := hwrites.written q hq hsucceeded
  exact (find_log_of_replaced hpath hreplaced hapart hoff).2

/-- Findings and files are in accord with some lints, each a path and its result, first lint first. So is
the log on disk, as far as it was spared. -/
structure LintBooks (scratch : Path) (lints : List (Text × LintResult)) (spared : Prop) (f : Findings)
    (t : FileTree) : Prop where
  accounts : f.Accounts (lints.map fun lint => (lint.1, lint.2.output))
  errors : f.syntaxErrorFiles = (lints.filter (·.2.isParseError)).map Prod.fst
  log : spared → t.find (logKey scratch) = some (.file (Utf8.encode f.lintLog))
  scratch : f.scratch = scratch

namespace LintBooks

variable {spared : Prop} {f : Findings} {text : Text} {lint : LintResult} {copy : Path}

theorem of_prepare {s₀ : Session} (h : prepare scratch s = .ok () s₀) :
    LintBooks scratch [] True (Findings.fresh scratch) s₀.tree where
  accounts := Findings.accounts_fresh scratch
  errors := rfl
  log _ := (write_of_prepare h).elim fun _ hwrite => write_log hwrite
  scratch := rfl

theorem addReport (h : LintBooks scratch lints spared f t) (block : Text) :
    LintBooks scratch lints spared (f.addReport block) t :=
  ⟨h.accounts.addReport block, h.errors, h.log, h.scratch⟩

theorem withCalls (h : LintBooks scratch lints spared f t) (stripped : Option Text) :
    LintBooks scratch lints spared (Check.withCalls stripped path text f) t := by
  rw [Check.withCalls]
  split
  · exact h.addReport _
  · exact h

theorem withScript (h : LintBooks scratch lints spared f t) :
    LintBooks scratch lints spared (Check.withScript path text f) t := by
  rw [Check.withScript]
  split
  · exact h
  · exact h.addReport _

theorem withLint (h : LintBooks scratch lints spared f t)
    (happend : t.append (scratch.child lintLogName).toText (Utf8.encode lint.output) = .ok t') :
    LintBooks scratch (lints ++ [(path, lint)]) spared (Check.withLint path lint f) t' where
  accounts := by
    rw [List.map_append]
    exact h.accounts.withLint path lint
  errors := by
    rw [List.filter_append, List.map_append, ← h.errors, Check.withLint]
    cases hp : lint.isParseError with
    | true => simp [hp, Findings.addSyntaxError, Findings.addLintOutput]
    | false => simp [hp, Findings.addLintOutput]
  log hspared := by
    have hlog : (Check.withLint path lint f).lintLog = f.lintLog ++ lint.output := by
      rw [Check.withLint]
      split <;> rfl
    rw [hlog, Utf8.encode_append]
    exact append_log (some _) happend (h.log hspared)
  scratch := by
    rw [Check.withLint]
    split <;> exact h.scratch

theorem weaken {spared' : Prop} (h : LintBooks scratch lints spared f t) (hle : spared' → spared) :
    LintBooks scratch lints spared' f t :=
  ⟨h.accounts, h.errors, fun hspared => h.log (hle hspared), h.scratch⟩

theorem checkout (h : LintBooks scratch lints spared s.findings s.tree) (programs : Programs)
    (path : Text) :
    LintBooks scratch lints (spared ∧ SparesLog programs scratch (checkoutQuery scratch path s))
      s.findings ((checkoutQuery scratch path s).after programs).tree :=
  ⟨h.accounts, h.errors, fun hspared => hspared.2.trans (h.log hspared.1), h.scratch⟩

theorem removed (h : LintBooks scratch lints spared f t) (hapart : Apart extensions)
    (hdue : hasExtension extensions path)
    (hremoved : Staged.removed (scratch.child path) scratch t = .ok t') :
    LintBooks scratch lints spared f t' :=
  ⟨h.accounts, h.errors,
    fun hspared => FileTree.find_removed hremoved (place_ne_logKey hapart hdue) (h.log hspared),
    h.scratch⟩

theorem script (h : LintBooks scratch lints spared s.findings s.tree)
    (hrun : Check.script path copy s = .ok () s') : LintBooks scratch lints spared s'.findings s'.tree := by
  cases hr : s.tree.read copy.toText with
  | error fault =>
    obtain ⟨log, he⟩ := script_unreadable path hr
    cases hrun.symm.trans he
    exact h.addReport _
  | ok content =>
    cases hrun.symm.trans (script_readable path hr)
    exact h.withScript

theorem php_unreadable {fault : FileFault} (h : LintBooks scratch lints spared s.findings s.tree)
    (hr : s.tree.read copy.toText = .error fault)
    (hrun : Check.php programs linter path copy s = .ok () s') :
    LintBooks scratch lints spared s'.findings s'.tree := by
  obtain ⟨log, he⟩ := Check.php_unreadable programs linter path hr
  cases hrun.symm.trans he
  exact h.addReport _

theorem php_readable (h : LintBooks scratch lints spared s.findings s.tree)
    (hr : s.tree.read copy.toText = .ok content)
    (hrun : Check.php programs linter path copy s = .ok () s') :
    ∃ lint, lintOf programs linter copy s.moment = .ok lint ∧
      LintBooks scratch (lints ++ [(path, lint)]) spared s'.findings s'.tree := by
  obtain ⟨queries, _, hphp⟩ := php_run programs linter path copy s
  rw [hrun] at hphp
  cases hphp with
  | unreadable hr' _ => cases hr.symm.trans hr'
  | through _ _ hl happend hf =>
    rw [h.scratch] at happend
    rw [hf]
    exact ⟨_, hl, (h.withCalls _).withLint happend⟩

end LintBooks

def Reads (programs : Programs) (scratch : Path) (x : Text × Query) : Prop :=
  ((x.2.after programs).tree.read (scratch.child x.1).toText).isOk

instance (programs : Programs) (scratch : Path) : DecidablePred (Reads programs scratch) :=
  fun _ => inferInstanceAs (Decidable (_ = true))

structure IsLintOf (programs : Programs) (linter : Linter) (scratch : Path) (x : Text × Query)
    (lint : Text × LintResult) : Prop where
  path : lint.1 = x.1
  result : lintOf programs linter (scratch.child x.1) (x.2.after programs) = .ok lint.2

theorem inspect_php_books {spared : Prop} (h : LintBooks scratch lints spared s.findings s.tree)
    (hdue : hasExtension phpExtensions path)
    (hrun : inspect programs scratch (php programs linter) path s = .ok () s') :
    (¬Reads programs scratch (path, checkoutQuery scratch path s) ∧
        LintBooks scratch lints
          (spared ∧ SparesLog programs scratch (checkoutQuery scratch path s)) s'.findings s'.tree) ∨
      (Reads programs scratch (path, checkoutQuery scratch path s) ∧
        ∃ lint, IsLintOf programs linter scratch (path, checkoutQuery scratch path s) lint ∧
          LintBooks scratch (lints ++ [lint])
            (spared ∧ SparesLog programs scratch (checkoutQuery scratch path s)) s'.findings
            s'.tree) := by
  obtain ⟨u, t, tree, hfindings, hmoment, hcheck, hremoved, rfl⟩ := inspect_steps hrun
  have htree : u.tree = ((checkoutQuery scratch path s).after programs).tree :=
    congrArg Moment.tree hmoment
  have hcopy := h.checkout programs path
  rw [← hfindings, ← htree] at hcopy
  rw [Reads, ← htree]
  cases hr : u.tree.read (scratch.child path).toText with
  | error fault =>
    have hbooks := hcopy.php_unreadable hr hcheck
    exact .inl ⟨Bool.false_ne_true, hbooks.removed phpExtensions_apart hdue hremoved⟩
  | ok content =>
    obtain ⟨lint, hlint, hbooks⟩ := hcopy.php_readable hr hcheck
    rw [hmoment] at hlint
    exact .inr ⟨rfl, (path, lint), ⟨rfl, hlint⟩,
      hbooks.removed phpExtensions_apart hdue hremoved⟩

theorem inspect_script_books {spared : Prop}
    (h : LintBooks scratch lints spared s.findings s.tree)
    (hdue : hasExtension scriptExtensions path)
    (hrun : inspect programs scratch script path s = .ok () s') :
    LintBooks scratch lints (spared ∧ SparesLog programs scratch (checkoutQuery scratch path s))
      s'.findings s'.tree := by
  obtain ⟨u, t, tree, hfindings, hmoment, hcheck, hremoved, rfl⟩ := inspect_steps hrun
  have hcopy := h.checkout programs path
  rw [← hfindings, ← hmoment] at hcopy
  exact (hcopy.script hcheck).removed scriptExtensions_apart hdue hremoved

theorem spared_concat {done : List (Text × Query)} {x : Text × Query} {spared : Prop}
    (h : spared ∧ ∀ y ∈ done ++ [x], SparesLog programs scratch y.2) :
    (spared ∧ ∀ y ∈ done, SparesLog programs scratch y.2) ∧ SparesLog programs scratch x.2 := by
  obtain ⟨hspared, hall⟩ := h
  obtain ⟨hdone, hlast⟩ := List.forall_mem_append.1 hall
  exact ⟨⟨hspared, hdone⟩, hlast x (List.mem_singleton_self x)⟩

theorem spared_zip {paths : List Text} {queries : List Query} {spared : Prop}
    (h : spared ∧ ∀ q ∈ queries, SparesLog programs scratch q) :
    spared ∧ ∀ x ∈ paths.zip queries, SparesLog programs scratch x.2 :=
  ⟨h.1, fun x hx => h.2 x.2 (List.of_mem_zip hx).2⟩

/-- A pass over the PHP files lints those that are due and can be read, in order. -/
theorem checkEach_php_books {files : List Text} {spared : Prop}
    (h : LintBooks scratch [] spared s.findings s.tree)
    (hrun : checkEach programs scratch phpExtensions (php programs linter) files s = .ok () s') :
    ∃ queries lints, Ran s s' queries ∧
      (checkouts queries).map Query.command =
        (due phpExtensions files).map (Staged.checkoutCommand scratch) ∧
      List.Forall₂ (IsLintOf programs linter scratch)
        (((due phpExtensions files).zip (checkouts queries)).filter (Reads programs scratch ·))
        lints ∧
      LintBooks scratch lints (spared ∧ ∀ q ∈ checkouts queries, SparesLog programs scratch q)
        s'.findings s'.tree := by
  obtain ⟨queries, hran, hcommands, lints, hlints, hbooks⟩ :=
    checkEach_invariant
      (fun done t => ∃ lints, List.Forall₂ (IsLintOf programs linter scratch)
        (done.filter (Reads programs scratch ·)) lints ∧
        LintBooks scratch lints (spared ∧ ∀ x ∈ done, SparesLog programs scratch x.2)
          t.findings t.tree)
      (php_settles programs linter)
      (by
        rintro done path t t' hdue ⟨lints, hlints, hbooks⟩ hinspect
        rw [List.filter_append]
        rcases inspect_php_books hbooks hdue hinspect with
          ⟨hunread, hbooks'⟩ | ⟨hread, lint, hlint, hbooks'⟩
        · rw [List.filter_cons_of_neg (by simpa using hunread), List.filter_nil, List.append_nil]
          exact ⟨lints, hlints, hbooks'.weaken spared_concat⟩
        · rw [List.filter_cons_of_pos (by simpa using hread), List.filter_nil]
          exact ⟨_, List.rel_append hlints (.cons hlint .nil), hbooks'.weaken spared_concat⟩)
      hrun ⟨[], .nil, h.weaken And.left⟩
  exact ⟨queries, lints, hran, hcommands, hlints, hbooks.weaken spared_zip⟩

theorem checkEach_script_books {files : List Text} {spared : Prop}
    (h : LintBooks scratch lints spared s.findings s.tree)
    (hrun : checkEach programs scratch scriptExtensions script files s = .ok () s') :
    ∃ queries, Ran s s' queries ∧
      (checkouts queries).map Query.command =
        (due scriptExtensions files).map (Staged.checkoutCommand scratch) ∧
      LintBooks scratch lints (spared ∧ ∀ q ∈ checkouts queries, SparesLog programs scratch q)
        s'.findings s'.tree := by
  obtain ⟨queries, hran, hcommands, hbooks⟩ :=
    checkEach_invariant (fun done t => LintBooks scratch lints
        (spared ∧ ∀ x ∈ done, SparesLog programs scratch x.2) t.findings t.tree)
      script_settles
      (fun _ _ _ _ hdue hbooks hinspect =>
        (inspect_script_books hbooks hdue hinspect).weaken spared_concat)
      hrun (h.weaken And.left)
  exact ⟨queries, hran, hcommands, hbooks.weaken spared_zip⟩

theorem lookup_map_snd {α β : Type} (g : α → β) (items : List (Text × α)) (path : Text) :
    (items.map fun item => (item.1, g item.2)).lookup path = (items.lookup path).map g := by
  induction items with
  | nil => rfl
  | cons item rest ih =>
    rw [List.map_cons, List.lookup_cons, List.lookup_cons, ih]
    split <;> rfl

theorem read_log_iff (hlog : t.find (logKey scratch) = some (.file content)) :
    t.read (scratch.child lintLogName).toText = .ok content ↔
      ∀ d ∈ scratch.way, t.find d = some .directory := by
  have hlead := lintLog_leadsOn scratch
  constructor
  · intro hread d hd
    obtain ⟨key, hl, _⟩ := FileTree.read_eq_ok hread
    exact (FileTree.locate_eq_ok_iff.1 hl).1 d (hlead.mem_way.2 (.inl hd))
  · intro hway
    have hplace : t.find scratch.place = some .directory :=
      t.rooted scratch.place lintLogName (by
        change t.find (logKey scratch) ≠ none
        simp [hlog])
    exact FileTree.read_of_find (locate_lintLog ⟨hway, hplace⟩) hlog

theorem read_log_of_isPlain (hp : scratch.IsPlain)
    (hlog : t.find (logKey scratch) = some (.file content)) :
    t.read (scratch.child lintLogName).toText = .ok content := by
  have hkey : (scratch.child lintLogName).key = logKey scratch := by
    rw [Path.key, lintLog_names, (lintLog_leadsOn scratch).start_eq, ← List.append_assoc, logKey,
      Path.place, Key.lead_of_descend hp.names]
  rw [← hkey] at hlog
  exact FileTree.read_of_find
    (FileTree.locate_of_find (lintLog_isPlain hp) (by simp [hlog])) hlog

/-- After a run, the log in the findings and the outputs and syntax errors by path are all those of one
list of lints: one lint for each PHP file whose copy could be read, in order. Nothing else is in any of
them. The log on disk says the same if every checkout has left it alone, and they all do where each writes
its copy and no path leads below the log. It can be read by the path of the scratch directory as long as the
removals have left the directories that this leads through. -/
theorem lint_records_agree {files : List Text} {findings : Findings}
    (h : run programs linter scratch files s = .ok findings s') :
    ∃ forPhp forScripts lints,
      checkouts (queriesBetween s s') = forPhp ++ forScripts ∧
      forPhp.map Query.command = (due phpExtensions files).map (Staged.checkoutCommand scratch) ∧
      forScripts.map Query.command =
        (due scriptExtensions files).map (Staged.checkoutCommand scratch) ∧
      List.Forall₂ (IsLintOf programs linter scratch)
        (((due phpExtensions files).zip forPhp).filter (Reads programs scratch ·)) lints ∧
      findings.lintLog = lints.flatMap (·.2.output) ∧
      (findings.lintOutput.map Prod.fst).Nodup ∧
      (∀ path, findings.lintOutput.lookup path = (lints.reverse.lookup path).map (·.output)) ∧
      findings.syntaxErrorFiles =
        (lints.filter (·.2.status = LintResult.parseErrorStatus)).map Prod.fst ∧
      ((∀ q ∈ checkouts (queriesBetween s s'), SparesLog programs scratch q) →
        s'.tree.find (logKey scratch) = some (.file (Utf8.encode findings.lintLog)) ∧
        (s'.tree.read (scratch.child lintLogName).toText = .ok (Utf8.encode findings.lintLog) ↔
          ∀ d ∈ scratch.way, s'.tree.find d = some .directory) ∧
        (scratch.IsPlain → s'.tree.read (scratch.child lintLogName).toText =
          .ok (Utf8.encode findings.lintLog))) ∧
      ∀ answer, (∀ path ∈ files, IsDue path → WrittenPath.IsRepositoryPath path ∧
          ApartFromLog path ∧ programs.Writes scratch answer path) →
        ∀ q ∈ checkouts (queriesBetween s s'), SparesLog programs scratch q := by
  obtain ⟨s₀, t, hprepare, hphp, hscripts, rfl⟩ := passes_of_run h
  obtain ⟨forPhp, lints, hran, hcommands, hlints, hbooks⟩ :=
    checkEach_php_books (.of_prepare hprepare) hphp
  obtain ⟨forScripts, hran', hcommands', hbooks⟩ := checkEach_script_books hbooks hscripts
  have hall := (ran_prepare hprepare (Findings.fresh scratch)).trans (hran.trans hran')
  have hqueries : checkouts (queriesBetween s s') = checkouts forPhp ++ checkouts forScripts := by
    rw [← checkouts_append]
    exact congrArg checkouts hall.queriesBetween_eq
  refine ⟨checkouts forPhp, checkouts forScripts, lints, hqueries, hcommands, hcommands', hlints,
    ?_, hbooks.accounts.keys, fun path => ?_, hbooks.errors, fun hspares => ?_,
    fun answer hwrites q hq => ?_⟩
  · rw [hbooks.accounts.log, List.flatMap_map]
  · rw [hbooks.accounts.latest, ← List.map_reverse, lookup_map_snd]
  · rw [hqueries] at hspares
    obtain ⟨hphpSpares, hscriptSpares⟩ := List.forall_mem_append.1 hspares
    have hlog := hbooks.log ⟨⟨trivial, hphpSpares⟩, hscriptSpares⟩
    exact ⟨hlog, read_log_iff hlog, fun hp => read_log_of_isPlain hp hlog⟩
  · have hoff := (prepared_of_prepare hprepare).based.off
    have hdue : q.Succeeded programs ∧
        ∃ path, (path ∈ files ∧ IsDue path) ∧ q.command = Staged.checkoutCommand scratch path := by
      rw [hqueries] at hq
      rcases List.mem_append.1 hq with hq | hq
      · obtain ⟨hsucceeded, path, hpath, he⟩ :=
          checkEach_checkouts (php_settles programs linter) hphp hran q hq
        exact ⟨hsucceeded, path, (List.mem_filter.1 hpath).imp_right .inl, he⟩
      · obtain ⟨hsucceeded, path, hpath, he⟩ :=
          checkEach_checkouts script_settles hscripts hran' q hq
        exact ⟨hsucceeded, path, (List.mem_filter.1 hpath).imp_right .inr, he⟩
    obtain ⟨hsucceeded, path, ⟨hmem, hdue⟩, hcommand⟩ := hdue
    obtain ⟨hpath, hapart, hwrites⟩ := hwrites path hmem hdue
    exact sparesLog_of_writes hwrites hpath hapart hoff hcommand hsucceeded

def staleSession : Session :=
  let directory := FileTree.empty.place [Hook.scratchDirectory] .directory (by decide) (by decide)
  { Dialogue.start with
    tree := directory.place [Hook.scratchDirectory, lintLogName]
      (.file (Utf8.encode "from before\n".toList)) (by decide) (by decide) }

def rejectingReplies : Dialogue.Transcript :=
  [checkedOut, Hook.exited 0 "f(1);" .nothing, Hook.exited 255 "Parse error\n" .nothing,
    Hook.exited 0 "" .nothing,
    checkedOut, .notStarted ⟨.notFound, []⟩, .notStarted ⟨.notFound, []⟩,
    checkedOut]

def runWithRepeats : EStateM.Result Fault Session Findings :=
  run (Dialogue.programs rejectingReplies) ⟨"php".toList⟩ (Path.ofText Hook.scratchDirectory)
    ["a.php".toList, "b.php".toList, "c.js".toList, "a.php".toList] staleSession

theorem lint_records_with_repeats :
    ∃ findings s', runWithRepeats = .ok findings s' ∧
      s'.tree.read ((Path.ofText Hook.scratchDirectory).child lintLogName).toText =
        .ok (Utf8.encode "Parse error\nphp: command not found\n".toList) ∧
      findings.lintOutput = [("a.php".toList, "php: command not found\n".toList)] ∧
      findings.syntaxErrorFiles = ["a.php".toList] := by
  have hvalue : (value? runWithRepeats).map
      (fun f => (f.lintLog, f.lintOutput, f.syntaxErrorFiles)) =
        some ("Parse error\nphp: command not found\n".toList,
          [("a.php".toList, "php: command not found\n".toList)], ["a.php".toList]) := by
    decide +kernel
  have hspares : ∀ q ∈ checkouts (queriesBetween staleSession (ending runWithRepeats)),
      SparesLog (Dialogue.programs rejectingReplies) (Path.ofText Hook.scratchDirectory) q := by
    decide +kernel
  obtain ⟨findings, hfindings, hrecords⟩ := Option.map_eq_some_iff.1 hvalue
  obtain ⟨hlog, houtput, herrors⟩ : _ ∧ _ ∧ _ := by simpa only [Prod.mk.injEq] using hrecords
  obtain ⟨s', h⟩ := ok_of_value? hfindings
  rw [h] at hspares
  obtain ⟨_, _, _, _, _, _, _, _, _, _, _, hdisk, _⟩ := lint_records_agree h
  have hplain : (Path.ofText Hook.scratchDirectory).IsPlain := by
    rw [Path.IsPlain]
    decide
  exact ⟨findings, s', h, hlog ▸ (hdisk hspares).2.2 hplain, houtput, herrors⟩

def acceptingReplies : Dialogue.Transcript :=
  [checkedOut, .notStarted ⟨.notFound, []⟩, Hook.exited 0 "No syntax errors\n" .nothing, checkedOut]

/-- A scratch directory whose path leads through the directory of a copy takes its log out of reach when
that directory goes; and git takes the log itself away for a file that belongs below it. -/
theorem lint_log_lost :
    (let scratch := Path.ofText "a/..".toList
     let r := run (Dialogue.programs acceptingReplies) ⟨"php".toList⟩ scratch ["a/x.php".toList]
       Dialogue.start
     (value? r).map (·.lintLog) = some "No syntax errors\n".toList ∧
       ((ending r).tree.read (scratch.child lintLogName).toText).isOk = false) ∧
    (let scratch := Path.ofText Hook.scratchDirectory
     let git := Programs.clearing fun past _ =>
       acceptingReplies[past.length]?.getD Dialogue.unanswered
     let r := run git ⟨"php".toList⟩ scratch ["a.php".toList, "lint.log/x.js".toList] Dialogue.start
     (value? r).map (·.lintLog) = some "No syntax errors\n".toList ∧
       (ending r).tree.find (logKey scratch) = none ∧
       ((ending r).tree.read (scratch.child lintLogName).toText).isOk = false) := by
  decide +kernel

end Gate

end CommitGate
