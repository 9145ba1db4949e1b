import CommitGate.Hook
import CommitGate.Proofs.Session

/-! What the log level can bear on. No step of a run looks at the log or at its level, except to keep or to
drop a record; so two runs that differ in the level alone make the same records, and each keeps those from
its own level on. -/
namespace CommitGate

namespace Session

variable {α β : Type}

def withLog (level : Option Log.Level) (log : List Log.Record) :
    EStateM.Result Fault Session α → EStateM.Result Fault Session α
  | .ok a s => .ok a { s with level, log }
  | .error fault s => .error fault { s with level, log }

theorem withLog_eq_ok {level : Option Log.Level} {log : List Log.Record} {a : α} {s' : Session}
    {r : EStateM.Result Fault Session α} (h : withLog level log r = .ok a s') :
    ∃ t, r = .ok a t ∧ s' = { t with level, log } := by
  cases r with
  | ok b t =>
    cases h
    exact ⟨t, rfl, rfl⟩
  | error fault t => cases h

theorem ending_withLog (level : Option Log.Level) (log : List Log.Record)
    (r : EStateM.Result Fault Session α) :
    ending (withLog level log r) = { ending r with level, log } := by
  cases r <;> rfl

def keptAt (level : Option Log.Level) (records : List Log.Record) : List Log.Record :=
  records.filter fun r => (level.getD .notSet).keeps r.severity

theorem keptAt_append (level : Option Log.Level) (a b : List Log.Record) :
    keptAt level (a ++ b) = keptAt level a ++ keptAt level b := List.filter_append ..

/-- Whatever the log and its level, an action makes the same records and does the same otherwise. It keeps
the records that the level is for. -/
def LogsBlindly (x : Action α) : Prop :=
  ∀ s : Session, ∃ records, ∀ level log,
    x { s with level, log } = withLog level (log ++ keptAt level records) (x s)

theorem logsBlindly_of_silent {x : Action α}
    (h : ∀ s level log, x { s with level, log } = withLog level log (x s)) : LogsBlindly x :=
  fun s => ⟨[], fun level log => by rw [h, keptAt, List.filter_nil, List.append_nil]⟩

namespace LogsBlindly

protected theorem pure (a : α) : LogsBlindly (pure a : Action α) :=
  logsBlindly_of_silent fun _ _ _ => rfl

protected theorem throw (fault : Fault) : LogsBlindly (throw fault : Action α) :=
  logsBlindly_of_silent fun _ _ _ => rfl

protected theorem record (severity : Log.Level) (message : Text) :
    LogsBlindly (record severity message) := by
  refine fun s => ⟨[⟨severity, message⟩], fun level log => ?_⟩
  change EStateM.Result.ok () { s with level, log := logged { s with level, log } severity message } =
    EStateM.Result.ok () { s with level, log := log ++ keptAt level [⟨severity, message⟩] }
  congr 2
  rw [logged, keptAt, List.filter_cons, List.filter_nil]
  split
  · rfl
  · rw [List.append_nil]

protected theorem updateFindings (f : Findings → Findings) : LogsBlindly (updateFindings f) :=
  logsBlindly_of_silent fun _ _ _ => rfl

theorem modifyTree (f : FileTree → FileTree) :
    LogsBlindly (modify fun s => { s with tree := f s.tree } : Action Unit) :=
  logsBlindly_of_silent fun _ _ _ => rfl

protected theorem changeTree (change : FileTree.Change) : LogsBlindly (changeTree change) := by
  refine logsBlindly_of_silent fun s level log => ?_
  simp only [Session.changeTree]
  cases change s.tree with
  | ok _ tree => rfl
  | error fault tree => rfl

protected theorem invoke (programs : Programs) (command : Command) :
    LogsBlindly (invoke programs command) :=
  logsBlindly_of_silent fun _ _ _ => rfl

protected theorem bind {x : Action α} {f : α → Action β} (hx : LogsBlindly x)
    (hf : ∀ a, LogsBlindly (f a)) : LogsBlindly (x >>= f) := by
  intro s
  obtain ⟨first, hfirst⟩ := hx s
  cases h : x s with
  | error fault t =>
    refine ⟨first, fun level log => ?_⟩
    have hlog := hfirst level log
    rw [h] at hlog
    rw [bind_of_error h, bind_of_error hlog]
    rfl
  | ok a t =>
    obtain ⟨second, hsecond⟩ := hf a t
    refine ⟨first ++ second, fun level log => ?_⟩
    have hlog := hfirst level log
    rw [h] at hlog
    rw [bind_of_ok h, bind_of_ok hlog, hsecond, keptAt_append, List.append_assoc]

theorem read {f : Session → Action α} (hf : ∀ s, LogsBlindly (f s))
    (hlog : ∀ s level log, f { s with level, log } = f s) : LogsBlindly (get >>= f) := by
  intro s
  obtain ⟨records, h⟩ := hf s s
  refine ⟨records, fun level log => ?_⟩
  rw [get_bind, get_bind, hlog, h]

protected theorem thenAlways {x : Action α} {y : Action Unit} (hx : LogsBlindly x)
    (hy : LogsBlindly y) : LogsBlindly (thenAlways x y) := by
  intro s
  obtain ⟨first, hfirst⟩ := hx s
  obtain ⟨second, hsecond⟩ := hy (ending (x s))
  refine ⟨first ++ second, fun level log => ?_⟩
  rw [Session.thenAlways, Session.thenAlways, hfirst]
  cases h : x s with
  | ok a t =>
    rw [h] at hsecond
    simp only [withLog, ending] at hsecond ⊢
    rw [hsecond, keptAt_append, List.append_assoc]
    cases y t <;> rfl
  | error fault t =>
    rw [h] at hsecond
    simp only [withLog, ending] at hsecond ⊢
    rw [hsecond, keptAt_append, List.append_assoc]
    cases y t <;> rfl

protected theorem attempt {x : Action α} (hx : LogsBlindly x) : LogsBlindly (attempt x) := by
  intro s
  obtain ⟨records, h⟩ := hx s
  refine ⟨records, fun level log => ?_⟩
  rw [Session.attempt, Session.attempt, h]
  cases x s with
  | ok a t => rfl
  | error fault t => cases fault <;> rfl

end LogsBlindly

end Session

open Session

variable (programs : Programs)

theorem Git.run_logsBlindly (subcommand : Text) (arguments : List Text) :
    LogsBlindly (Git.run programs subcommand arguments) := by
  refine .bind (.invoke programs _) fun response => ?_
  cases response with
  | notStarted failure => exact .throw _
  | completed c =>
    dsimp only
    split
    · split
      · exact .pure _
      · exact .throw _
    · exact .throw _

theorem Git.diffBase_logsBlindly : LogsBlindly (Git.diffBase programs) := by
  refine .bind (.attempt (Git.run_logsBlindly programs _ _)) fun result => ?_
  cases result with
  | ok _ => exact .pure _
  | error _ => exact .bind (Git.run_logsBlindly programs _ _) fun _ => .pure _

theorem Staged.select_logsBlindly (rows : List (Text × Text)) : LogsBlindly (Staged.select rows) := by
  fun_induction Staged.select rows with
  | case1 => exact .pure _
  | case2 _ _ _ _ _ _ _ _ _ _ ih => exact .bind (.record _ _) fun _ => ih
  | case3 _ _ _ _ _ _ _ _ _ _ ih => exact .bind ih fun _ => .pure _
  | case4 => exact .throw _

theorem Staged.list_logsBlindly : LogsBlindly (Staged.list programs) :=
  .bind (Git.diffBase_logsBlindly programs) fun _ =>
    .bind (Git.run_logsBlindly programs _ _) fun _ => Staged.select_logsBlindly _

theorem Staged.remove_logsBlindly (copy scratch : Path) : LogsBlindly (Staged.remove copy scratch) :=
  .bind (.changeTree _) fun _ => .modifyTree (prune · (ownDirectories copy scratch))

theorem Staged.withCopy_logsBlindly {α : Type} (scratch : Path) (path : Text) {work : Path → Action α}
    (hwork : ∀ copy, LogsBlindly (work copy)) :
    LogsBlindly (Staged.withCopy programs scratch path work) := by
  have hcheckout : LogsBlindly (Git.checkout programs scratch path) :=
    .bind (Git.run_logsBlindly programs _ _) fun _ => .pure _
  exact .bind hcheckout fun _ => .thenAlways (hwork _) (Staged.remove_logsBlindly _ _)

namespace Check

theorem readCopy_logsBlindly (path : Text) (copy : Path) : LogsBlindly (readCopy path copy) := by
  refine .read (fun s => ?_) fun _ _ _ => rfl
  cases s.tree.read copy.toText with
  | ok content => exact .pure _
  | error fault => exact .bind (.record _ _) fun _ => .bind (.updateFindings _) fun _ => .pure _

theorem strip?_logsBlindly (linter : Linter) (copy : Path) :
    LogsBlindly (linter.strip? programs copy) := by
  refine .bind (.invoke programs _) fun response => ?_
  cases response with
  | notStarted failure =>
    dsimp only
    split
    · exact .pure _
    · exact .throw _
  | completed c =>
    dsimp only
    split
    · exact .pure _
    · exact .bind (.record _ _) fun _ => .pure _

theorem check_logsBlindly (linter : Linter) (copy : Path) :
    LogsBlindly (linter.check programs copy) := by
  refine .bind (.invoke programs _) fun response => ?_
  cases response with
  | notStarted failure =>
    dsimp only
    split
    · exact .bind (.record _ _) fun _ => .pure _
    · exact .throw _
  | completed c =>
    dsimp only
    split
    · exact .pure _
    · exact .throw _

theorem takeLint_logsBlindly (path : Text) (lint : LintResult) : LogsBlindly (takeLint path lint) := by
  refine .bind (.updateFindings _) fun _ => .read (fun s => ?_) fun _ _ _ => rfl
  refine .bind (.changeTree _) fun _ => ?_
  split
  · exact .bind (.record _ _) fun _ => .updateFindings _
  · exact .pure _

theorem php_logsBlindly (linter : Linter) (path : Text) (copy : Path) :
    LogsBlindly (php programs linter path copy) := by
  refine .bind (readCopy_logsBlindly path copy) fun text? => ?_
  cases text? with
  | none => exact .pure _
  | some text =>
    refine .bind (strip?_logsBlindly programs linter copy) fun stripped => ?_
    have hlint : LogsBlindly (linter.check programs copy >>= takeLint path) :=
      .bind (check_logsBlindly programs linter copy) (takeLint_logsBlindly path)
    dsimp only
    split
    · exact .bind (.updateFindings _) fun _ => hlint
    · exact hlint

theorem script_logsBlindly (path : Text) (copy : Path) : LogsBlindly (script path copy) := by
  refine .bind (readCopy_logsBlindly path copy) fun text? => ?_
  cases text? with
  | none => exact .pure _
  | some text =>
    dsimp only
    split
    · exact .updateFindings _
    · exact .pure _

end Check

namespace Gate

theorem checkEach_logsBlindly (scratch : Path) (extensions : List Text)
    {check : Text → Path → Action Unit} (hcheck : ∀ path copy, LogsBlindly (check path copy))
    (files : List Text) : LogsBlindly (checkEach programs scratch extensions check files) := by
  induction files with
  | nil => exact .pure _
  | cons path rest ih =>
    rw [checkEach]
    split
    · exact .bind (.record _ _) fun _ =>
        .bind (Staged.withCopy_logsBlindly programs scratch path (hcheck path)) fun _ => ih
    · exact ih

theorem run_logsBlindly (linter : Linter) (scratch : Path) (files : List Text) :
    LogsBlindly (run programs linter scratch files) := by
  refine .bind (.bind (.changeTree _) fun _ => .changeTree _) fun _ =>
    .bind (.updateFindings _) fun _ => .bind ?_ fun _ => .bind ?_ fun _ => ?_
  · exact checkEach_logsBlindly programs scratch _ (Check.php_logsBlindly programs linter) files
  · exact checkEach_logsBlindly programs scratch _ Check.script_logsBlindly files
  · exact .read (fun _ => .pure _) fun _ _ _ => rfl

end Gate

namespace Hook

theorem judge_logsBlindly (php : Option Text) : LogsBlindly (judge programs php) := by
  have htrouble : ∀ failure notice, LogsBlindly (gitTrouble failure notice) :=
    fun _ _ => .bind (.record _ _) fun _ => .pure _
  refine .bind (.attempt (Staged.list_logsBlindly programs)) fun listed => ?_
  cases listed with
  | error failure => exact htrouble failure _
  | ok files =>
    refine .bind (.attempt (Gate.run_logsBlindly programs _ _ files)) fun checked => ?_
    cases checked with
    | error failure => exact htrouble failure _
    | ok findings =>
      dsimp only [verdict]
      split
      · exact .throw _
      · exact .pure _

/-- What a run does is what it does once its log is set up, but for the log. -/
theorem run_eq (environment : Environment) (s : Session) :
    ∃ level log, run programs environment s =
      withLog level log (judge programs environment.php s) := by
  obtain ⟨level, log, hlog⟩ := setUpLog_ok environment.logLevel s
  obtain ⟨records, hjudge⟩ := judge_logsBlindly programs environment.php s
  exact ⟨level, _, (bind_of_ok hlog).trans (hjudge level log)⟩

/-- The names by which the variable asks for a level, each with the severity from which on records are
shown then. -/
def thresholds : List (Text × Nat) :=
  [("CRITICAL", 50), ("FATAL", 50), ("ERROR", 40), ("WARNING", 30), ("WARN", 30), ("INFO", 20),
    ("DEBUG", 10), ("NOTSET", 30)].map fun (name, severity) => (name.toList, severity)

/-- The severity from which on records are shown for a value of the variable, if it has one. -/
def threshold (logLevel : Option Text) : Nat :=
  (logLevel.bind fun value => thresholds.lookup (Text.upperCase value)).getD 30

/-- What is kept before all other records: a warning about a value that names no level. -/
def unknownNotice : Option Text → List Log.Record
  | none => []
  | some value =>
    if (thresholds.lookup (Text.upperCase value)).isSome then []
    else [⟨.warning, Log.unknownMessage (Text.upperCase value)⟩]

theorem mem_thresholds_of_ofName? {name : Text} {level : Log.Level}
    (h : Log.Level.ofName? name = some level) : name ∈ thresholds.map Prod.fst := by
  rw [Log.Level.ofName?] at h
  split at h
  · rename_i hname
    exact hname ▸ by decide
  split at h
  · rename_i hname
    exact hname ▸ by decide
  · have hname : level.name = name := by simpa using List.find?_some h
    have hall : ∀ known ∈ [Log.Level.notSet, .debug, .info, .warning, .error, .critical],
        known.name ∈ thresholds.map Prod.fst := by decide
    exact hname ▸ hall level (List.mem_of_find?_eq_some h)

theorem lookup_thresholds (name : Text) :
    thresholds.lookup name = (Log.Level.ofName? name).map (·.effective.number) := by
  by_cases hname : name ∈ thresholds.map Prod.fst
  · have hall : ∀ known ∈ thresholds.map Prod.fst, thresholds.lookup known =
        (Log.Level.ofName? known).map (·.effective.number) := by decide
    exact hall name hname
  · have hlookup : thresholds.lookup name = none := by
      refine List.lookup_eq_none_iff.2 fun row hrow => bne_iff_ne.2 ?_
      rintro rfl
      exact hname (List.mem_map_of_mem hrow)
    have hlevel : Log.Level.ofName? name = none :=
      Option.eq_none_iff_forall_ne_some.2 fun _ h => hname (mem_thresholds_of_ofName? h)
    rw [hlookup, hlevel]
    rfl

theorem threshold_eq (logLevel : Option Text) :
    threshold logLevel = (Log.Setting.ofVariable logLevel).level.effective.number := by
  cases logLevel with
  | none => rfl
  | some value =>
    have hlookup := lookup_thresholds (Text.upperCase value)
    simp only [threshold, Log.Setting.ofVariable, Option.bind_some, hlookup]
    cases Log.Level.ofName? (Text.upperCase value) <;> rfl

theorem setUpLog_of_level_none (logLevel : Option Text) (s : Session) :
    setUpLog logLevel { s with level := none } =
      .ok () { s with
        level := some (Log.Setting.ofVariable logLevel).level,
        log := s.log ++ unknownNotice logLevel } := by
  cases logLevel with
  | none =>
    simp only [unknownNotice, List.append_nil]
    rfl
  | some value =>
    have hlookup := lookup_thresholds (Text.upperCase value)
    simp only [setUpLog, get_bind, unknownNotice, Log.Setting.ofVariable, hlookup, Option.isSome_map]
    cases Log.Level.ofName? (Text.upperCase value) with
    | none => rfl
    | some level =>
      simp only [Option.isSome_some, if_true, List.append_nil]
      rfl

/-- The level bears on nothing but the log: two runs that differ in it end alike, with the same files and
commands, and of one row of records each keeps those from its own level on. -/
theorem level_only_selects (php : Option Text) (s : Session) :
    ∃ records : List Log.Record, ∀ logLevel,
      run programs ⟨php, logLevel⟩ { s with level := none } =
        withLog (some (Log.Setting.ofVariable logLevel).level)
          (s.log ++ unknownNotice logLevel ++
            records.filter fun r => threshold logLevel ≤ r.severity.number)
          (run programs ⟨php, none⟩ { s with level := none }) := by
  obtain ⟨records, hjudge⟩ := judge_logsBlindly programs php s
  have hrun : ∀ logLevel, run programs ⟨php, logLevel⟩ { s with level := none } =
      withLog (some (Log.Setting.ofVariable logLevel).level)
        (s.log ++ unknownNotice logLevel ++
          records.filter fun r => threshold logLevel ≤ r.severity.number)
        (judge programs php s) := by
    intro logLevel
    rw [run, bind_of_ok (setUpLog_of_level_none logLevel s), hjudge, threshold_eq]
    rfl
  refine ⟨records, fun logLevel => ?_⟩
  rw [hrun, hrun none]
  cases judge programs php s <;> rfl

end Hook

end CommitGate
