import CommitGate.Proofs.Settled

/-! One turn of the gate: the inspection of a file whose checkout writes the same content whenever it
succeeds, by programs that go by the command alone otherwise. All that such a turn does is known from the
file and the responses, so it can be done again wherever the scratch directory is settled for the file. -/
namespace CommitGate.Gate

open Session Check

variable {programs : Programs} {answer : Command → Reply} {linter : Linter} {scratch copy : Path}
  {path : Text} {s s' : Session} {t u t' : FileTree} {content : Bytes} {log : Option Bytes}

def LogIs (scratch : Path) (t : FileTree) (log : Option Bytes) : Prop :=
  t.find (logKey scratch) = log.map Entry.file

theorem exists_logIs (h : t.find (logKey scratch) ≠ some .directory) : ∃ log, LogIs scratch t log := by
  cases hfind : t.find (logKey scratch) with
  | none => exact ⟨none, hfind⟩
  | some e =>
    cases e with
    | file content => exact ⟨some content, hfind⟩
    | directory => exact absurd hfind h

theorem LogIs.no_directory (h : LogIs scratch t log) :
    t.find (logKey scratch) ≠ some .directory := by
  rw [h]
  cases log <;> simp

def adds (answer : Command → Reply) (linter : Linter) (scratch : Path) (path : Text) :
    Findings → Findings :=
  if hasExtension phpExtensions path then
    phpAdds answer linter (scratch.child path) (answer (Staged.checkoutCommand scratch path)).left path
  else scriptAdds (answer (Staged.checkoutCommand scratch path)).left path

def asks (linter : Linter) (scratch : Path) (path : Text) : List Command :=
  Staged.checkoutCommand scratch path ::
    if hasExtension phpExtensions path then
      [linter.stripCommand (scratch.child path), linter.lintCommand (scratch.child path)]
    else []

/-- What the lint log says after the inspection of a file. A copy that belongs below the log takes it away. -/
def logAfter (answer : Command → Reply) (linter : Linter) (scratch : Path) (path : Text)
    (log : Option Bytes) : Option Bytes :=
  if ApartFromLog path then
    if hasExtension phpExtensions path then
      match linter.lintedBy (answer (linter.lintCommand (scratch.child path))).response with
      | .ok lint => some (log.getD [] ++ Utf8.encode lint.output)
      | .error _ => log
    else log
  else none

theorem adds_scratch (path : Text) (f : Findings) :
    (adds answer linter scratch path f).scratch = f.scratch := by
  rw [adds]
  split
  · rw [phpAdds_additive scratch f]
    rfl
  · rw [scriptAdds_additive scratch f]
    rfl

section Replaced

variable (hpath : WrittenPath.IsRepositoryPath path) (h : t.Replaced u (scratch.child path) content)

theorem read_of_replaced (h : t.Replaced u copy content) : u.read copy.toText = .ok content :=
  FileTree.read_of_find (FileTree.locate_eq_ok_iff.2 ⟨h.way, rfl⟩) h.file

include hpath h

theorem directory_of_replaced : u.HasDirectory scratch :=
  hasDirectory_of_way (hpath.leadsOn scratch) (WrittenPath.steps_ne_nil path) h.way

theorem place_off_of_replaced : (scratch.child path).place ∉ scratch.way := by
  intro hmem
  cases (h.way _ ((mem_copy_way hpath).2 (.inl hmem))).symm.trans h.file

omit hpath in
theorem place_beside_of_replaced (hdue : IsDue path) :
    (scratch.child path).place ≠ logKey scratch := by
  have hl : u.locate (scratch.child path).toText = .ok (scratch.child path).place :=
    FileTree.locate_eq_ok_iff.2 ⟨h.way, rfl⟩
  rcases hdue with hphp | hscript
  · exact place_ne_logKey phpExtensions_apart hphp _ hl
  · exact place_ne_logKey scriptExtensions_apart hscript _ hl

/-- The removal of a copy completes its visit, if the check has changed no more than what the log says. -/
theorem visited_of_replaced {u' : FileTree} (hoff : logKey scratch ∉ scratch.way)
    (hsame : u' = u ∨ ApartFromLog path ∧ ∀ k, k ≠ logKey scratch → u'.find k = u.find k) :
    ∃ t', Staged.removed (scratch.child path) scratch u' = .ok t' ∧
      Visited scratch path t u' t' := by
  have hkept : ∀ k, k ≠ logKey scratch ∨ k = (scratch.child path).place ∨
      k ∈ (scratch.child path).way → u'.find k = u.find k := by
    intro k hk
    rcases hsame with rfl | ⟨hapart, hsame⟩
    · rfl
    refine hsame k ?_
    have hplace : logKey scratch ≠ (scratch.child path).place := by
      rw [copy_place_eq hpath]
      have hpos := List.length_pos_iff.2 (WrittenPath.steps_ne_nil path)
      exact (station_ne_logKey hapart hpos le_rfl).symm
    rintro rfl
    rcases hk with hk | hk | hk
    · exact hk rfl
    · exact hplace hk
    · exact (find_log_of_replaced hpath h hapart hoff).1 hk
  have hfile : u'.find (scratch.child path).place = some (.file content) := by
    rw [hkept _ (.inr (.inl rfl)), h.file]
  have hway : ∀ d ∈ (scratch.child path).way, u'.find d = some .directory := by
    intro d hd
    rw [hkept d (.inr (.inr hd)), h.way d hd]
  obtain ⟨t', hremoved, hlacks⟩ := Staged.removed_steps (hpath.leadsOn scratch)
    (WrittenPath.steps_ne_nil path) hway (by simp [hfile])
  refine ⟨t', hremoved, ⟨content, hfile⟩, hway, fun k hbelow hk hlog => ?_, hlacks⟩
  rw [hkept k (.inl hlog), h.kept k hbelow hk]

end Replaced

section Checks

variable (hanswer : programs.AnswerBy answer)

include hanswer

theorem lintable_of_php (h : php programs linter path copy s = .ok () s')
    (hread : s.tree.read copy.toText = .ok content) :
    Lintable answer linter copy ∧ ∃ more tree,
      s.tree.append (s.findings.scratch.child lintLogName).toText more = .ok tree := by
  obtain ⟨queries, _, hrun⟩ := php_run programs linter path copy s
  rw [h] at hrun
  cases hrun with
  | unreadable hr _ => cases hread.symm.trans hr
  | through _ hs hl happend _ =>
    rw [stripQuery_response hanswer] at hs
    rw [lintQuery_response hanswer] at hl
    exact ⟨⟨by rw [hs]; rfl, by rw [hl]; rfl⟩, _, _, happend⟩

theorem checkFor_adds (log : Option Bytes)
    (hleft : (answer (Staged.checkoutCommand scratch path)).left = .file content)
    (hscratch : s.findings.scratch = scratch) (hdirectory : s.tree.HasDirectory scratch)
    (hread : s.tree.read (scratch.child path).toText = .ok content)
    (hphp : hasExtension phpExtensions path →
      Lintable answer linter (scratch.child path) ∧ ApartFromLog path ∧ LogIs scratch s.tree log) :
    ∃ s', checkFor programs linter path (scratch.child path) s = .ok () s' ∧
      s'.findings = adds answer linter scratch path s.findings ∧
      (s'.tree = s.tree ∨
        ApartFromLog path ∧ ∀ k, k ≠ logKey scratch → s'.tree.find k = s.tree.find k) ∧
      (ApartFromLog path → LogIs scratch s.tree log →
        LogIs scratch s'.tree (logAfter answer linter scratch path log)) := by
  by_cases hkind : hasExtension phpExtensions path
  · obtain ⟨⟨hstrip, hlint⟩, hapart, hlog⟩ := hphp hkind
    obtain ⟨stripped, hs⟩ := exists_of_isOk hstrip
    obtain ⟨lint, hl⟩ := exists_of_isOk hlint
    obtain ⟨tree, written, happend, hfind⟩ :=
      exists_append hdirectory hlog.no_directory (Utf8.encode lint.output)
    have happend' := happend
    rw [← hscratch] at happend'
    obtain ⟨s', h, hfound, rfl⟩ := php_readable hanswer hread hs hl happend'
    refine ⟨s', ?_, ?_, .inr ⟨hapart, fun k hk => by rw [hfind, if_neg hk]⟩, fun _ _ => ?_⟩
    · rw [checkFor_php _ linter hkind, h]
    · rw [hfound, adds, if_pos hkind, hleft]
      simp only [phpAdds, hs, hl]
    · rw [logAfter, if_pos hapart, if_pos hkind, hl]
      exact append_log log happend hlog
  · rw [checkFor_script _ linter hkind]
    refine ⟨_, script_readable path hread, ?_, .inl rfl, fun hapart hlog => ?_⟩
    · rw [adds, if_neg hkind, hleft]
      rfl
    · rw [logAfter, if_pos hapart, if_neg hkind]
      exact hlog

end Checks

/-- A file as git lists it, of a kind that is checked; its checkout is as good each time. -/
structure Steady (programs : Programs) (answer : Command → Reply) (scratch : Path) (path : Text) :
    Prop where
  repository : WrittenPath.IsRepositoryPath path
  due : IsDue path
  writes : programs.Writes scratch answer path

/-- A copy's place is none that the path of the scratch directory leads through, nor that of the lint log. -/
structure Beside (scratch : Path) (path : Text) : Prop where
  off : (scratch.child path).place ∉ scratch.way
  log : (scratch.child path).place ≠ logKey scratch

/-- What it takes to inspect a file a second time, with the log as it was before the first time. -/
structure Repeatable (programs : Programs) (answer : Command → Reply) (linter : Linter)
    (scratch : Path) (path : Text) (log : Option Bytes) : Prop where
  succeeded : ∃ q : Query, q.command = Staged.checkoutCommand scratch path ∧ q.Succeeded programs ∧
    LogIs scratch q.moment.tree log
  legible : Legible answer scratch path
  lintable : hasExtension phpExtensions path →
    Lintable answer linter (scratch.child path) ∧ ApartFromLog path

structure Turn (answer : Command → Reply) (linter : Linter) (scratch : Path) (path : Text)
    (s s' : Session) : Prop where
  visited : ∃ u, Visited scratch path s.tree u s'.tree
  found : s'.findings = adds answer linter scratch path s.findings
  asked : s'.commands = s.commands ++ asks linter scratch path
  log : ∀ log, LogIs scratch s.tree log →
    LogIs scratch s'.tree (logAfter answer linter scratch path log)

theorem map_command_queriesFrom (past more : List Invocation) :
    (queriesFrom past more).map Query.command = more.map Invocation.command := by
  induction more generalizing past with
  | nil => rfl
  | cons now rest ih => rw [queriesFrom, List.map_cons, List.map_cons, ih]

theorem commands_of_ran {queries : List Query} (h : Ran s s' queries) :
    s'.commands = s.commands ++ queries.map Query.command := by
  obtain ⟨more, hmore, rfl⟩ := h
  rw [commands, commands, hmore, List.map_append, map_command_queriesFrom]

theorem map_command_rowQueries {q : Query} (hq : q.command = Staged.checkoutCommand scratch path)
    (hread : (q.after programs).tree.read (scratch.child path).toText = .ok content) :
    (rowQueries programs linter scratch (path, q)).map Query.command = asks linter scratch path := by
  have hok : ((q.after programs).tree.read (scratch.child path).toText).isOk := by
    rw [hread]
    rfl
  rw [rowQueries, linterQueries, asks, List.map_cons, hq]
  by_cases hphp : hasExtension phpExtensions path
  · rw [if_pos ⟨hphp, hok⟩, if_pos hphp]
    rfl
  · rw [if_neg fun h => hphp h.1, if_neg hphp]
    rfl

theorem commands_of_inspect
    (h : inspect programs scratch (checkFor programs linter) path s = .ok () s')
    (hread : ((checkoutQuery scratch path s).after programs).tree.read (scratch.child path).toText =
      .ok content) :
    s'.commands = s.commands ++ asks linter scratch path := by
  obtain ⟨queries, hran, _, hall⟩ := inspect_queries programs linter scratch path s
  rw [hall s' h, h] at hran
  exact (commands_of_ran hran).trans (congrArg _ (map_command_rowQueries rfl hread))

theorem lintable_of_checkFor (hanswer : programs.AnswerBy answer)
    (hpath : WrittenPath.IsRepositoryPath path)
    (hreplaced : t.Replaced s.tree (scratch.child path) content)
    (hscratch : s.findings.scratch = scratch)
    (h : checkFor programs linter path (scratch.child path) s = .ok () s') :
    hasExtension phpExtensions path →
      Lintable answer linter (scratch.child path) ∧ ApartFromLog path := by
  intro hphp
  rw [checkFor_php _ linter hphp] at h
  obtain ⟨hlintable, more, tree, happend⟩ := lintable_of_php hanswer h (read_of_replaced hreplaced)
  refine ⟨hlintable, fun hbelow => ?_⟩
  obtain ⟨rest, hsteps⟩ := List.head?_eq_some_iff.1 hbelow
  have hstation : scratch.station (WrittenPath.steps path) 1 = logKey scratch := by
    rw [hsteps]
    rfl
  have hwithout : s.tree.find (logKey scratch) ≠ some .directory := by
    rw [hscratch] at happend
    obtain ⟨_, hwrite⟩ := FileTree.write_of_append happend
    obtain ⟨key, hl, hfree, _⟩ := FileTree.find_of_write hwrite
    rwa [locate_eq_logKey hl] at hfree
  have hrest : rest ≠ [] := by
    rintro rfl
    have hplace : (scratch.child path).place = logKey scratch := by
      rw [copy_place_eq hpath, ← hstation, hsteps]
      rfl
    exact place_beside_of_replaced hreplaced (.inl hphp) hplace
  apply hwithout
  rw [← hstation]
  apply hreplaced.way
  have hpos := List.length_pos_iff.2 hrest
  exact (mem_copy_way hpath).2 (.inr ⟨1, by rw [hsteps, List.length_cons]; omega, rfl⟩)

/-- An inspection that comes to its end is a turn, and what it takes for another one was there. -/
theorem turn_of_inspect (hanswer : programs.AnswerBy answer)
    (hsteady : Steady programs answer scratch path) (hbased : Based scratch s.tree)
    (hscratch : s.findings.scratch = scratch)
    (h : inspect programs scratch (checkFor programs linter) path s = .ok () s') :
    Beside scratch path ∧ Turn answer linter scratch path s s' ∧
      ∀ log, LogIs scratch s.tree log → Repeatable programs answer linter scratch path log := by
  obtain ⟨hpath, hdue, hwrites⟩ := hsteady
  have hsucceeded : (checkoutQuery scratch path s).Succeeded programs := inspect_succeeded h
  obtain ⟨c, content, hreply, hresponse, hreplaced⟩ := hwrites.written _ rfl hsucceeded
  obtain ⟨output, hm⟩ := inspect_meaning h
  have hlegible : Legible answer scratch path := by
    rw [hresponse] at hm
    rw [Legible, show answer (Staged.checkoutCommand scratch path) = _ from hreply, Reply.response, hm]
    rfl
  have hleft : (answer (Staged.checkoutCommand scratch path)).left = .file content :=
    congrArg Reply.left hreply
  have hcommands := commands_of_inspect h (read_of_replaced hreplaced)
  obtain ⟨u, v, tree, hfindings, hmoment, hcheck, hremoved, rfl⟩ := inspect_steps h
  have htree : ((checkoutQuery scratch path s).after programs).tree = u.tree :=
    (congrArg Moment.tree hmoment).symm
  change s.tree.Replaced _ _ _ at hreplaced
  rw [htree] at hreplaced
  have hscratch' : u.findings.scratch = scratch := hfindings ▸ hscratch
  have hlintable := lintable_of_checkFor hanswer hpath hreplaced hscratch' hcheck
  have hlogs : ∀ log, ApartFromLog path → LogIs scratch s.tree log → LogIs scratch u.tree log :=
    fun log hapart hlog =>
      (find_log_of_replaced hpath hreplaced hapart hbased.off).2.trans hlog
  have hchecked : ∀ log, LogIs scratch s.tree log → _ := fun log hlog =>
    checkFor_adds hanswer log hleft hscratch' (directory_of_replaced hpath hreplaced)
      (read_of_replaced hreplaced) fun hphp =>
        ⟨(hlintable hphp).1, (hlintable hphp).2, hlogs log (hlintable hphp).2 hlog⟩
  obtain ⟨log₀, hlog₀⟩ := exists_logIs hbased.log
  obtain ⟨v', hcheck', hfound, hsame, _⟩ := hchecked log₀ hlog₀
  cases hcheck.symm.trans hcheck'
  obtain ⟨tree', hremoved', hvisited⟩ := visited_of_replaced hpath hreplaced hbased.off hsame
  cases hremoved.symm.trans hremoved'
  refine ⟨⟨place_off_of_replaced hpath hreplaced, place_beside_of_replaced hreplaced hdue⟩,
    ⟨⟨v.tree, hvisited⟩, hfindings ▸ hfound, hcommands, fun log hlog => ?_⟩,
    fun log hlog => ⟨⟨checkoutQuery scratch path s, rfl, hsucceeded, hlog⟩, hlegible, hlintable⟩⟩
  by_cases hapart : ApartFromLog path
  · obtain ⟨v', hcheck', _, _, hafter⟩ := hchecked log hlog
    cases hcheck.symm.trans hcheck'
    exact (hvisited.find_log hapart).trans (hafter hapart (hlogs log hapart hlog))
  · rw [logAfter, if_neg hapart]
    exact hvisited.log_gone hpath hbased hapart

theorem Repeatable.inspect (h : Repeatable programs answer linter scratch path log)
    (hanswer : programs.AnswerBy answer) (hsteady : Steady programs answer scratch path)
    (hbased : Based scratch s.tree) (hlog : LogIs scratch s.tree log)
    (hsettled : Settled scratch path s.tree) (hscratch : s.findings.scratch = scratch) :
    ∃ s', inspect programs scratch (checkFor programs linter) path s = .ok () s' := by
  obtain ⟨hpath, _, hwrites⟩ := hsteady
  obtain ⟨q, hcommand, hdone, hlog'⟩ := h.succeeded
  have hsucceeded : (checkoutQuery scratch path s).Succeeded programs := by
    refine hwrites.again q _ hcommand hcommand.symm (fun d hd hfile => ?_) (fun hd => ?_) hdone
    · obtain rfl := hsettled.way_free hpath hbased d hd hfile
      obtain ⟨old, hold⟩ := hfile
      exact ⟨old, (hlog'.trans hlog.symm).trans hold⟩
    · cases hsettled.copy.symm.trans hd
  obtain ⟨c, content, hreply, hresponse, hreplaced⟩ := hwrites.written _ rfl hsucceeded
  have hleft : (answer (Staged.checkoutCommand scratch path)).left = .file content :=
    congrArg Reply.left hreply
  obtain ⟨output, hm⟩ := exists_of_isOk h.legible
  obtain ⟨u, hfindings, hmoment, _, he⟩ :=
    inspect_eq programs scratch (checkFor programs linter) path s
  have hmeaning : Git.meaning Command.checkoutWord
      ((checkoutQuery scratch path s).response programs) = .ok output := by
    rw [hresponse, ← hm, show answer (Staged.checkoutCommand scratch path) = _ from hreply]
    rfl
  have htree : ((checkoutQuery scratch path s).after programs).tree = u.tree :=
    (congrArg Moment.tree hmoment).symm
  change s.tree.Replaced _ _ _ at hreplaced
  rw [htree] at hreplaced
  obtain ⟨v, hcheck, _, hsame, _⟩ := checkFor_adds hanswer log hleft (hfindings ▸ hscratch)
    (directory_of_replaced hpath hreplaced) (read_of_replaced hreplaced) fun hphp =>
      ⟨(h.lintable hphp).1, (h.lintable hphp).2,
        (find_log_of_replaced hpath hreplaced (h.lintable hphp).2 hbased.off).2.trans hlog⟩
  obtain ⟨tree, hremoved, _⟩ := visited_of_replaced hpath hreplaced hbased.off hsame
  refine ⟨{ v with tree }, ?_⟩
  rw [he, hmeaning]
  dsimp only
  rw [thenAlways, hcheck]
  dsimp only
  rw [Staged.remove_eq, hremoved]

end CommitGate.Gate
