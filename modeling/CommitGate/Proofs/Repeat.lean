import CommitGate.Proofs.Turn

/-! Runs of the gate one after the other. When the programs go by the command alone and a checkout writes
the same content whenever it succeeds, a run that comes to its end settles the scratch directory for all its
files, so the next run over them does and finds the same and leaves the tree as it was. What stood in the way
of a copy at first may be cleared away by git. -/
namespace CommitGate.Gate

open Session Check

variable {programs : Programs} {answer : Command → Reply} {linter : Linter} {scratch : Path}
  {path : Text} {files : List Text} {rows : List (Text × Query)} {s s' t : Session}
  {before : FileTree}

def logOf (answer : Command → Reply) (linter : Linter) (scratch : Path) (paths : List Text) :
    Option Bytes :=
  paths.foldl (fun log path => logAfter answer linter scratch path log) (some [])

structure Course (answer : Command → Reply) (linter : Linter) (scratch : Path) (paths : List Text)
    (s s' : Session) : Prop where
  based : Based scratch s'.tree
  log : LogIs scratch s'.tree (logOf answer linter scratch paths)
  found : s'.findings = paths.foldl (fun f path => adds answer linter scratch path f) s.findings
  asked : s'.commands = s.commands ++ paths.flatMap (asks linter scratch)
  scratch : s'.findings.scratch = scratch

theorem Course.start {s₀ : Session} (h : Prepared scratch s₀.tree) :
    Course answer linter scratch [] { s₀ with findings := Findings.fresh scratch }
      { s₀ with findings := Findings.fresh scratch } where
  based := h.based
  log := h.log
  found := rfl
  asked := (List.append_nil _).symm
  scratch := rfl

theorem Course.turn {paths : List Text} (h : Course answer linter scratch paths s t)
    (hpath : WrittenPath.IsRepositoryPath path) (hturn : Turn answer linter scratch path t s') :
    Course answer linter scratch (paths ++ [path]) s s' := by
  have hlog := hturn.log _ h.log
  obtain ⟨u, hvisited⟩ := hturn.visited
  constructor
  · exact hvisited.based hpath h.based hlog.no_directory
  · rw [logOf, List.foldl_append]
    exact hlog
  · rw [hturn.found, h.found, List.foldl_append]
    rfl
  · rw [hturn.asked, h.asked, List.flatMap_append, List.flatMap_singleton, List.append_assoc]
  · rw [hturn.found, adds_scratch, h.scratch]

section Walk

variable (hanswer : programs.AnswerBy answer) {s₀ : Session} (hs : Prepared scratch s₀.tree)
  (h : Walked programs linter scratch { s₀ with findings := Findings.fresh scratch } rows t)
  (hsteady : ∀ path ∈ rows.map Prod.fst, Steady programs answer scratch path)

include hanswer hs h hsteady

theorem Walked.course :
    Course answer linter scratch (rows.map Prod.fst)
      { s₀ with findings := Findings.fresh scratch } t := by
  induction h with
  | start => exact .start hs
  | next _ hi ih =>
    rw [List.map_append] at hsteady ⊢
    obtain ⟨hbefore, hlast⟩ := List.forall_mem_append.1 hsteady
    have hlast := hlast _ (List.mem_singleton_self _)
    have hcourse := ih hbefore
    obtain ⟨_, hturn, _⟩ := turn_of_inspect hanswer hlast hcourse.based hcourse.scratch hi
    exact hcourse.turn hlast.repository hturn

/-- An inspection at the end of a walk: it is a turn, and the ones before it are a course. -/
structure Closing (programs : Programs) (answer : Command → Reply) (linter : Linter) (scratch : Path)
    (paths : List Text) (path : Text) (s t t' : Session) : Prop where
  before : ∀ p ∈ paths, Steady programs answer scratch p
  steady : Steady programs answer scratch path
  course : Course answer linter scratch paths s t
  beside : Beside scratch path
  turn : Turn answer linter scratch path t t'
  again : ∀ log, LogIs scratch t.tree log → Repeatable programs answer linter scratch path log

omit hsteady in
theorem Walked.closing {t' : Session}
    (hi : inspect programs scratch (checkFor programs linter) path t = .ok () t')
    (hsteady : ∀ p ∈ rows.map Prod.fst ++ [path], Steady programs answer scratch p) :
    Closing programs answer linter scratch (rows.map Prod.fst) path
      { s₀ with findings := Findings.fresh scratch } t t' := by
  obtain ⟨hbefore, hlast⟩ := List.forall_mem_append.1 hsteady
  have hlast := hlast _ (List.mem_singleton_self _)
  have hcourse := h.course hanswer hs hbefore
  obtain ⟨hbeside, hturn, hagain⟩ :=
    turn_of_inspect hanswer hlast hcourse.based hcourse.scratch hi
  exact ⟨hbefore, hlast, hcourse, hbeside, hturn, hagain⟩

theorem Walked.settles :
    ∀ path ∈ rows.map Prod.fst, Beside scratch path ∧ Settled scratch path t.tree := by
  induction h with
  | start => simp
  | next hwalk hi ih =>
    rw [List.map_append] at hsteady ⊢
    have hlast := hwalk.closing hanswer hs hi hsteady
    obtain ⟨u, hvisited⟩ := hlast.turn.visited
    refine List.forall_mem_append.2 ⟨fun other hother => ?_, fun path hpath => ?_⟩
    · obtain ⟨hbeside, hsettled⟩ := ih hlast.before other hother
      exact ⟨hbeside, hsettled.visited hbeside.off hbeside.log hlast.steady.repository
        hlast.course.based hvisited⟩
    · rw [List.mem_singleton.1 hpath]
      exact ⟨hlast.beside, hvisited.settled hlast.steady.repository⟩

theorem Walked.repeatable :
    ∀ done path, done ++ [path] <+: rows.map Prod.fst →
      Repeatable programs answer linter scratch path (logOf answer linter scratch done) := by
  induction h with
  | start =>
    intro done path hprefix
    simp at hprefix
  | next hwalk hi ih =>
    rw [List.map_append] at hsteady ⊢
    have hlast := hwalk.closing hanswer hs hi hsteady
    intro done path hprefix
    rcases List.prefix_concat_iff.1 hprefix with he | hprefix
    · obtain ⟨rfl, hpath⟩ := List.append_inj' he rfl
      rw [List.singleton_inj.1 hpath]
      exact hlast.again _ hlast.course.log
    · exact ih hlast.before done path hprefix

/-- A walk over files for which the scratch directory is settled changes nothing but the log and the
directories that the path of the scratch directory leads through. -/
theorem Walked.alike
    (hsettled : ∀ path ∈ rows.map Prod.fst, Beside scratch path ∧ Settled scratch path before)
    (halike : Alike scratch before s₀.tree) : Alike scratch before t.tree := by
  induction h with
  | start => exact halike
  | next hwalk hi ih =>
    rw [List.map_append] at hsteady hsettled
    have hlast := hwalk.closing hanswer hs hi hsteady
    obtain ⟨u, hvisited⟩ := hlast.turn.visited
    obtain ⟨hsettledBefore, hsettledLast⟩ := List.forall_mem_append.1 hsettled
    obtain ⟨hbeside, hsettledLast⟩ := hsettledLast _ (List.mem_singleton_self _)
    have halike' := ih hlast.before hsettledBefore
    have hsettled' := hsettledLast.of_alike hbeside.off hbeside.log halike'
    exact halike'.trans (hsettled'.alike hlast.steady.repository hlast.course.based hvisited)

end Walk

theorem Based.of_find {t t' : FileTree} (h : Based scratch t) (hfind : ∀ k, t'.find k = t.find k) :
    Based scratch t' where
  place := by rw [hfind, h.place]
  way d hd := by
    rw [hfind]
    exact h.way d hd
  log := by
    rw [hfind]
    exact h.log
  off := h.off

theorem Based.alike_prepared {s₀ : Session} (h : Based scratch s.tree)
    (hprepare : prepare scratch s = .ok () s₀) : Alike scratch s.tree s₀.tree := by
  intro k hway hlog
  by_cases hplace : k = scratch.place
  · rw [hplace, (prepared_of_prepare hprepare).directory.place, h.place]
  · exact prepare_elsewhere hprepare hplace hway hlog

/-- Two walks over the same files leave the same tree if the second one starts where the first one ended, but
for a preparation. -/
theorem Walked.same_tree {rows' : List (Text × Query)} {s₀ r₀ r' : Session}
    (hanswer : programs.AnswerBy answer) (hs : Prepared scratch s₀.tree)
    (h : Walked programs linter scratch { s₀ with findings := Findings.fresh scratch } rows s')
    (hr : Prepared scratch r₀.tree)
    (h' : Walked programs linter scratch { r₀ with findings := Findings.fresh scratch } rows' r')
    (hrows : rows'.map Prod.fst = rows.map Prod.fst)
    (hsteady : ∀ path ∈ rows.map Prod.fst, Steady programs answer scratch path)
    (halike : Alike scratch s'.tree r₀.tree) (key : Key) : r'.tree.find key = s'.tree.find key := by
  have hsteady' : ∀ path ∈ rows'.map Prod.fst, Steady programs answer scratch path := hrows ▸ hsteady
  have hsettled := h.settles hanswer hs hsteady
  by_cases hlog : key = logKey scratch
  · have hend := (h.course hanswer hs hsteady).log
    have hend' := (h'.course hanswer hr hsteady').log
    rw [LogIs] at hend hend'
    rw [hlog, hend', hrows, hend]
  cases h with
  | start =>
    cases h' with
    | start =>
      by_cases hway : key ∈ scratch.way
      · exact (hr.directory.way key hway).trans (hs.directory.way key hway).symm
      · exact halike key hway hlog
    | next _ _ => simp at hrows
  | next hwalk hi =>
    cases h' with
    | start => simp at hrows
    | next hwalk' hi' =>
      rw [List.map_append, List.map_append] at hrows
      obtain ⟨hmore, hpath⟩ := List.append_inj' hrows rfl
      obtain rfl := List.singleton_inj.1 hpath
      rw [List.map_append] at hsteady hsteady' hsettled
      have hlast := hwalk.closing hanswer hs hi hsteady
      have hlast' := hwalk'.closing hanswer hr hi' hsteady'
      obtain ⟨u, hvisited⟩ := hlast.turn.visited
      obtain ⟨u', hvisited'⟩ := hlast'.turn.visited
      have halike' := hwalk'.alike hanswer hr hlast'.before
        (fun p hp => hsettled p (List.mem_append_left _ (hmore ▸ hp))) halike
      exact hvisited.again hlast.steady.repository hvisited' halike' hlog

/-- Runs may be repeated. If a run comes to its end, the next one over the same files, from the tree that it
has left, comes to its end too, with the same findings and by the same commands, and leaves that tree. The
scratch directory may have held anything before the first run. -/
theorem repeat_run_is_identical {findings : Findings} (hanswer : programs.AnswerBy answer)
    (hpaths : ∀ path ∈ files, IsDue path → WrittenPath.IsRepositoryPath path)
    (hwrites : ∀ path ∈ files, IsDue path → programs.Writes scratch answer path)
    (h : run programs linter scratch files s = .ok findings s') :
    ∃ commands, s'.commands = s.commands ++ commands ∧
      ∀ r : Session, (∀ key, r.tree.find key = s'.tree.find key) →
        ∃ r', run programs linter scratch files r = .ok findings r' ∧
          r'.commands = r.commands ++ commands ∧ ∀ key, r'.tree.find key = s'.tree.find key := by
  have hsteady : ∀ path ∈ agenda files, Steady programs answer scratch path := by
    intro path hp
    obtain ⟨hmem, hdue⟩ := mem_agenda.1 hp
    exact ⟨hpaths path hmem hdue, hdue, hwrites path hmem hdue⟩
  have hrun := gate_run programs linter scratch files s
  rw [h] at hrun
  cases hrun with
  | @through s₀ _ rows hprepare hwalk hrows =>
    have hprepared := prepared_of_prepare hprepare
    rw [← hrows] at hsteady
    have hcourse := hwalk.course hanswer hprepared hsteady
    have hsettled := hwalk.settles hanswer hprepared hsteady
    have hrepeatable := hwalk.repeatable hanswer hprepared hsteady
    have hstart := commands_of_ran (ran_prepare hprepare (Findings.fresh scratch))
    refine ⟨(agenda files).flatMap (asks linter scratch), ?_, fun r hr => ?_⟩
    · rw [hcourse.asked, hstart, hrows]
      simp
    have hbased : Based scratch r.tree := hcourse.based.of_find hr
    have halike : ∀ r₀ : Session, prepare scratch r = .ok () r₀ →
        Alike scratch s'.tree r₀.tree := by
      intro r₀ hprepare'
      exact Alike.trans (fun k _ _ => hr k) (hbased.alike_prepared hprepare')
    have hagain := gate_run programs linter scratch files r
    generalize run programs linter scratch files r = result at hagain ⊢
    cases hagain with
    | unprepared hrefused =>
      obtain ⟨r₀, hprepare'⟩ := hbased.prepare_ok
      cases hrefused.symm.trans hprepare'
    | @through r₀ r' rows' hprepare' hwalk' hrows' =>
      have hprepared' := prepared_of_prepare hprepare'
      have hsame : rows'.map Prod.fst = rows.map Prod.fst := hrows'.trans hrows.symm
      have hcourse' := hwalk'.course hanswer hprepared' (hsame ▸ hsteady)
      have hstart' := commands_of_ran (ran_prepare hprepare' (Findings.fresh scratch))
      have hfound : r'.findings = s'.findings := by
        rw [hcourse'.found, hcourse.found, hsame]
      refine ⟨r', by rw [hfound], ?_, ?_⟩
      · rw [hcourse'.asked, hstart', hrows']
        simp
      · exact hwalk.same_tree hanswer hprepared hprepared' hwalk' hsame hsteady (halike r₀ hprepare')
    | @stopped r₀ t _ rows' path rest fault hprepare' hwalk' hfiles' hstop =>
      have hprepared' := prepared_of_prepare hprepare'
      rw [← hrows] at hfiles'
      have hmem : path ∈ rows.map Prod.fst := by
        rw [hfiles']
        exact List.mem_append_right _ List.mem_cons_self
      have hbefore : ∀ p ∈ rows'.map Prod.fst, p ∈ rows.map Prod.fst := by
        intro p hp
        rw [hfiles']
        exact List.mem_append_left _ hp
      have hpart : rows'.map Prod.fst ++ [path] <+: rows.map Prod.fst := by
        rw [hfiles']
        exact (List.prefix_append_right_inj _).2 (List.prefix_append [path] rest)
      have hsteady' := fun p hp => hsteady p (hbefore p hp)
      have hcourse' := hwalk'.course hanswer hprepared' hsteady'
      have halike' := hwalk'.alike hanswer hprepared' hsteady' (fun p hp => hsettled p (hbefore p hp))
        (halike r₀ hprepare')
      obtain ⟨hbeside, hpath⟩ := hsettled path hmem
      obtain ⟨t', hend⟩ := (hrepeatable _ path hpart).inspect hanswer (hsteady path hmem)
        hcourse'.based hcourse'.log (hpath.of_alike hbeside.off hbeside.log halike') hcourse'.scratch
      cases hstop.symm.trans hend

def staleTree : FileTree :=
  let nested := FileTree.Change.ending
    (FileTree.deposit ".validate_pre_commit/b.js/old".toList [] FileTree.empty)
  FileTree.Change.ending (FileTree.deposit ".validate_pre_commit/lib".toList [] nested)

/-- Git clears the way, and takes the lint log away for the last of the files. -/
theorem repeat_run_with_stale_entries :
    ∃ findings s', run (.clearing fun _ now => acceptAll now.command) ⟨"php".toList⟩
        (Path.ofText Hook.scratchDirectory)
        ["lib/a.php".toList, "b.js".toList, "lint.log/c.js".toList]
        { Dialogue.start with tree := staleTree } = .ok findings s' ∧
      ∃ r', run (.clearing fun _ now => acceptAll now.command) ⟨"php".toList⟩
        (Path.ofText Hook.scratchDirectory)
        ["lib/a.php".toList, "b.js".toList, "lint.log/c.js".toList]
        { Dialogue.start with tree := s'.tree } = .ok findings r' ∧
          ∀ key, r'.tree.find key = s'.tree.find key := by
  have hvalue : (value? (run (.clearing fun _ now => acceptAll now.command) ⟨"php".toList⟩
      (Path.ofText Hook.scratchDirectory)
      ["lib/a.php".toList, "b.js".toList, "lint.log/c.js".toList]
      { Dialogue.start with tree := staleTree })).isSome := by decide +kernel
  obtain ⟨findings, hfindings⟩ := Option.isSome_iff_exists.1 hvalue
  obtain ⟨s', h⟩ := ok_of_value? hfindings
  have hpaths : ∀ path ∈ ["lib/a.php".toList, "b.js".toList, "lint.log/c.js".toList],
      WrittenPath.IsRepositoryPath path := by decide +kernel
  obtain ⟨_, _, hagain⟩ := repeat_run_is_identical (Programs.answerBy_clearing acceptAll)
    (fun path hp _ => hpaths path hp)
    (fun path hp _ => Programs.writes_clearing (hpaths path hp) fun c left hreply _ => by
      cases hreply
      exact ⟨_, rfl⟩) h
  obtain ⟨r', hr, _, hsame⟩ := hagain { Dialogue.start with tree := s'.tree } fun _ => rfl
  exact ⟨findings, s', h, r', hr, hsame⟩

end CommitGate.Gate
