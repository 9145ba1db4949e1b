import CommitGate.Proofs.Complete
import CommitGate.Proofs.Way

/-! What is left of a staged copy. The copy goes, and with it the longest chain of directories above it
that only it has kept from being empty. The removal takes the directories by the way that their paths
are written, so it also ends where that way leads through a directory that it has just taken. -/
namespace CommitGate

open Session

namespace FileTree

structure Lacks (t' t : FileTree) (Gone : Key → Prop) : Prop where
  gone : ∀ k, Gone k → t'.find k = none
  kept : ∀ k, ¬Gone k → t'.find k = t.find k

theorem Lacks.congr {t t' : FileTree} {Gone Gone' : Key → Prop} (h : t'.Lacks t Gone)
    (hsame : ∀ k, Gone' k ↔ Gone k) : t'.Lacks t Gone' where
  gone k hk := h.gone k ((hsame k).mp hk)
  kept k hk := h.kept k fun hgone => hk ((hsame k).mpr hgone)

theorem Lacks.trans {t t' t'' : FileTree} {Gone Later : Key → Prop} (h : t'.Lacks t Gone)
    (hlater : t''.Lacks t' Later) : t''.Lacks t fun k => Gone k ∨ Later k where
  gone k hk := by
    by_cases hk' : Later k
    · exact hlater.gone k hk'
    · rw [hlater.kept k hk', h.gone k (hk.resolve_right hk')]
  kept k hk := by
    rw [not_or] at hk
    rw [hlater.kept k hk.2, h.kept k hk.1]

/-- Two trees differ in files alone, which have been written or deleted. -/
def SameDirectories (t t' : FileTree) : Prop :=
  ∀ k, t.find k = some .directory ↔ t'.find k = some .directory

theorem unlink_cases {t : FileTree} {path : Text} {key : Key} (hl : t.locate path = .ok key)
    (hne : t.find key ≠ some .directory) :
    (∃ t', t.unlink path = .ok t' ∧ ∀ k, t'.find k = if k = key then none else t.find k) ∨
      t.find key = none ∧ t.unlink path = .error ⟨.notFound, path⟩ := by
  cases hu : t.unlink path with
  | ok t' =>
    obtain ⟨place, hplace, _, hfind⟩ := find_of_unlink hu
    obtain rfl : key = place := Except.ok.inj (hl.symm.trans hplace)
    exact .inl ⟨t', rfl, hfind⟩
  | error fault =>
    rw [unlink, hl] at hu
    dsimp only at hu
    split at hu
    · rename_i hnone
      cases hu
      exact .inr ⟨hnone, rfl⟩
    · rename_i hdirectory
      exact absurd hdirectory hne
    · cases hu

theorem sameDirectories_of_unlink {t t' : FileTree} {path : Text} (h : t.unlink path = .ok t') :
    t.SameDirectories t' := by
  obtain ⟨key, _, ⟨content, hc⟩, hfind⟩ := find_of_unlink h
  intro k
  rw [hfind]
  by_cases hk : k = key
  · simp [hk, hc]
  · rw [if_neg hk]

theorem mem_entries_of_find {t : FileTree} {k : Key} (hkey : Key.isAnchor k = false)
    (h : t.find k ≠ none) : k ∈ t.entries.map Prod.fst := by
  rw [find, entryAt, if_neg (by simp [hkey])] at h
  obtain ⟨e, he⟩ := Option.ne_none_iff_exists'.1 h
  obtain ⟨before, after, hentries, _⟩ := List.lookup_eq_some_iff.1 he
  simp [hentries]

end FileTree

namespace Staged

variable {t t' : FileTree} {copy scratch : Path} {names : List Text} {last : Text} {i : Nat}

/-- From a station down to the copy, nothing stands in a directory but the next one. -/
def Emptied (t : FileTree) (scratch : Path) (names : List Text) (i : Nat) : Prop :=
  ∀ j, i ≤ j → j < names.length → ∀ name, t.find (scratch.station names j ++ [name]) ≠ none →
    scratch.station names j ++ [name] = scratch.station names (j + 1)

/-- The way to the scratch directory does not come by a directory below a station. -/
def Reachable (scratch : Path) (names : List Text) (i : Nat) : Prop :=
  ∀ j, i < j → j < names.length → scratch.station names j ∉ scratch.way

/-- What goes of a copy and the directories that it stands in. -/
def Goes (t : FileTree) (scratch : Path) (names : List Text) (k : Key) : Prop :=
  ∃ i, 0 < i ∧ i ≤ names.length ∧ Emptied t scratch names i ∧ Reachable scratch names i ∧
    k = scratch.station names i

theorem reachable_of_isPlain (hp : scratch.IsPlain) (i : Nat) : Reachable scratch names i := by
  intro j hij hj
  apply Path.station_not_mem_way hp
  · omega
  · omega

theorem emptied_without {m : Nat} (hm : m ≤ names.length)
    (hfind : ∀ k, t'.find k = if k = scratch.station names m then none else t.find k) :
    Emptied t' scratch names i ↔ Emptied t scratch names i := by
  constructor
  · intro h j hij hj name hne
    by_cases he : scratch.station names j ++ [name] = scratch.station names m
    · have hlength := congrArg List.length he
      rw [List.length_append, Path.station_length (by omega), Path.station_length hm] at hlength
      obtain rfl : j + 1 = m := by simpa [Nat.add_assoc] using hlength
      exact he
    · apply h j hij hj name
      rwa [hfind, if_neg he]
  · intro h j hij hj name hne
    apply h j hij hj name
    rw [hfind] at hne
    by_cases he : scratch.station names j ++ [name] = scratch.station names m
    · exact absurd (if_pos he) hne
    · rwa [if_neg he] at hne

theorem emptied_concat (hi : i ≤ names.length) :
    Emptied t scratch (names ++ [last]) i ↔ Emptied t scratch names i ∧
      ∀ name, t.find (scratch.station names names.length ++ [name]) ≠ none →
        scratch.station names names.length ++ [name] =
          scratch.station (names ++ [last]) (names.length + 1) := by
  constructor
  · intro h
    constructor
    · intro j hij hj name
      have hstep := h j hij (by simp; omega) name
      rwa [Path.station_concat (by omega), Path.station_concat (by omega)] at hstep
    · intro name
      have hstep := h names.length hi (by simp) name
      rwa [Path.station_concat le_rfl] at hstep
  · rintro ⟨h, hend⟩ j hij hj name
    rw [List.length_append, List.length_singleton] at hj
    rw [Path.station_concat (by omega)]
    by_cases he : j = names.length
    · subst he
      exact hend name
    · rw [Path.station_concat (by omega)]
      exact h j hij (by omega) name

theorem reachable_concat :
    Reachable scratch (names ++ [last]) i ↔ Reachable scratch names i ∧
      (i < names.length → scratch.station names names.length ∉ scratch.way) := by
  constructor
  · intro h
    constructor
    · intro j hij hj
      have hstep := h j hij (by simp; omega)
      rwa [Path.station_concat (by omega)] at hstep
    · intro hi
      have hstep := h names.length hi (by simp)
      rwa [Path.station_concat le_rfl] at hstep
  · rintro ⟨h, hend⟩ j hij hj
    rw [List.length_append, List.length_singleton] at hj
    rw [Path.station_concat (by omega)]
    by_cases he : j = names.length
    · subst he
      exact hend hij
    · exact h j hij (by omega)

theorem ownDirectories_of_leadsOn (h : copy.LeadsOn scratch (names ++ [last])) :
    ownDirectories copy scratch =
      if names = [] then [] else copy.parent :: ownDirectories copy.parent scratch := by
  have hlength : copy.names.length = copy.parent.names.length + 1 := by
    simp [h.names, h.parent.names, Nat.add_assoc]
  have hancestors : copy.ancestors = copy.parent :: copy.parent.ancestors := by
    rw [Path.ancestors, hlength]
    rfl
  rw [ownDirectories, hancestors]
  by_cases hnames : names = []
  · rw [if_pos hnames]
    apply List.takeWhile_cons_of_neg
    rw [h.parent.isBelow_iff, hnames]
    simp
  · rw [if_neg hnames]
    exact List.takeWhile_cons_of_pos (h.parent.isBelow_iff.2 hnames)

theorem goes_copy (t : FileTree) (h : copy.LeadsOn scratch (names ++ [last])) :
    Goes t scratch (names ++ [last]) copy.place := by
  refine ⟨names.length + 1, by simp, by simp, ?_, ?_, ?_⟩
  · intro j hij hj
    simp at hj
    omega
  · intro j hij hj
    simp at hj
    omega
  · simp [h.place_eq, Path.station]

theorem goes_concat_iff (h : copy.LeadsOn scratch (names ++ [last])) {k : Key} :
    Goes t scratch (names ++ [last]) k ↔ k = copy.place ∨
      ∃ i, 0 < i ∧ i ≤ names.length ∧ Emptied t scratch (names ++ [last]) i ∧
        Reachable scratch (names ++ [last]) i ∧ k = scratch.station names i := by
  constructor
  · rintro ⟨i, h0, hi, he, hr, rfl⟩
    rw [List.length_append, List.length_singleton] at hi
    by_cases hm : i ≤ names.length
    · exact .inr ⟨i, h0, hm, he, hr, Path.station_concat hm last⟩
    · obtain rfl : i = names.length + 1 := by omega
      exact .inl (by simp [h.place_eq, Path.station])
  · rintro (rfl | ⟨i, h0, hi, he, hr, rfl⟩)
    · exact goes_copy t h
    · refine ⟨i, h0, ?_, he, hr, (Path.station_concat hi last).symm⟩
      rw [List.length_append]
      omega

theorem parent_place (h : copy.LeadsOn scratch (names ++ [last])) :
    copy.parent.place = scratch.station names names.length := by
  rw [h.parent.place_eq, Path.station, List.take_length]

theorem prune_of_missing (h : copy.LeadsOn scratch (names ++ [last])) {d : Key} (hd : d ∈ copy.way)
    (hmissing : t.find d ≠ some .directory) : prune t (ownDirectories copy scratch) = t := by
  have hparent : d ∈ copy.parent.way ∨ d = copy.parent.place := by
    rcases h.mem_way.1 hd with hd | ⟨i, hi, rfl⟩
    · exact .inl (h.parent.mem_way.2 (.inl hd))
    · rw [List.length_append, List.length_singleton] at hi
      rw [Path.station_concat (by omega), parent_place h]
      by_cases hend : i = names.length
      · exact .inr (by rw [hend])
      · exact .inl (h.parent.mem_way.2 (.inr ⟨i, by omega, rfl⟩))
  rw [ownDirectories_of_leadsOn h]
  split
  · rfl
  · rw [prune, FileTree.rmdir?_of_missing hparent hmissing]

theorem goes_iff_of_occupied (h : copy.LeadsOn scratch (names ++ [last]))
    (hcopy : t.find copy.place = none) {name : Text}
    (hne : t.find (copy.parent.place ++ [name]) ≠ none) {k : Key} :
    Goes t scratch (names ++ [last]) k ↔ k = copy.place := by
  rw [goes_concat_iff h]
  refine or_iff_left ?_
  rintro ⟨i, _, hi, he, _⟩
  rw [parent_place h] at hne
  have hnext := ((emptied_concat hi).1 he).2 name hne
  have hend : scratch.station (names ++ [last]) (names.length + 1) = copy.place := by
    simp [h.place_eq, Path.station]
  rw [hnext, hend] at hne
  exact hne hcopy

/-- If nothing else does, its directory goes too, and takes the place of the copy for those above it,
unless the way to them leads through it. -/
theorem goes_iff_of_alone (h : copy.LeadsOn scratch (names ++ [last])) (hnames : names ≠ [])
    (hnone : ∀ name, t.find (copy.parent.place ++ [name]) = none)
    (hfind : ∀ k, t'.find k = if k = copy.parent.place then none else t.find k) {k : Key} :
    Goes t scratch (names ++ [last]) k ↔ k = copy.place ∨ k = copy.parent.place ∨
      copy.parent.place ∉ scratch.way ∧ Goes t' scratch names k := by
  have hemptied : ∀ i, i ≤ names.length →
      (Emptied t scratch (names ++ [last]) i ↔ Emptied t' scratch names i) := by
    intro i hi
    rw [parent_place h] at hnone hfind
    rw [emptied_concat hi, ← emptied_without le_rfl hfind]
    exact and_iff_left fun name hne => absurd (hnone name) hne
  rw [goes_concat_iff h]
  refine or_congr_right ⟨?_, ?_⟩
  · rintro ⟨i, h0, hi, he, hreach, rfl⟩
    by_cases hlt : i < names.length
    · obtain ⟨hreach, hend⟩ := reachable_concat.1 hreach
      rw [parent_place h]
      exact .inr ⟨hend hlt, i, h0, hi, (hemptied i hi).1 he, hreach, rfl⟩
    · obtain rfl : i = names.length := by omega
      exact .inl (parent_place h).symm
  · rintro (rfl | ⟨hon, i, h0, hi, he, hreach, rfl⟩)
    · refine ⟨names.length, List.length_pos_iff.2 hnames, le_rfl, ?_, ?_, parent_place h⟩
      · exact (hemptied _ le_rfl).2 fun j hij hj => by omega
      · exact reachable_concat.2 ⟨fun j hij hj => by omega, fun hlt => by omega⟩
    · rw [parent_place h] at hon
      exact ⟨i, h0, hi, (hemptied i hi).2 he, reachable_concat.2 ⟨hreach, fun _ => hon⟩, rfl⟩

theorem parent_way (h : copy.LeadsOn scratch (names ++ [last])) {d : Key}
    (hd : d ∈ copy.parent.way) : d ∈ copy.way := by
  rcases h.parent.mem_way.1 hd with hd | ⟨j, hj, rfl⟩
  · exact h.mem_way.2 (.inl hd)
  · refine h.mem_way.2 (.inr ⟨j, ?_, (Path.station_concat (by omega) last).symm⟩)
    rw [List.length_append]
    omega

theorem parent_place_not_mem_way (h : copy.LeadsOn scratch (names ++ [last]))
    (hon : copy.parent.place ∉ scratch.way) : copy.parent.place ∉ copy.parent.way := by
  intro hmem
  rcases h.parent.mem_way.1 hmem with hmem | ⟨j, hj, he⟩
  · exact hon hmem
  · have hlength := congrArg List.length he
    rw [parent_place h, Path.station_length le_rfl, Path.station_length (by omega)] at hlength
    omega

/-- Once a copy is gone, the directories that it stands in are removed as far as they are emptied and
can still be reached. -/
theorem prune_lacks (h : copy.LeadsOn scratch (names ++ [last]))
    (hway : ∀ d ∈ copy.way, t.find d = some .directory) (hcopy : t.find copy.place = none) :
    (prune t (ownDirectories copy scratch)).Lacks t (Goes t scratch (names ++ [last])) := by
  -- Each step of the induction takes the nearest directory, which then stands where the copy stood.
  induction names using List.reverseRecOn generalizing copy last t with
  | nil =>
    rw [ownDirectories_of_leadsOn h, if_pos rfl, prune]
    refine ⟨fun k hk => ?_, fun k _ => rfl⟩
    rcases (goes_concat_iff h).1 hk with rfl | ⟨i, h0, hi, _⟩
    · exact hcopy
    · simp at hi
      omega
  | append_singleton front mid ih =>
    have hmid := h.descend mid (by simp)
    have hparentWay : ∀ d ∈ copy.parent.way, t.find d = some .directory :=
      fun d hd => hway d (parent_way h hd)
    have hdirectory : t.find copy.parent.place = some .directory := by
      apply hway
      refine h.mem_way.2 (.inr ⟨(front ++ [mid]).length, by simp, ?_⟩)
      rw [parent_place h, Path.station_concat le_rfl]
    have hkey : Key.isAnchor copy.parent.place = false := by
      rw [h.parent.place_eq, ← List.append_assoc]
      exact Key.not_isAnchor_concat hmid.1 hmid.2 _
    have hnames : copy.parent.names = (scratch.names ++ front) ++ [mid] := by
      rw [h.parent.names, List.append_assoc]
    rw [ownDirectories_of_leadsOn h, if_neg (by simp), prune]
    rcases FileTree.rmdir?_cases hnames hmid.2 hparentWay hdirectory hkey with
      ⟨t', hr, hnone, hfind⟩ | ⟨hr, name, hne⟩
    · rw [hr]
      dsimp only
      have hgone : t'.Lacks t fun k => k = copy.place ∨ k = copy.parent.place := by
        constructor
        · rintro k (rfl | rfl)
          · rw [hfind, hcopy]
            exact ite_self _
          · rw [hfind, if_pos rfl]
        · intro k hk
          rw [hfind, if_neg fun he => hk (.inr he)]
      have hparentGone := hgone.gone copy.parent.place (.inr rfl)
      have hgoes := fun k => goes_iff_of_alone h (by simp) hnone hfind (k := k)
      by_cases hon : copy.parent.place ∈ scratch.way
      · -- The way to the directories above leads through the one that has just gone.
        rw [prune_of_missing h.parent (h.parent.mem_way.2 (.inl hon)) (by simp [hparentGone])]
        refine hgone.congr fun k => ?_
        rw [hgoes]
        simp [hon]
      · have hrest := ih h.parent (t := t') (fun d hd => by
          have hne : d ≠ copy.parent.place := fun he =>
            parent_place_not_mem_way h hon (he ▸ hd)
          rw [hfind, if_neg hne]
          exact hparentWay d hd) hparentGone
        refine (hgone.trans hrest).congr fun k => ?_
        rw [hgoes, or_assoc]
        simp [hon]
    · rw [hr]
      dsimp only
      refine ⟨fun k hk => ?_, fun k _ => rfl⟩
      rw [(goes_iff_of_occupied h hcopy hne).1 hk, hcopy]

theorem removed_lacks (h : copy.LeadsOn scratch (names ++ [last]))
    (hway : ∀ d ∈ copy.way, t.find d = some .directory)
    (hcopy : t.find copy.place ≠ some .directory) :
    ∃ tree, removed copy scratch t = .ok tree ∧
      tree.Lacks t (Goes t scratch (names ++ [last])) := by
  have hlocate : t.locate copy.toText = .ok copy.place := FileTree.locate_eq_ok_iff.2 ⟨hway, rfl⟩
  rcases FileTree.unlink_cases hlocate hcopy with ⟨t', hu, hfind⟩ | ⟨hnone, hu⟩
  · rw [removed, hu]
    have hend : copy.place = scratch.station (names ++ [last]) (names ++ [last]).length := by
      rw [h.place_eq, Path.station, List.take_length]
    have hgoes : ∀ k, Goes t' scratch (names ++ [last]) k ↔ Goes t scratch (names ++ [last]) k := by
      intro k
      rw [hend] at hfind
      simp only [Goes, emptied_without le_rfl hfind]
    have hway' : ∀ d ∈ copy.way, t'.find d = some .directory := by
      intro d hd
      have hne : d ≠ copy.place := by
        rintro rfl
        exact hcopy (hway _ hd)
      rw [hfind, if_neg hne, hway d hd]
    have hgone : t'.Lacks t (· = copy.place) := by
      constructor
      · rintro k rfl
        rw [hfind, if_pos rfl]
      · intro k hk
        rw [hfind, if_neg hk]
    have hrest := prune_lacks h hway' (hgone.gone _ rfl)
    refine ⟨_, rfl, (hgone.trans hrest).congr fun k => ?_⟩
    rw [hgoes]
    constructor
    · exact .inr
    · rintro (rfl | hk)
      · exact goes_copy t h
      · exact hk
  · rw [removed, hu]
    exact ⟨_, rfl, prune_lacks h hway hnone⟩

theorem removed_steps (h : copy.LeadsOn scratch names) (hne : names ≠ [])
    (hway : ∀ d ∈ copy.way, t.find d = some .directory)
    (hcopy : t.find copy.place ≠ some .directory) :
    ∃ tree, removed copy scratch t = .ok tree ∧ tree.Lacks t (Goes t scratch names) := by
  obtain ⟨front, last, rfl⟩ := (List.eq_nil_or_concat' names).resolve_left hne
  exact removed_lacks h hway hcopy

def tidied (r : EStateM.Result Fault Session α) (tree : FileTree) :
    EStateM.Result Fault Session α :=
  match r with
  | .ok a s => .ok a { s with tree }
  | .error fault s => .error fault { s with tree }

variable {programs : Programs} {path : Text} {s : Session} {work : Path → Action α}

/-- When work on a copy is over, and if it did no more to the files than write and delete some, the copy
and the directories that it has kept from being empty are gone and all else is as the work left it.
How the work ended stays how it ended. -/
theorem copy_leaves_no_trace (hpath : WrittenPath.IsRepositoryPath path)
    (hout : Gate.ChecksOut programs scratch (Gate.checkoutQuery scratch path s))
    (hwork : (s.asked programs (checkoutCommand scratch path)).tree.SameDirectories
      (ending (work (scratch.child path)
        (s.asked programs (checkoutCommand scratch path)))).tree) :
    ∃ tree, withCopy programs scratch path work s =
        tidied (work (scratch.child path) (s.asked programs (checkoutCommand scratch path))) tree ∧
      tree.Lacks (ending (work (scratch.child path)
          (s.asked programs (checkoutCommand scratch path)))).tree
        (Goes (ending (work (scratch.child path)
          (s.asked programs (checkoutCommand scratch path)))).tree scratch
            (WrittenPath.steps path)) ∧
      tree.find scratch.place = some .directory ∧
      (scratch.IsPlain → ∀ i, Reachable scratch (WrittenPath.steps path) i) := by
  have h := hpath.leadsOn scratch
  obtain ⟨front, last, hsteps⟩ :=
    (List.eq_nil_or_concat' _).resolve_left (WrittenPath.steps_ne_nil path)
  rw [hsteps] at h ⊢
  obtain ⟨output, hm⟩ := Gate.exists_of_isOk hout.succeeded
  obtain ⟨content, hread⟩ := Gate.exists_of_isOk hout.regular
  obtain ⟨key, hl, hfile⟩ := FileTree.read_eq_ok hread
  obtain ⟨hway, rfl⟩ := FileTree.locate_eq_ok_iff.1 hl
  generalize hr : work (scratch.child path) (s.asked programs (checkoutCommand scratch path)) = r
    at hwork ⊢
  have hway' : ∀ d ∈ (scratch.child path).way, (ending r).tree.find d = some .directory :=
    fun d hd => (hwork d).1 (hway d hd)
  have hcopy : (ending r).tree.find (scratch.child path).place ≠ some .directory := by
    intro hd
    have hd := (hwork _).2 hd
    rw [show (s.asked programs (checkoutCommand scratch path)).tree.find
      (scratch.child path).place = _ from hfile] at hd
    cases hd
  obtain ⟨tree, hremoved, hlacks⟩ := removed_lacks h hway' hcopy
  refine ⟨tree, ?_, hlacks, ?_, fun hp i => reachable_of_isPlain hp i⟩
  · rw [withCopy_eq]
    rw [show Git.meaning Command.checkoutWord
      (s.moment.ask programs (checkoutCommand scratch path)).1 = .ok output from hm]
    dsimp only
    rw [thenAlways, hr]
    cases r with
    | ok a t =>
      dsimp only [ending] at hremoved ⊢
      rw [remove_eq, hremoved]
      rfl
    | error fault t =>
      dsimp only [ending] at hremoved ⊢
      rw [remove_eq, hremoved]
      rfl
  · have hscratch : ¬Goes (ending r).tree scratch (front ++ [last]) scratch.place := by
      rintro ⟨i, h0, hi, _, _, he⟩
      have hlength := congrArg List.length he
      rw [Path.station_length hi] at hlength
      omega
    rw [hlacks.kept _ hscratch]
    apply hway'
    exact h.mem_way.2 (.inr ⟨0, by simp, by simp [Path.station]⟩)

def giveUp (copy : Path) : Action Unit := do
  changeTree (.single (·.unlink copy.toText))
  throw (.interrupted "stop".toList)

theorem giveUp_sameDirectories (copy : Path) (s : Session) :
    s.tree.SameDirectories (ending (giveUp copy s)).tree := by
  rw [giveUp]
  cases hu : s.tree.unlink copy.toText with
  | ok tree =>
    rw [bind_of_ok (changeTree_ok hu)]
    exact FileTree.sameDirectories_of_unlink hu
  | error refusal =>
    rw [bind_of_error (changeTree_error hu)]
    exact fun k => Iff.rfl

def allCheckedOut : Programs := .placing fun _ _ => Gate.checkedOut

theorem given_up_copy_leaves_no_trace :
    ∃ tree, withCopy allCheckedOut (Path.ofText Hook.scratchDirectory) "lib/a.php".toList giveUp
        Dialogue.start =
      tidied (giveUp ((Path.ofText Hook.scratchDirectory).child "lib/a.php".toList)
        (Dialogue.start.asked allCheckedOut
          (checkoutCommand (Path.ofText Hook.scratchDirectory) "lib/a.php".toList))) tree ∧
      tree.find (Path.ofText Hook.scratchDirectory).place = some .directory := by
  have hout : Gate.ChecksOut allCheckedOut (Path.ofText Hook.scratchDirectory)
      (Gate.checkoutQuery (Path.ofText Hook.scratchDirectory) "lib/a.php".toList
        Dialogue.start) := by decide +kernel
  obtain ⟨tree, hrun, _, hscratch, _⟩ :=
    copy_leaves_no_trace (by decide) hout (giveUp_sameDirectories _ _)
  exact ⟨tree, hrun, hscratch⟩

/-- The scratch directory `b`, by a way that leads through directories of its own. -/
def roundabout : Path := Path.ofText "b/x/y/../..".toList

def nested : Text := "x/y/a.php".toList

/-- The directory `b/x` is emptied, but the way to it leads through `b/x/y`, which has just gone. -/
theorem roundabout_copy_leaves_directory :
    Emptied (Dialogue.start.asked allCheckedOut (checkoutCommand roundabout nested)).tree roundabout
        (WrittenPath.steps nested) 1 ∧
      value? (withCopy allCheckedOut roundabout nested (fun _ => pure ()) Dialogue.start) = some () ∧
      (ending (withCopy allCheckedOut roundabout nested (fun _ => pure ()) Dialogue.start)).tree.find
        (roundabout.station (WrittenPath.steps nested) 1) = some .directory := by
  refine ⟨?_, by decide +kernel, by decide +kernel⟩
  have hkeys : (Dialogue.start.asked allCheckedOut
      (checkoutCommand roundabout nested)).tree.entries.map Prod.fst =
    [["b", "x", "y", "a.php"], ["b", "x", "y"], ["b", "x"], ["b"]].map (·.map String.toList) := by
    decide +kernel
  have hsteps : WrittenPath.steps nested = ["x", "y", "a.php"].map String.toList := by decide +kernel
  have hplace : roundabout.place = ["b".toList] := by decide +kernel
  intro j hj hlt name hne
  rw [hsteps] at hlt
  have hkey : Key.isAnchor (roundabout.station (WrittenPath.steps nested) j ++ [name]) = false := by
    rw [Path.station, hplace]
    rfl
  have hmem := FileTree.mem_entries_of_find hkey hne
  rw [hkeys, hsteps, Path.station, hplace] at hmem
  rw [hsteps, Path.station, Path.station, hplace]
  obtain rfl | rfl : j = 1 ∨ j = 2 := by
    simp at hlt
    omega
  · simpa using hmem
  · simpa using hmem

end Staged

end CommitGate
