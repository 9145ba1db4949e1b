import CommitGate.Proofs.Inspection
import CommitGate.Proofs.Prepared

/-! What visits of copies do to a scratch directory, whatever else that holds. A visit puts a copy in and
removes it, with the directories that it leaves empty; the scratch directory is settled for the copy then.
A visit for which it is settled changes nothing, and no other visit unsettles it. The lint log is left out
of account, for it is written to, and a copy may belong below it. -/
namespace CommitGate.Gate

open Check WrittenPath

/-- A copy has been put in and removed again; `u` is the tree right before the removal. -/
structure Visited (scratch : Path) (path : Text) (t u t' : FileTree) : Prop where
  file : ∃ content, u.find (scratch.child path).place = some (.file content)
  way : ∀ d ∈ (scratch.child path).way, u.find d = some .directory
  kept : ∀ k, ¬(scratch.child path).place <+: k → k ∉ (scratch.child path).way →
    k ≠ logKey scratch → u.find k = t.find k
  removed : t'.Lacks u (Staged.Goes u scratch (steps path))

/-- Nothing is left for a visit to remove: the copy is not there, and of the directories that it would
stand in none is empty. -/
structure Settled (scratch : Path) (path : Text) (t : FileTree) : Prop where
  copy : t.find (scratch.child path).place = none
  stations : ∀ i, 0 < i → i < (steps path).length → scratch.station (steps path) i ∉ scratch.way →
    scratch.station (steps path) i ≠ logKey scratch →
      t.find (scratch.station (steps path) i) = none ∨
        ∃ name, t.find (scratch.station (steps path) i ++ [name]) ≠ none

/-- Two trees are the same but for the lint log and the directories that the path of the scratch directory
leads through. -/
def Alike (scratch : Path) (t t' : FileTree) : Prop :=
  ∀ k, k ∉ scratch.way → k ≠ logKey scratch → t'.find k = t.find k

section Stations

variable {scratch : Path} {names : List Text} {t : FileTree} {i j : Nat}

theorem station_split (hij : i ≤ j) :
    scratch.station names j = scratch.station names i ++ (names.take j).drop i := by
  have htake : (names.take j).take i = names.take i := by rw [List.take_take, Nat.min_eq_left hij]
  rw [Path.station, Path.station, List.append_assoc, ← htake, List.take_append_drop]

theorem off_way_below (h0 : 0 < i) (hi : i ≤ names.length)
    (hoff : scratch.station names i ∉ scratch.way) (low : List Text) :
    scratch.station names i ++ low ∉ scratch.way := by
  intro hmem
  have hmore : names.take i ≠ [] := by
    rw [← List.length_pos_iff, List.length_take]
    omega
  rw [Path.station, List.append_assoc] at hmem
  exact hoff (Path.mem_way_of_append hmore hmem)

theorem off_way_station (h0 : 0 < i) (hi : i ≤ names.length) (hij : i ≤ j)
    (hoff : scratch.station names i ∉ scratch.way) : scratch.station names j ∉ scratch.way := by
  rw [station_split hij]
  exact off_way_below h0 hi hoff _

theorem station_below_ne_logKey (h0 : 0 < i) (hi : i ≤ names.length) (name : Text) :
    scratch.station names i ++ [name] ≠ logKey scratch := by
  intro he
  have hlength := congrArg List.length he
  rw [List.length_append, Path.station_length hi, logKey_length, List.length_singleton] at hlength
  omega

theorem station_off_log (h0 : 0 < i) (hij : i ≤ j) (hj : j ≤ names.length)
    (hne : scratch.station names i ≠ logKey scratch) : scratch.station names j ≠ logKey scratch := by
  intro he
  have hlength := congrArg List.length he
  rw [Path.station_length hj, logKey_length] at hlength
  obtain rfl : i = j := by omega
  exact hne he

theorem station_inj (hi : i ≤ names.length) (hj : j ≤ names.length)
    (h : scratch.station names i = scratch.station names j) : i = j := by
  have hlength := congrArg List.length h
  rw [Path.station_length hi, Path.station_length hj] at hlength
  omega

theorem goes_station_iff (h0 : 0 < i) (hi : i ≤ names.length)
    (hoff : scratch.station names i ∉ scratch.way) :
    Staged.Goes t scratch names (scratch.station names i) ↔ Staged.Emptied t scratch names i := by
  constructor
  · rintro ⟨j, _, hj, hemptied, _, he⟩
    rwa [station_inj hi hj he]
  · intro hemptied
    exact ⟨i, h0, hi, hemptied, fun j hij _ => off_way_station h0 hi (by omega) hoff, rfl⟩

theorem exists_beside (hheld : ¬Staged.Emptied t scratch names i)
    (hnext : Staged.Emptied t scratch names (i + 1)) :
    ∃ name, t.find (scratch.station names i ++ [name]) ≠ none ∧
      scratch.station names i ++ [name] ≠ scratch.station names (i + 1) := by
  by_contra hall
  push Not at hall
  refine hheld fun j hij hj name hthere => ?_
  rcases Nat.eq_or_lt_of_le hij with rfl | hlt
  · exact hall name hthere
  · exact hnext j hlt hj name hthere

theorem station_eq_below {name : Text} (hj : j < names.length) (hi : i ≤ names.length)
    (he : scratch.station names j ++ [name] = scratch.station names i) : i = j + 1 := by
  have hlength := congrArg List.length he
  rw [List.length_append, Path.station_length (by omega), Path.station_length hi] at hlength
  rw [List.length_singleton] at hlength
  omega

theorem station_succ (scratch : Path) (hj : j < names.length) :
    ∃ name, scratch.station names (j + 1) = scratch.station names j ++ [name] := by
  refine ⟨names[j], ?_⟩
  rw [Path.station, Path.station, List.append_assoc, List.take_append_getElem]

end Stations

variable {scratch : Path} {path : Text} {t u t' : FileTree} {k : Key} {i : Nat}

section Copy

variable (hpath : IsRepositoryPath path)

include hpath

theorem copy_place_eq :
    (scratch.child path).place = scratch.station (steps path) (steps path).length :=
  place_eq_station (hpath.leadsOn scratch)

theorem mem_copy_way {d : Key} : d ∈ (scratch.child path).way ↔
    d ∈ scratch.way ∨ ∃ i, i < (steps path).length ∧ d = scratch.station (steps path) i :=
  (hpath.leadsOn scratch).mem_way

theorem goes_cases (hgoes : Staged.Goes u scratch (steps path) k) :
    k = (scratch.child path).place ∨ k ∈ (scratch.child path).way := by
  obtain ⟨i, _, hi, _, _, rfl⟩ := hgoes
  by_cases hend : i = (steps path).length
  · rw [hend]
    exact .inl (copy_place_eq hpath).symm
  · exact .inr ((mem_copy_way hpath).2 (.inr ⟨i, by omega, rfl⟩))

theorem copy_goes : Staged.Goes u scratch (steps path) (scratch.child path).place := by
  obtain ⟨front, last, hsteps⟩ :=
    (List.eq_nil_or_concat' _).resolve_left (steps_ne_nil path)
  have hcopy := hpath.leadsOn scratch
  rw [hsteps] at hcopy ⊢
  exact Staged.goes_copy u hcopy

end Copy

namespace Visited

variable (hpath : IsRepositoryPath path) (h : Visited scratch path t u t')

include h in
theorem below (hk : (scratch.child path).place <+: k) (hne : k ≠ (scratch.child path).place) :
    u.find k = none :=
  h.file.elim fun _ hfile => FileTree.find_below hfile hk hne

include hpath h

theorem find_beside {j : Nat} {name : Text} (h0 : 0 < j) (hj : j < (steps path).length)
    (hoff : scratch.station (steps path) j ∉ scratch.way)
    (hne : scratch.station (steps path) j ++ [name] ≠ scratch.station (steps path) (j + 1)) :
    u.find (scratch.station (steps path) j ++ [name]) =
      t.find (scratch.station (steps path) j ++ [name]) := by
  have hno : ∀ i ≤ (steps path).length,
      scratch.station (steps path) j ++ [name] ≠ scratch.station (steps path) i := by
    intro i hi he
    rw [station_eq_below hj hi he] at he
    exact hne he
  apply h.kept
  · rw [copy_place_eq hpath]
    intro hbelow
    have hlength : (scratch.station (steps path) j ++ [name]).length ≤
        (scratch.station (steps path) (steps path).length).length := by
      rw [List.length_append, Path.station_length hj.le, Path.station_length le_rfl,
        List.length_singleton]
      omega
    exact hno _ le_rfl (hbelow.eq_of_length_le hlength).symm
  · intro hmem
    rcases (mem_copy_way hpath).1 hmem with hmem | ⟨i, hi, he⟩
    · exact off_way_below h0 hj.le hoff _ hmem
    · exact hno i hi.le he
  · exact station_below_ne_logKey h0 hj.le name

theorem goes_of_made (h0 : 0 < i) (hi : i ≤ (steps path).length)
    (hoff : scratch.station (steps path) i ∉ scratch.way)
    (hno : t.find (scratch.station (steps path) i) ≠ some .directory) :
    Staged.Goes u scratch (steps path) (scratch.station (steps path) i) := by
  refine (goes_station_iff h0 hi hoff).2 fun j hij hj name hthere => ?_
  by_contra hne
  rw [h.find_beside hpath (by omega) hj (off_way_station h0 hi hij hoff) hne, station_split hij,
    List.append_assoc] at hthere
  obtain ⟨first, rest, hmore⟩ := List.exists_cons_of_ne_nil
    (show ((steps path).take j).drop i ++ [name] ≠ [] by simp)
  rw [hmore] at hthere
  exact hno (FileTree.find_of_below hthere)

theorem absent (hbased : Based scratch t) (hoff : k ∉ scratch.way) (hlog : k ≠ logKey scratch)
    (hnone : t.find k = none) : t'.find k = none := by
  by_cases hgoes : Staged.Goes u scratch (steps path) k
  · exact h.removed.gone k hgoes
  rw [h.removed.kept k hgoes]
  by_cases hbelow : (scratch.child path).place <+: k
  · refine h.below hbelow ?_
    rintro rfl
    exact hgoes (copy_goes hpath)
  have hway : k ∉ (scratch.child path).way := by
    intro hmem
    rcases (mem_copy_way hpath).1 hmem with hmem | ⟨i, hi, rfl⟩
    · exact hoff hmem
    · rcases Nat.eq_zero_or_pos i with rfl | h0
      · rw [Path.station, List.take_zero, List.append_nil, hbased.place] at hnone
        cases hnone
      · exact hgoes (h.goes_of_made hpath h0 hi.le hoff (by simp [hnone]))
  rw [h.kept k hbelow hway hlog, hnone]

omit hpath in
theorem find_log (hapart : ApartFromLog path) :
    t'.find (logKey scratch) = u.find (logKey scratch) := by
  apply h.removed.kept
  rintro ⟨i, h0, hi, _, _, he⟩
  exact station_ne_logKey hapart h0 hi he.symm

theorem log_gone (hbased : Based scratch t) (hbelow : ¬ApartFromLog path) :
    t'.find (logKey scratch) = none := by
  obtain ⟨rest, hsteps⟩ := List.head?_eq_some_iff.1 (not_not.1 hbelow)
  have hstation : scratch.station (steps path) 1 = logKey scratch := by
    rw [hsteps]
    rfl
  rw [← hstation]
  apply h.removed.gone
  apply h.goes_of_made hpath Nat.one_pos (by simp [hsteps])
  · exact hstation ▸ hbased.off
  · exact hstation ▸ hbased.log

theorem based (hbased : Based scratch t) (hlog : t'.find (logKey scratch) ≠ some .directory) :
    Based scratch t' := by
  have hdirectory := hasDirectory_of_way (hpath.leadsOn scratch) (steps_ne_nil path) h.way
  have hwithin : ∀ k, Staged.Goes u scratch (steps path) k → scratch.Within k := by
    rintro _ ⟨i, h0, hi, _, _, rfl⟩
    exact within_station hpath h0 hi
  refine ⟨?_, fun d hd => ?_, hlog, hbased.off⟩
  · rw [h.removed.kept _ fun hgoes => not_within_place scratch (hwithin _ hgoes), hdirectory.place]
  · by_cases hgoes : Staged.Goes u scratch (steps path) d
    · exact .inr ⟨h.removed.gone d hgoes, hwithin d hgoes⟩
    · rw [h.removed.kept d hgoes]
      exact .inl (hdirectory.way d hd)

theorem settled : Settled scratch path t' where
  copy := h.removed.gone _ (copy_goes hpath)
  stations i h0 hi hoff _ := by
    by_cases hgoes : Staged.Goes u scratch (steps path) (scratch.station (steps path) i)
    · exact .inl (h.removed.gone _ hgoes)
    refine .inr ?_
    obtain ⟨name, hnext⟩ := station_succ scratch hi
    by_cases hnextGoes : Staged.Goes u scratch (steps path) (scratch.station (steps path) (i + 1))
    · rw [goes_station_iff h0 hi.le hoff] at hgoes
      rw [goes_station_iff (by omega) hi (off_way_station h0 hi.le (by omega) hoff)] at hnextGoes
      obtain ⟨name, hthere, hne⟩ := exists_beside hgoes hnextGoes
      refine ⟨name, ?_⟩
      rw [h.removed.kept]
      · exact hthere
      · rintro ⟨m, _, hm, _, _, he⟩
        rw [station_eq_below hi hm he] at he
        exact hne he
    · refine ⟨name, ?_⟩
      rw [← hnext, h.removed.kept _ hnextGoes]
      have hlt : i + 1 < (steps path).length := by
        by_contra hend
        have hlast : i + 1 = (steps path).length := by omega
        rw [hlast, ← copy_place_eq hpath] at hnextGoes
        exact hnextGoes (copy_goes hpath)
      rw [h.way _ ((mem_copy_way hpath).2 (.inr ⟨i + 1, hlt, rfl⟩))]
      exact Option.some_ne_none _

theorem station_occupied (h0 : 0 < i) (hi : i < (steps path).length)
    (hoff : scratch.station (steps path) i ∉ scratch.way)
    (hlog : scratch.station (steps path) i ≠ logKey scratch)
    (hthere : t'.find (scratch.station (steps path) i) ≠ none) :
    ∃ name, t'.find (scratch.station (steps path) i ++ [name]) ≠ none :=
  ((h.settled hpath).stations i h0 hi hoff hlog).resolve_left hthere

end Visited

/-- A visit of another copy leaves settled what was. -/
theorem Settled.visited {other : Text} (h : Settled scratch path t)
    (hoff : (scratch.child path).place ∉ scratch.way)
    (hlog : (scratch.child path).place ≠ logKey scratch) (hother : IsRepositoryPath other)
    (hbased : Based scratch t) (hvisited : Visited scratch other t u t') :
    Settled scratch path t' where
  copy := hvisited.absent hother hbased hoff hlog h.copy
  stations i h0 hi hoff hlog := by
    by_cases hnone : t'.find (scratch.station (steps path) i) = none
    · exact .inl hnone
    refine .inr ?_
    have hthere : t.find (scratch.station (steps path) i) ≠ none :=
      fun he => hnone (hvisited.absent hother hbased hoff hlog he)
    obtain ⟨name, hname⟩ := (h.stations i h0 hi hoff hlog).resolve_left hthere
    by_cases hgoes : Staged.Goes u scratch (steps other) (scratch.station (steps path) i ++ [name])
    · obtain ⟨j, hj0, hj, _, _, he⟩ := hgoes
      obtain ⟨j, rfl⟩ := Nat.exists_eq_succ_of_ne_zero (by omega : j ≠ 0)
      obtain ⟨last, hlast⟩ := station_succ scratch hj
      rw [hlast] at he
      obtain ⟨hstation, _⟩ := List.append_inj' he rfl
      have hlength := congrArg List.length hstation
      rw [Path.station_length hi.le, Path.station_length (by omega)] at hlength
      rw [hstation] at hnone hoff hlog ⊢
      exact hvisited.station_occupied hother (by omega) hj hoff hlog hnone
    · refine ⟨name, ?_⟩
      rw [hvisited.removed.kept _ hgoes]
      intro hgone
      have hbelow : ¬(scratch.child other).place <+: scratch.station (steps path) i ++ [name] := by
        intro hprefix
        rcases List.prefix_concat_iff.1 hprefix with he | hprefix
        · rw [← he] at hgoes
          exact hgoes (copy_goes hother)
        · obtain ⟨more, hmore⟩ := hprefix
          rw [← hmore] at hnone
          exact hnone (FileTree.find_append_none (hvisited.settled hother).copy more)
      have hway : scratch.station (steps path) i ++ [name] ∉ (scratch.child other).way := by
        intro hmem
        cases (hvisited.way _ hmem).symm.trans hgone
      rw [hvisited.kept _ hbelow hway (station_below_ne_logKey h0 hi.le name)] at hgone
      exact hname hgone

section Again

variable (h : Settled scratch path t) (hpath : IsRepositoryPath path)

include h hpath

theorem Settled.absent_of_emptied (hvisited : Visited scratch path t u t') (h0 : 0 < i)
    (hi : i ≤ (steps path).length) (hoff : scratch.station (steps path) i ∉ scratch.way)
    (hlog : scratch.station (steps path) i ≠ logKey scratch)
    (hemptied : Staged.Emptied u scratch (steps path) i) :
    t.find (scratch.station (steps path) i) = none := by
  by_contra hthere
  have hall : ∀ j, i ≤ j → j ≤ (steps path).length →
      t.find (scratch.station (steps path) j) ≠ none := by
    intro j hij
    induction j, hij using Nat.le_induction with
    | base => exact fun _ => hthere
    | succ j hij ih =>
      intro hj
      have hoffj := off_way_station h0 hi hij hoff
      obtain ⟨name, hname⟩ := (h.stations j (by omega) hj hoffj
        (station_off_log h0 hij (by omega) hlog)).resolve_left (ih (by omega))
      by_cases he : scratch.station (steps path) j ++ [name] = scratch.station (steps path) (j + 1)
      · rwa [he] at hname
      · rw [← hvisited.find_beside hpath (by omega) hj hoffj he] at hname
        exact absurd (hemptied j hij hj name hname) he
  apply hall _ hi le_rfl
  rw [← copy_place_eq hpath]
  exact h.copy

/-- A visit for which a tree is settled changes nothing. -/
theorem Settled.alike (hbased : Based scratch t) (hvisited : Visited scratch path t u t') :
    Alike scratch t t' := by
  intro k hk hlog
  by_cases hgoes : Staged.Goes u scratch (steps path) k
  · rw [hvisited.removed.gone k hgoes]
    obtain ⟨i, h0, hi, hemptied, _, rfl⟩ := hgoes
    exact (h.absent_of_emptied hpath hvisited h0 hi hk hlog hemptied).symm
  by_cases hbelow : (scratch.child path).place <+: k
  · obtain ⟨more, rfl⟩ := hbelow
    rw [FileTree.find_append_none h.copy,
      FileTree.find_append_none (hvisited.settled hpath).copy]
  rw [hvisited.removed.kept k hgoes]
  by_cases hway : k ∈ (scratch.child path).way
  · rw [hvisited.way k hway]
    rcases (mem_copy_way hpath).1 hway with hmem | ⟨i, hi, rfl⟩
    · exact absurd hmem hk
    rcases Nat.eq_zero_or_pos i with rfl | h0
    · rw [Path.station, List.take_zero, List.append_nil, hbased.place]
    · by_contra hno
      exact hgoes (hvisited.goes_of_made hpath h0 hi.le hk (Ne.symm hno))
  · exact hvisited.kept k hbelow hway hlog

theorem Settled.way_free (hbased : Based scratch t) :
    ∀ d ∈ (scratch.child path).way, t.IsFile d → d = logKey scratch := by
  rintro d hd ⟨content, hfile⟩
  by_contra hlog
  by_cases hway : d ∈ scratch.way
  · exact hbased.way_free d hway content hfile
  obtain ⟨i, hi, rfl⟩ := ((mem_copy_way hpath).1 hd).resolve_left hway
  rcases Nat.eq_zero_or_pos i with rfl | h0
  · rw [Path.station, List.take_zero, List.append_nil, hbased.place] at hfile
    cases hfile
  · rcases h.stations i h0 hi hway hlog with hnone | ⟨name, hname⟩
    · cases hnone.symm.trans hfile
    · exact hname (FileTree.find_below_file hfile name)

end Again

theorem Settled.of_alike (h : Settled scratch path t)
    (hoff : (scratch.child path).place ∉ scratch.way)
    (hlog : (scratch.child path).place ≠ logKey scratch) (halike : Alike scratch t t') :
    Settled scratch path t' where
  copy := by
    rw [halike _ hoff hlog, h.copy]
  stations i h0 hi hoff hlog := by
    rw [halike _ hoff hlog]
    refine (h.stations i h0 hi hoff hlog).imp_right fun ⟨name, hname⟩ => ⟨name, ?_⟩
    rwa [halike _ (off_way_below h0 hi.le hoff _) (station_below_ne_logKey h0 hi.le name)]

theorem Alike.trans {t'' : FileTree} (h : Alike scratch t t') (h' : Alike scratch t' t'') :
    Alike scratch t t'' :=
  fun k hk hlog => (h' k hk hlog).trans (h k hk hlog)

/-- A visit that follows on a visit of the same copy puts back what that one has removed, so both leave the
same tree, the directories that the path of the scratch directory leads through included. -/
theorem Visited.again {v w v' : FileTree} (hpath : IsRepositoryPath path)
    (h : Visited scratch path t u t') (h' : Visited scratch path v w v') (halike : Alike scratch t' v)
    (hlog : k ≠ logKey scratch) : v'.find k = t'.find k := by
  have hfilled : ∀ k, k ≠ logKey scratch → k ≠ (scratch.child path).place →
      w.find k = u.find k := by
    intro k hlog hplace
    by_cases hbelow : (scratch.child path).place <+: k
    · rw [h.below hbelow hplace, h'.below hbelow hplace]
    by_cases hway : k ∈ (scratch.child path).way
    · rw [h'.way k hway, h.way k hway]
    · have hstays : ¬Staged.Goes u scratch (steps path) k :=
        fun hgoes => (goes_cases hpath hgoes).elim hplace hway
      have hoff : k ∉ scratch.way := fun hmem => hway ((mem_copy_way hpath).2 (.inl hmem))
      rw [h'.kept k hbelow hway hlog, halike k hoff hlog, h.removed.kept k hstays]
  have hthere : ∀ k, k ≠ logKey scratch → (w.find k = none ↔ u.find k = none) := by
    intro k hlog
    by_cases hplace : k = (scratch.child path).place
    · obtain ⟨content, hfile⟩ := h.file
      obtain ⟨content', hfile'⟩ := h'.file
      rw [hplace, hfile, hfile']
      simp
    · rw [hfilled k hlog hplace]
  have hemptied : ∀ i, 0 < i →
      (Staged.Emptied w scratch (steps path) i ↔ Staged.Emptied u scratch (steps path) i) := by
    intro i h0
    refine forall_congr' fun j => forall_congr' fun hij => forall_congr' fun hj =>
      forall_congr' fun name => ?_
    rw [Ne, Ne, hthere _ (station_below_ne_logKey (by omega) hj.le name)]
  have hgoes : Staged.Goes w scratch (steps path) k ↔ Staged.Goes u scratch (steps path) k :=
    exists_congr fun i => and_congr_right fun h0 => by rw [hemptied i h0]
  by_cases hk : Staged.Goes u scratch (steps path) k
  · rw [h.removed.gone k hk, h'.removed.gone k (hgoes.2 hk)]
  · have hplace : k ≠ (scratch.child path).place := by
      rintro rfl
      exact hk (copy_goes hpath)
    rw [h.removed.kept k hk, h'.removed.kept k fun hk' => hk (hgoes.1 hk'), hfilled k hlog hplace]

end CommitGate.Gate
