import CommitGate.Proofs.Kept
import CommitGate.Proofs.Way
import Mathlib.Data.List.DropRight

/-! A file that is put somewhere, with the directories on the way to it. The way of a path as it is
written goes by the keys that its names are looked up at, so the ladder of the path makes a directory at
each of them, as long as no file stands in the way. -/
namespace CommitGate

open Session

namespace WrittenPath

theorem steps_append (x y : Text) : steps (x ++ Path.slash :: y) = steps x ++ steps y :=
  List.splitOnP_append_cons x y (beq_self_eq_true Path.slash)

theorem steps_append_slashes (x : Text) (n : Nat) :
    steps (x ++ List.replicate n Path.slash) = steps x ++ List.replicate n [] := by
  induction n with
  | zero => simp
  | succ n ih =>
    rw [List.replicate_succ', List.replicate_succ', ← List.append_assoc, ← List.append_assoc]
    rw [steps_append, ih]
    rfl

theorem ne_slash_of_not_mem {c : Text} (hc : Path.slash ∉ c) :
    ∀ a ∈ c, decide (a ≠ Path.slash) = true := by
  intro a ha
  rw [decide_eq_true_eq]
  rintro rfl
  exact hc ha

theorem splitLast_slash (x : Text) {c : Text} (hc : Path.slash ∉ c) :
    splitLast (x ++ Path.slash :: c) = (withoutEndSlashes (x ++ [Path.slash]), c) := by
  have hall : ∀ a ∈ c.reverse, decide (a ≠ Path.slash) = true :=
    ne_slash_of_not_mem (by simpa using hc)
  have hreverse : (x ++ Path.slash :: c).reverse = c.reverse ++ Path.slash :: x.reverse := by simp
  rw [splitLast, hreverse, List.dropWhile_append_of_pos hall, List.takeWhile_append_of_pos hall]
  simp

theorem splitLast_no_slash {x : Text} (h : Path.slash ∉ x) : splitLast x = ([], x) := by
  have hdrop : x.rdropWhile (· ≠ Path.slash) = [] :=
    List.rdropWhile_eq_nil_iff.2 (ne_slash_of_not_mem h)
  have htake : x.rtakeWhile (· ≠ Path.slash) = x :=
    List.rtakeWhile_eq_self_iff.2 (ne_slash_of_not_mem h)
  change (withoutEndSlashes (x.rdropWhile (· ≠ Path.slash)), x.rtakeWhile (· ≠ Path.slash)) = _
  rw [hdrop, htake]
  rfl

theorem withoutEndSlashes_cases (x : Text) :
    withoutEndSlashes x = x ∨ withoutEndSlashes x ≠ [] ∧
      ∃ n, x = withoutEndSlashes x ++ List.replicate n Path.slash := by
  by_cases hall : x.all (· = Path.slash)
  · exact .inl (if_pos hall)
  · rw [withoutEndSlashes, if_neg hall]
    change _ ∨ x.rdropWhile (· = Path.slash) ≠ [] ∧
      ∃ n, x = x.rdropWhile (· = Path.slash) ++ List.replicate n Path.slash
    refine .inr ⟨?_, (x.rtakeWhile (· = Path.slash)).length, ?_⟩
    · intro hnil
      apply hall
      rw [List.all_eq_true]
      exact List.rdropWhile_eq_nil_iff.1 hnil
    · have hslashes : x.rtakeWhile (· = Path.slash) =
          List.replicate (x.rtakeWhile (· = Path.slash)).length Path.slash := by
        apply List.eq_replicate_of_mem
        intro c hc
        simpa using List.mem_rtakeWhile_imp hc
      rw [← hslashes]
      exact List.rdropWhile_append_rtakeWhile.symm

theorem rungs_succ (count : Nat) (x : Text) :
    rungs (count + 1) x = ⟨x, (splitName x).2⟩ ::
      if (splitName x).1 = [] ∨ (splitName x).2 = [] then [] else rungs count (splitName x).1 := by
  rw [rungs]
  simp

theorem withoutEndSlashes_of_end (x : Text) {e : Char} (he : e ≠ Path.slash) :
    withoutEndSlashes (x ++ [e]) = x ++ [e] := by
  rw [withoutEndSlashes]
  split
  · rfl
  · exact List.rdropWhile_concat_neg _ _ e (by simpa using he)

theorem splitName_eq (x : Text) : splitName x = splitLast (withoutEndSlashes x) := by
  rcases List.eq_nil_or_concat' x with rfl | ⟨front, e, rfl⟩
  · rfl
  · by_cases he : e = Path.slash
    · subst he
      have hslash := splitLast_slash front (c := []) (by simp)
      rw [splitName, hslash]
      rfl
    · have hlast : (splitLast (front ++ [e])).2 ≠ [] := by
        simp [splitLast, he]
      rw [splitName, if_neg hlast, withoutEndSlashes_of_end _ he]

theorem exists_last_slash {x : Text} (h : Path.slash ∈ x) :
    ∃ front last, x = front ++ Path.slash :: last ∧ Path.slash ∉ last := by
  obtain ⟨after, before, hx, hafter⟩ := List.eq_append_cons_of_mem (List.mem_reverse.2 h)
  refine ⟨before.reverse, after.reverse, ?_, by simpa using hafter⟩
  rw [← List.reverse_reverse x, hx]
  simp

/-- The keys that the names of a written path are looked up at. -/
def way (x : Text) : List Key := Key.through (FileTree.startOf x) (steps x)

def goal (x : Text) : Key := Key.lead (FileTree.startOf x) (steps x)

def trail (x : Text) : List Key := Key.trail (FileTree.startOf x) (steps x)

theorem mem_trail {x : Text} {d : Key} : d ∈ trail x ↔ d ∈ way x ∨ d = goal x := Key.mem_trail

theorem startOf_append {x : Text} (h : x ≠ []) (y : Text) :
    FileTree.startOf (x ++ y) = FileTree.startOf x := by
  obtain ⟨c, rest, rfl⟩ := List.exists_cons_of_ne_nil h
  rfl

theorem lead_blanks (key : Key) (n : Nat) : Key.lead key (List.replicate n []) = key := by
  induction n with
  | zero => rfl
  | succ n ih => exact ih

theorem mem_trail_blanks {key d : Key} (n : Nat) :
    d ∈ Key.trail key (List.replicate n []) ↔ d = key := by
  induction n with
  | zero => exact List.mem_singleton
  | succ n ih =>
    rw [List.replicate_succ', Key.mem_trail_append, ih, lead_blanks, Key.mem_trail_singleton]
    change d = key ∨ d = key ∨ d = key ↔ d = key
    rw [or_self, or_self]

variable {x : Text} {d : Key}

theorem goal_slashes (hx : x ≠ []) (n : Nat) :
    goal (x ++ List.replicate n Path.slash) = goal x := by
  rw [goal, startOf_append hx, steps_append_slashes, Key.lead_append, lead_blanks]
  rfl

theorem mem_trail_slashes (hx : x ≠ []) (n : Nat) :
    d ∈ trail (x ++ List.replicate n Path.slash) ↔ d ∈ trail x := by
  rw [trail, startOf_append hx, steps_append_slashes, Key.mem_trail_append, mem_trail_blanks]
  refine or_iff_left_of_imp ?_
  rintro rfl
  exact mem_trail.2 (.inr rfl)

theorem goal_withoutEndSlashes (x : Text) : goal (withoutEndSlashes x) = goal x := by
  rcases withoutEndSlashes_cases x with he | ⟨hne, n, hx⟩
  · rw [he]
  · rw [hx, goal_slashes hne, ← hx]

theorem mem_trail_withoutEndSlashes : d ∈ trail (withoutEndSlashes x) ↔ d ∈ trail x := by
  rcases withoutEndSlashes_cases x with he | ⟨hne, n, hx⟩
  · rw [he]
  · rw [hx, mem_trail_slashes hne, ← hx]

section LastName

variable {front last : Text} (hlast : Path.slash ∉ last)

theorem startOf_slash (front last : Text) :
    FileTree.startOf (front ++ Path.slash :: last) = FileTree.startOf (front ++ [Path.slash]) := by
  rw [← startOf_append (show front ++ [Path.slash] ≠ [] by simp) last, List.append_assoc]
  rfl

include hlast

theorem steps_slash : steps (front ++ Path.slash :: last) = steps front ++ [last] := by
  rw [steps_append]
  exact congrArg _ (List.splitOn_eq_singleton hlast)

theorem goal_slash :
    goal (front ++ Path.slash :: last) = Key.step (goal (front ++ [Path.slash])) last := by
  have hblank : steps (front ++ [Path.slash]) = steps front ++ [[]] := steps_slash (by simp)
  rw [goal, goal, startOf_slash, steps_slash hlast, hblank, Key.lead_append, Key.lead_append]
  rfl

theorem mem_way_slash :
    d ∈ way (front ++ Path.slash :: last) ↔ d ∈ trail (front ++ [Path.slash]) := by
  have hblank : steps (front ++ [Path.slash]) = steps front ++ [[]] := steps_slash (by simp)
  rw [way, trail, startOf_slash, steps_slash hlast, hblank, Key.through_append,
    Key.mem_trail_append, Key.mem_trail, Key.mem_trail_singleton]
  simp only [Key.through, List.mem_append, List.mem_singleton]
  change _ ↔ (_ ∨ _) ∨ d = _ ∨ d = Key.lead _ _
  tauto

end LastName

/-- A written path ends in a name, and goes by some keys before that. -/
structure EndsIn (x : Text) (before : Key → Prop) : Prop where
  way : ∀ d ∈ way (withoutEndSlashes x), before d
  trail : ∀ d, d ∈ trail x ↔ before d ∨ d = goal x
  last : ∃ key name, before key ∧ goal x = Key.step key name

theorem withoutEndSlashes_ne_nil (hx : x ≠ []) : withoutEndSlashes x ≠ [] := by
  rcases withoutEndSlashes_cases x with he | ⟨hne, _⟩
  · rw [he]
    exact hx
  · exact hne

theorem startOf_withoutEndSlashes (x : Text) :
    FileTree.startOf (withoutEndSlashes x) = FileTree.startOf x := by
  rcases withoutEndSlashes_cases x with he | ⟨hne, n, hn⟩
  · rw [he]
  · rw [hn, startOf_append hne, ← hn]

theorem length_withoutEndSlashes_le (x : Text) : (withoutEndSlashes x).length ≤ x.length := by
  rcases withoutEndSlashes_cases x with he | ⟨_, n, hx⟩
  · rw [he]
  · rw [hx, List.length_append, ← hx]
    exact Nat.le_add_right _ _

theorem eq_slashes_of_withoutEndSlashes {front : Text}
    (h : withoutEndSlashes x = front ++ [Path.slash]) : ∃ n, x = List.replicate n Path.slash := by
  by_cases hall : x.all (· = Path.slash)
  · refine ⟨x.length, List.eq_replicate_of_mem fun c hc => ?_⟩
    simpa using List.all_eq_true.1 hall c hc
  · rw [withoutEndSlashes, if_neg hall] at h
    change x.rdropWhile (· = Path.slash) = _ at h
    have hne : x.rdropWhile (· = Path.slash) ≠ [] := by simp [h]
    have hend := List.rdropWhile_last_not (· = Path.slash) x hne
    simp [h] at hend

theorem endsIn_start (hx : x ≠ [])
    (h : (splitName x).1 = [] ∨ (splitName x).2 = []) : EndsIn x (· = FileTree.startOf x) := by
  rw [splitName_eq] at h
  by_cases hslash : Path.slash ∈ withoutEndSlashes x
  · obtain ⟨front, last, hw, hlast⟩ := exists_last_slash hslash
    rw [hw, splitLast_slash front hlast] at h
    obtain rfl : last = [] := h.resolve_left (withoutEndSlashes_ne_nil (by simp))
    obtain ⟨n, rfl⟩ := eq_slashes_of_withoutEndSlashes hw
    have hsteps : steps (List.replicate n Path.slash) = List.replicate (n + 1) [] :=
      steps_append_slashes [] n
    have htrail : ∀ d, d ∈ trail (List.replicate n Path.slash) ↔
        d = FileTree.startOf (List.replicate n Path.slash) := by
      intro d
      rw [trail, hsteps]
      exact mem_trail_blanks (n + 1)
    have hgoal : goal (List.replicate n Path.slash) =
        FileTree.startOf (List.replicate n Path.slash) := by
      rw [goal, hsteps, lead_blanks]
    refine ⟨?_, ?_, ⟨_, [], rfl, hgoal⟩⟩
    · intro d hd
      exact (htrail d).1 (mem_trail_withoutEndSlashes.1 (mem_trail.2 (.inl hd)))
    · intro d
      rw [htrail, hgoal, or_self]
  · have hsteps : steps (withoutEndSlashes x) = [withoutEndSlashes x] :=
      List.splitOn_eq_singleton hslash
    have hgoal : goal x = Key.step (FileTree.startOf x) (withoutEndSlashes x) := by
      rw [← goal_withoutEndSlashes, goal, hsteps, startOf_withoutEndSlashes]
      rfl
    refine ⟨?_, ?_, ⟨_, _, rfl, hgoal⟩⟩
    · intro d hd
      rw [way, hsteps, startOf_withoutEndSlashes] at hd
      exact List.mem_singleton.1 hd
    · intro d
      rw [← mem_trail_withoutEndSlashes, trail, hsteps, startOf_withoutEndSlashes,
        Key.mem_trail_singleton, hgoal]

theorem endsIn_above (h : ¬((splitName x).1 = [] ∨ (splitName x).2 = [])) :
    (splitName x).1.length < x.length ∧ EndsIn x (· ∈ trail (splitName x).1) ∧
      goal x = Key.step (goal (splitName x).1) (splitName x).2 := by
  rw [splitName_eq] at h ⊢
  have hslash : Path.slash ∈ withoutEndSlashes x := by
    by_contra hno
    rw [splitLast_no_slash hno] at h
    exact h (.inl rfl)
  obtain ⟨front, last, hw, hlast⟩ := exists_last_slash hslash
  rw [hw, splitLast_slash front hlast] at h ⊢
  have hgoal : goal x = Key.step (goal (withoutEndSlashes (front ++ [Path.slash]))) last := by
    rw [← goal_withoutEndSlashes, hw, goal_slash hlast, goal_withoutEndSlashes]
  refine ⟨?_, ⟨?_, ?_, ⟨_, last, mem_trail.2 (.inr rfl), hgoal⟩⟩, hgoal⟩
  · have hfront := length_withoutEndSlashes_le (front ++ [Path.slash])
    have hlength := length_withoutEndSlashes_le x
    have hpos : 0 < last.length := List.length_pos_iff.2 fun hnil => h (.inr hnil)
    rw [hw] at hlength
    dsimp only
    simp only [List.length_append, List.length_cons, List.length_nil] at hfront hlength
    omega
  · intro d hd
    rw [hw, mem_way_slash hlast] at hd
    exact mem_trail_withoutEndSlashes.2 hd
  · intro d
    rw [← mem_trail_withoutEndSlashes, hw, mem_trail, mem_way_slash hlast, ← hw,
      goal_withoutEndSlashes]
    exact or_congr_left mem_trail_withoutEndSlashes.symm

end WrittenPath

namespace FileTree

open WrittenPath

variable {t t' : FileTree} {key k : Key} {x : Text} {content : Bytes}

theorem locate_eq_ok_way (hx : x ≠ []) :
    t.locate x = .ok k ↔ (∀ d ∈ way x, t.find d = some .directory) ∧ k = goal x := by
  rw [locate, if_neg hx]
  exact follow_eq_ok_iff

theorem entry_of_locate (hl : t.locate x = .ok key) : t.entry? x = t.find key := by
  simp only [ entry?, hl]

theorem locate_of_entry {e : Entry} (h : t.entry? x = some e) :
    ∃ key, t.locate x = .ok key ∧ t.find key = some e := by
  cases hl : t.locate x with
  | error cause => simp [ entry?, hl] at h
  | ok key => exact ⟨key, rfl, (entry_of_locate hl).symm.trans h⟩

theorem entry_of_trail (hx : x ≠ []) (h : ∀ d ∈ trail x, t.find d = some .directory) :
    t.entry? x = some .directory := by
  have hl : t.locate x = .ok (goal x) :=
    (locate_eq_ok_way hx).2 ⟨fun d hd => h d (mem_trail.2 (.inl hd)), rfl⟩
  rw [entry_of_locate hl]
  exact h _ (mem_trail.2 (.inr rfl))

theorem mkdir_of_locate (hl : t.locate (withoutEndSlashes x) = .ok key) (hnone : t.find key = none)
    (hparent : t.find key.dropLast = some .directory) : ∃ t', t.mkdir x = .ok t' := by
  cases hm : t.mkdir x with
  | ok t' => exact ⟨t', rfl⟩
  | error fault =>
    rw [mkdir, hl] at hm
    dsimp only at hm
    split at hm
    · rename_i hsome
      rw [hnone] at hsome
      cases hsome
    · rw [dif_pos hparent] at hm
      cases hm

/-- How making a directory ends in a tree. Where reuse is not asked for, one that was there already
makes the change a refusal. -/
inductive Made (reuse : Bool) (t' : FileTree) : EStateM.Result FileFault FileTree Unit → Prop where
  | done : Made reuse t' (.ok () t')
  | alreadyThere {path : Text} : reuse = false →
      Made reuse t' (.error ⟨.alreadyExists, path⟩ t')

theorem Made.eq_ok {r : EStateM.Result FileFault FileTree Unit} (h : Made true t' r) :
    r = .ok () t' := by
  cases h with
  | done => rfl
  | alreadyThere hno => cases hno

theorem Made.ending {reuse : Bool} {r : EStateM.Result FileFault FileTree Unit}
    (h : Made reuse t' r) : Change.ending r = t' := by
  cases h <;> rfl

theorem makeDirectory_of_entry (reuse : Bool) (h : t.entry? x = some .directory) (hx : x ≠ []) :
    Made reuse t (makeDirectory reuse x t) := by
  obtain ⟨place, hl, hdirectory⟩ := locate_of_entry h
  obtain ⟨hway, rfl⟩ := (locate_eq_ok_way hx).1 hl
  have hgoal := goal_withoutEndSlashes x
  have hl' : t.locate (withoutEndSlashes x) = .ok (goal x) := by
    refine (locate_eq_ok_way (withoutEndSlashes_ne_nil hx)).2 ⟨fun d hd => ?_, hgoal.symm⟩
    rcases mem_trail.1 (mem_trail_withoutEndSlashes.1 (mem_trail.2 (.inl hd))) with hd | rfl
    · exact hway d hd
    · exact hdirectory
  have hm : t.mkdir x = .error ⟨.alreadyExists, x⟩ := by
    rw [mkdir, hl']
    dsimp only
    split
    · rfl
    · rename_i hnone
      cases hdirectory.symm.trans hnone
  rw [makeDirectory, hm]
  cases reuse with
  | true =>
    dsimp only
    rw [if_pos ⟨rfl, h⟩]
    exact .done
  | false =>
    dsimp only
    rw [if_neg fun hno => Bool.false_ne_true hno.1]
    exact .alreadyThere rfl

/-- A directory stands at each of some keys, and everything else is as it was. -/
def Paved (t t' : FileTree) (keys : Key → Prop) : Prop :=
  ∀ k, (keys k → t'.find k = some .directory) ∧ (¬keys k → t'.find k = t.find k)

theorem Paved.trans {t'' : FileTree} {keys more : Key → Prop} (h : Paved t t' keys)
    (h' : Paved t' t'' more) (hmore : ∀ k, keys k → more k) : Paved t t'' more := by
  intro k
  refine ⟨(h' k).1, fun hk => ?_⟩
  rw [(h' k).2 hk, (h k).2 fun hkeys => hk (hmore k hkeys)]

theorem makeDirectory_made (reuse : Bool) {before : Key → Prop} (hx : x ≠ [])
    (hends : EndsIn x before) (hbefore : ∀ d, before d → t.find d = some .directory)
    (hfree : ∀ content, t.find (goal x) ≠ some (.file content)) :
    ∃ t', Made reuse t' (makeDirectory reuse x t) ∧ Paved t t' (· ∈ trail x) := by
  cases hgoal : t.find (goal x) with
  | some e =>
    cases e with
    | file content => exact absurd hgoal (hfree content)
    | directory =>
      have hall : ∀ d ∈ trail x, t.find d = some .directory := by
        intro d hd
        rcases (hends.trail d).1 hd with hd | rfl
        · exact hbefore d hd
        · exact hgoal
      exact ⟨t, makeDirectory_of_entry reuse (entry_of_trail hx hall) hx,
        fun k => ⟨fun hk => hall k hk, fun _ => rfl⟩⟩
  | none =>
    obtain ⟨key, name, hkey, hstep⟩ := hends.last
    have hdirectory := hbefore key hkey
    have hbelow : goal x = key ++ [name] := by
      rcases Key.step_cases key name with hs | hs | hs
      · rw [hstep, hs, hdirectory] at hgoal
        cases hgoal
      · rw [hstep, hs, find_parent hdirectory] at hgoal
        cases hgoal
      · rw [hstep, hs]
    have hl : t.locate (withoutEndSlashes x) = .ok (goal x) :=
      (locate_eq_ok_way (withoutEndSlashes_ne_nil hx)).2
        ⟨fun d hd => hbefore d (hends.way d hd), (goal_withoutEndSlashes x).symm⟩
    have hparent : t.find (goal x).dropLast = some .directory := by
      rw [hbelow, List.dropLast_concat, hdirectory]
    obtain ⟨t', hm⟩ := mkdir_of_locate hl hgoal hparent
    obtain ⟨place, hl', _, hfind⟩ := find_of_mkdir hm
    obtain rfl : place = goal x := Except.ok.inj (hl'.symm.trans hl)
    refine ⟨t', by rw [makeDirectory, hm]; exact .done, fun k => ⟨fun hk => ?_, fun hk => ?_⟩⟩
    · rw [hfind]
      rcases (hends.trail k).1 hk with hk | rfl
      · rw [hbefore k hk]
        exact ite_self _
      · exact if_pos rfl
    · rw [hfind, if_neg fun he => hk ((hends.trail k).2 (.inr he))]

section Rungs

variable {reuse : Bool} {next : Rung} {above : List Rung} {name : Text}

theorem makeRungs_next (hmade : Made reuse t' (makeRungs reuse (next :: above) t))
    (hmissing : ¬(t.entry? next.path).isSome) :
    makeRungs reuse (⟨x, name⟩ :: next :: above) t =
      if name = Path.here then .ok () t' else makeDirectory reuse x t' := by
  rw [makeRungs]
  dsimp only
  rw [if_neg hmissing]
  generalize makeRungs reuse (next :: above) t = r at hmade
  cases hmade with
  | done => rfl
  | alreadyThere _ => exact if_neg fun hno => hno rfl

theorem makeRungs_below (hx : x ≠ []) (hnext : next.path ≠ [])
    (hends : EndsIn x (· ∈ trail next.path)) (hstep : goal x = Key.step (goal next.path) name)
    (hfree : ∀ d ∈ trail x, ∀ content, t.find d ≠ some (.file content))
    (hmade : Made reuse t' (makeRungs reuse (next :: above) t))
    (hpaved : Paved t t' (· ∈ trail next.path)) :
    ∃ t'', Made reuse t'' (makeRungs reuse (⟨x, name⟩ :: next :: above) t) ∧
      Paved t t'' (· ∈ trail x) := by
  have habove : ∀ d ∈ trail next.path, d ∈ trail x := fun d hd => (hends.trail d).2 (.inl hd)
  have hgoal := hfree _ (mem_trail.2 (.inr rfl))
  by_cases hthere : (t.entry? next.path).isSome
  · rw [makeRungs]
    dsimp only
    rw [if_pos hthere]
    obtain ⟨e, he⟩ := Option.isSome_iff_exists.1 hthere
    obtain ⟨key, hl, hfind⟩ := locate_of_entry he
    obtain ⟨hway, rfl⟩ := (locate_eq_ok_way hnext).1 hl
    apply makeDirectory_made reuse hx hends _ hgoal
    intro d hd
    rcases mem_trail.1 hd with hd' | rfl
    · exact hway d hd'
    · cases e with
      | directory => exact hfind
      | file content => exact absurd hfind (hfree _ (habove _ hd) content)
  · rw [makeRungs_next hmade hthere]
    by_cases hhere : name = Path.here
    · -- The rung above is the directory itself.
      rw [if_pos hhere]
      have hsame : ∀ d, d ∈ trail x ↔ d ∈ trail next.path := by
        intro d
        rw [hends.trail]
        refine or_iff_left_of_imp ?_
        rintro rfl
        rw [hstep, hhere]
        exact mem_trail.2 (.inr rfl)
      exact ⟨t', .done, hpaved.trans (fun k => ⟨(hpaved k).1 ∘ (hsame k).1, fun _ => rfl⟩) habove⟩
    · rw [if_neg hhere]
      have hgoal' : ∀ content, t'.find (goal x) ≠ some (.file content) := by
        intro content
        by_cases hon : goal x ∈ trail next.path
        · rw [(hpaved _).1 hon]
          exact fun h => by cases h
        · rw [(hpaved _).2 hon]
          exact hgoal content
      obtain ⟨t'', hlast, hpaved'⟩ :=
        makeDirectory_made reuse hx hends (fun d => (hpaved d).1) hgoal'
      exact ⟨t'', hlast, hpaved.trans hpaved' habove⟩

end Rungs

/-- Where no file stands in the way, a ladder makes a directory at each key that its path comes by. -/
theorem makeRungs_made (reuse : Bool) (hx : x ≠ [])
    (hfree : ∀ d ∈ trail x, ∀ content, t.find d ≠ some (.file content)) {count : Nat}
    (hcount : x.length < count) :
    ∃ t', Made reuse t' (makeRungs reuse (rungs count x) t) ∧ Paved t t' (· ∈ trail x) := by
  induction count generalizing x with
  | zero => omega
  | succ count ih =>
    rw [rungs_succ]
    by_cases htop : (splitName x).1 = [] ∨ (splitName x).2 = []
    · rw [if_pos htop]
      apply makeDirectory_made reuse hx (endsIn_start hx htop) _ (hfree _ (mem_trail.2 (.inr rfl)))
      rintro d rfl
      apply t.find_anchor
      rw [startOf]
      split <;> rfl
    · obtain ⟨hlength, hends, hstep⟩ := endsIn_above htop
      rw [if_neg htop]
      rw [not_or] at htop
      obtain ⟨t₁, hmade, hpaved⟩ := ih htop.1
        (fun d hd => hfree d ((hends.trail d).2 (.inl hd))) (by omega)
      obtain ⟨count, rfl⟩ := Nat.exists_eq_succ_of_ne_zero (by omega : count ≠ 0)
      rw [rungs_succ] at hmade ⊢
      exact makeRungs_below hx htop.1 hends hstep hfree hmade hpaved

section Deposit

variable (hslash : Path.slash ∈ x)
  (hproper : ∃ front last, steps x = front ++ [last] ∧ Path.isName last ∧ last ≠ Path.above)
  (hfree : ∀ d ∈ way x, ∀ content, t.find d ≠ some (.file content))

include hslash hproper hfree

theorem deposit_eq_write (content : Bytes) :
    ∃ t₁, Paved t t₁ (· ∈ way x) ∧ t₁.locate x = .ok (goal x) ∧
      t₁.find (goal x).dropLast = some .directory ∧
      deposit x content t = Change.single (·.write x content) t₁ := by
  obtain ⟨front, last, rfl, hlast⟩ := exists_last_slash hslash
  obtain ⟨before, name, hsteps, hname, habove⟩ := hproper
  obtain rfl : last = name := by
    rw [steps_slash hlast] at hsteps
    exact List.singleton_inj.1 (List.append_inj' hsteps rfl).2
  have hway : ∀ d, d ∈ way (front ++ Path.slash :: last) ↔
      d ∈ trail (withoutEndSlashes (front ++ [Path.slash])) :=
    fun d => (mem_way_slash hlast).trans mem_trail_withoutEndSlashes.symm
  have hbelow : goal (front ++ Path.slash :: last) = goal (front ++ [Path.slash]) ++ [last] := by
    rw [goal_slash hlast, Key.step_of_isName hname habove]
  have hne : withoutEndSlashes (front ++ [Path.slash]) ≠ [] := withoutEndSlashes_ne_nil (by simp)
  obtain ⟨t₁, hmade, hpaved⟩ : ∃ t₁,
      Made true t₁ (makeDirectories true (withoutEndSlashes (front ++ [Path.slash])) t) ∧
        Paved t t₁ (· ∈ trail (withoutEndSlashes (front ++ [Path.slash]))) :=
    makeRungs_made true hne (fun d hd => hfree d ((hway d).2 hd)) (Nat.lt_succ_self _)
  refine ⟨t₁, fun k => ?_, ?_, ?_, ?_⟩
  · exact ⟨fun hk => (hpaved k).1 ((hway k).1 hk), fun hk => (hpaved k).2 fun hon => hk ((hway k).2 hon)⟩
  · exact (locate_eq_ok_way (by simp)).2 ⟨fun d hd => (hpaved d).1 ((hway d).1 hd), rfl⟩
  · rw [hbelow, List.dropLast_concat]
    apply (hpaved _).1
    exact mem_trail_withoutEndSlashes.2 (mem_trail.2 (.inr rfl))
  · have hdirectory : directoryOf (front ++ Path.slash :: last) =
        withoutEndSlashes (front ++ [Path.slash]) := by
      rw [directoryOf, splitLast_slash front hlast]
    simp only [deposit, hdirectory, if_neg hne, hmade.eq_ok]

theorem deposit_ok (hoff : goal x ∉ way x) (hgoal : t.find (goal x) ≠ some .directory)
    (content : Bytes) :
    ∃ t', deposit x content t = .ok () t' ∧ t'.find (goal x) = some (.file content) ∧
      (∀ d ∈ way x, t'.find d = some .directory) ∧
      ∀ k, k ≠ goal x → k ∉ way x → t'.find k = t.find k := by
  obtain ⟨t₁, hpaved, hl, hparent, hdeposit⟩ := deposit_eq_write hslash hproper hfree content
  have hgoal' : t₁.find (goal x) ≠ some .directory := by
    rw [(hpaved _).2 hoff]
    exact hgoal
  obtain ⟨t', hwrite⟩ := write_of_locate hl hgoal' hparent content
  obtain ⟨key, hl', _, hfind⟩ := find_of_write hwrite
  obtain rfl := Except.ok.inj (hl'.symm.trans hl)
  refine ⟨t', ?_, ?_, ?_, ?_⟩
  · simp only [hdeposit, Change.single, hwrite]
  · rw [hfind, if_pos rfl]
  · intro d hd
    have hapart : d ≠ goal x := by
      rintro rfl
      exact hoff hd
    rw [hfind, if_neg hapart]
    exact (hpaved d).1 hd
  · intro k hk hoffway
    rw [hfind, if_neg hk]
    exact (hpaved k).2 hoffway

theorem deposit_lays (content : Bytes) :
    (Change.ending (deposit x content t)).find (goal x) ≠ none ∧
      (∀ d ∈ way x, (Change.ending (deposit x content t)).find d = some .directory) ∧
      ∀ k, k ≠ goal x → k ∉ way x →
        (Change.ending (deposit x content t)).find k = t.find k := by
  obtain ⟨t₁, hpaved, hl, hparent, hdeposit⟩ := deposit_eq_write hslash hproper hfree content
  rw [hdeposit, Change.single]
  by_cases hgoal : t₁.find (goal x) = some .directory
  · have hwrite : t₁.write x content = .error ⟨.isADirectory, x⟩ := by
      simp only [write, hl, dif_pos hgoal]
    rw [hwrite]
    exact ⟨by simp [Change.ending, hgoal], fun d => (hpaved d).1, fun k _ => (hpaved k).2⟩
  · obtain ⟨t', hwrite⟩ := write_of_locate hl hgoal hparent content
    obtain ⟨key, hl', _, hfind⟩ := find_of_write hwrite
    obtain rfl := Except.ok.inj (hl'.symm.trans hl)
    rw [hwrite]
    refine ⟨by simp [Change.ending, hfind], fun d hd => ?_, fun k hk hoff => ?_⟩
    · have hapart : d ≠ goal x := by
        rintro rfl
        exact hgoal ((hpaved _).1 hd)
      exact ((hfind d).trans (if_neg hapart)).trans ((hpaved d).1 hd)
    · exact ((hfind k).trans (if_neg hk)).trans ((hpaved k).2 hoff)

end Deposit

/-- A directory is there, and so is every directory that its path comes by. -/
structure HasDirectory (t : FileTree) (p : Path) : Prop where
  way : ∀ d ∈ p.way, t.find d = some .directory
  place : t.find p.place = some .directory

theorem HasDirectory.locate {p : Path} (h : t.HasDirectory p) : t.locate p.toText = .ok p.place :=
  locate_eq_ok_iff.2 ⟨h.way, rfl⟩

theorem hasDirectory_iff_entry {p : Path} :
    t.HasDirectory p ↔ t.entry? p.toText = some .directory := by
  constructor
  · intro h
    rw [entry_of_locate h.locate, h.place]
  · intro h
    obtain ⟨key, hl, hd⟩ := locate_of_entry h
    obtain ⟨hway, rfl⟩ := locate_eq_ok_iff.1 hl
    exact ⟨hway, hd⟩

/-- One tree is another one with something at the end of a path and directories on the way to it. -/
structure Laid (t t' : FileTree) (copy : Path) : Prop where
  there : t'.find copy.place ≠ none
  way : ∀ d ∈ copy.way, t'.find d = some .directory
  kept : ∀ k, k ≠ copy.place → k ∉ copy.way → t'.find k = t.find k

structure Deposited (t t' : FileTree) (copy : Path) (content : Bytes) : Prop where
  file : t'.find copy.place = some (.file content)
  way : ∀ d ∈ copy.way, t'.find d = some .directory
  kept : ∀ k, k ≠ copy.place → k ∉ copy.way → t'.find k = t.find k

theorem Deposited.laid {copy : Path} (h : t.Deposited t' copy content) : t.Laid t' copy where
  there := by simp [h.file]
  way := h.way
  kept := h.kept

/-- A file can be put at the end of a path: no file is on the way, and no directory where it belongs. -/
structure Open (t : FileTree) (copy : Path) : Prop where
  way : ∀ d ∈ copy.way, ∀ content, t.find d ≠ some (.file content)
  off : copy.place ∉ copy.way
  place : t.find copy.place ≠ some .directory

theorem deposit_steps (h : deposit x content t = .ok () t') :
    ∃ t₁, t.Adds t₁ ∧ t₁.write x content = .ok t' := by
  have hwritten : ∀ t₁ : FileTree, Change.single (·.write x content) t₁ = .ok () t' →
      t₁.write x content = .ok t' := by
    intro t₁ hsingle
    rw [Change.single] at hsingle
    split at hsingle
    · rename_i hwrite
      cases hsingle
      exact hwrite
    · cases hsingle
  unfold deposit at h
  dsimp only at h
  by_cases hdirectory : directoryOf x = []
  · rw [if_pos hdirectory] at h
    exact ⟨t, .refl t, hwritten t h⟩
  · rw [if_neg hdirectory] at h
    cases hmade : makeDirectories true (directoryOf x) t with
    | error fault t₁ =>
      rw [hmade] at h
      cases h
    | ok _ t₁ =>
      rw [hmade] at h
      have hadds := makeRungs_adds true (ladder (directoryOf x)) t
      rw [← makeDirectories, hmade] at hadds
      exact ⟨t₁, hadds, hwritten t₁ h⟩

theorem free_of_deposit (hx : x ≠ []) (h : deposit x content t = .ok () t') :
    (∀ d ∈ way x, ∀ content, t.find d ≠ some (.file content)) ∧ goal x ∉ way x ∧
      t.find (goal x) ≠ some .directory := by
  obtain ⟨t₁, hadds, hwrite⟩ := deposit_steps h
  obtain ⟨key, hl, hfree, _⟩ := find_of_write hwrite
  obtain ⟨hway, rfl⟩ := (locate_eq_ok_way hx).1 hl
  refine ⟨fun d hd old hfile => ?_, fun hmem => hfree (hway _ hmem), fun hd => hfree (hadds _ _ hd)⟩
  cases (hadds d _ hfile).symm.trans (hway d hd)

end FileTree

namespace Path

variable {p : Path} {d : Key}

theorem mem_trail_steps_toText (p : Path) :
    (∀ d, d ∈ Key.trail p.start (WrittenPath.steps p.toText) ↔ d ∈ Key.trail p.start p.names) ∧
      Key.lead p.start (WrittenPath.steps p.toText) = p.place := by
  by_cases hnone : p.leading = 0 ∧ p.names = []
  · have hstart : p.start = [] := start_relative hnone.1
    rw [toText, if_pos hnone, place, hstart, hnone.2]
    refine ⟨fun d => ?_, rfl⟩
    change d ∈ Key.trail [] [here] ↔ d ∈ [[]]
    rw [Key.mem_trail_singleton, List.mem_singleton]
    change d = [] ∨ d = [] ↔ d = []
    rw [or_self]
  · rw [toText, if_neg hnone, steps_slashes, place, Key.lead_append, WrittenPath.lead_blanks]
    have hblanks : ∀ d names, d ∈ Key.trail p.start (List.replicate p.leading [] ++ names) ↔
        d ∈ Key.trail p.start names := by
      intro d names
      rw [Key.mem_trail_append, WrittenPath.mem_trail_blanks, WrittenPath.lead_blanks]
      refine or_iff_right_of_imp ?_
      rintro rfl
      exact Key.self_mem_trail _ _
    by_cases hn : p.names = []
    · rw [hn]
      refine ⟨fun d => ?_, rfl⟩
      rw [hblanks]
      change d ∈ Key.trail p.start (List.replicate 1 []) ↔ _
      rw [WrittenPath.mem_trail_blanks]
      exact List.mem_singleton.symm
    · rw [WrittenPath.steps, List.splitOn_intercalate _ p.not_mem_slash hn]
      exact ⟨fun d => hblanks d _, rfl⟩

theorem goal_toText (p : Path) : WrittenPath.goal p.toText = p.place := by
  rw [WrittenPath.goal, FileTree.startOf_toText]
  exact p.mem_trail_steps_toText.2

theorem mem_trail_toText : d ∈ WrittenPath.trail p.toText ↔ d ∈ p.way ∨ d = p.place := by
  rw [WrittenPath.trail, FileTree.startOf_toText, p.mem_trail_steps_toText.1, Key.mem_trail]
  rfl

theorem toText_ne_nil (p : Path) : p.toText ≠ [] := by
  by_cases hnone : p.leading = 0 ∧ p.names = []
  · rw [toText, if_pos hnone]
    simp [here]
  · obtain ⟨c, rest, htext, _⟩ := p.toText_eq_cons hnone
    simp [htext]

variable {base copy : Path} {path : Text}

theorem goal_written (h : copy.LeadsOn base (WrittenPath.steps path)) :
    WrittenPath.goal (base.toText ++ slash :: path) = copy.place := by
  have hbase := base.goal_toText
  rw [WrittenPath.goal] at hbase ⊢
  rw [WrittenPath.startOf_append base.toText_ne_nil, WrittenPath.steps_append, Key.lead_append, hbase,
    Key.lead_of_descend h.descend, h.place_eq]

theorem mem_way_written (h : copy.LeadsOn base (WrittenPath.steps path)) :
    d ∈ WrittenPath.way (base.toText ++ slash :: path) ↔ d ∈ copy.way := by
  have hplace : base.place ∈ Key.through base.place (WrittenPath.steps path) := by
    obtain ⟨first, rest, hsteps⟩ := List.exists_cons_of_ne_nil (WrittenPath.steps_ne_nil path)
    rw [hsteps]
    exact List.mem_cons_self
  have hbase := base.goal_toText
  have htrail := @mem_trail_toText base d
  rw [WrittenPath.mem_trail, hbase] at htrail
  rw [WrittenPath.goal] at hbase
  rw [WrittenPath.way, WrittenPath.startOf_append base.toText_ne_nil, WrittenPath.steps_append,
    Key.through_append, hbase, List.mem_append, way, h.start_eq, h.names, Key.through_append,
    List.mem_append]
  change d ∈ WrittenPath.way base.toText ∨ _ ↔ d ∈ base.way ∨ d ∈ Key.through base.place _
  constructor
  · rintro (hd | hd)
    · rcases htrail.1 (.inl hd) with hd | rfl
      · exact .inl hd
      · exact .inr hplace
    · exact .inr hd
  · rintro (hd | hd)
    · rcases htrail.2 (.inl hd) with hd | rfl
      · exact .inl hd
      · exact .inr hplace
    · exact .inr hd

end Path

namespace Staged

variable {scratch : Path} {path : Text} {t : FileTree}

theorem checkoutCommand_target (scratch : Path) (path : Text) :
    (checkoutCommand scratch path).checkoutTarget? =
      some (scratch.toText ++ Path.slash :: path) := by
  have hword : (checkoutCommand scratch path)[1]? = some Command.checkoutWord := rfl
  have hplace : (checkoutCommand scratch path).find? Command.placeWord.isPrefixOf =
      some (Command.placeWord ++ scratch.toText ++ [Path.slash]) := by
    have hprefix : Command.placeWord.isPrefixOf
        (Command.placeWord ++ scratch.toText ++ [Path.slash]) = true := by
      rw [List.isPrefixOf_iff_prefix, List.append_assoc]
      exact List.prefix_append _ _
    rw [checkoutCommand, Git.command, List.find?_cons_of_neg (by decide),
      List.find?_cons_of_neg (by decide), List.find?_cons_of_neg (by decide),
      List.find?_cons_of_pos hprefix]
  have hlast : (checkoutCommand scratch path).getLast? = some path := rfl
  rw [Command.checkoutTarget?, if_pos hword, hplace, hlast]
  dsimp only
  rw [List.append_assoc, List.drop_left, List.append_assoc]
  rfl

theorem proper_written (hpath : WrittenPath.IsRepositoryPath path) :
    ∃ front last, WrittenPath.steps (scratch.toText ++ Path.slash :: path) = front ++ [last] ∧
      Path.isName last ∧ last ≠ Path.above := by
  obtain ⟨front, last, hsteps⟩ :=
    (List.eq_nil_or_concat' _).resolve_left (WrittenPath.steps_ne_nil path)
  refine ⟨WrittenPath.steps scratch.toText ++ front, last, ?_, hpath last (by simp [hsteps])⟩
  rw [WrittenPath.steps_append, hsteps, List.append_assoc]

theorem leave_checkout (hpath : WrittenPath.IsRepositoryPath path)
    (hopen : t.Open (scratch.child path)) (content : Bytes) :
    ∃ t', (checkoutCommand scratch path).leave (.file content) t = .ok () t' ∧
      t.Deposited t' (scratch.child path) content := by
  have h := hpath.leadsOn scratch
  have hgoal := Path.goal_written h
  have hway := fun d => @Path.mem_way_written d _ _ _ h
  have hoff' : WrittenPath.goal (scratch.toText ++ Path.slash :: path) ∉
      WrittenPath.way (scratch.toText ++ Path.slash :: path) := by
    rw [hgoal, hway]
    exact hopen.off
  have hcopy := hopen.place
  rw [← hgoal] at hcopy
  obtain ⟨t', hdeposit, hfile, hmade, hkept⟩ := FileTree.deposit_ok (by simp) (proper_written hpath)
    (fun d hd => hopen.way d ((hway d).1 hd)) hoff' hcopy content
  rw [hgoal] at hfile hkept
  refine ⟨t', ?_, hfile, fun d hd => hmade d ((hway d).2 hd),
    fun k hk hoff => hkept k hk fun hon => hoff ((hway k).1 hon)⟩
  simp only [Command.leave, checkoutCommand_target, hdeposit]

theorem open_of_leave {content : Bytes} (hpath : WrittenPath.IsRepositoryPath path)
    (h : (checkoutCommand scratch path).leave (.file content) t = .ok () t') :
    t.Open (scratch.child path) ∧ t.Deposited t' (scratch.child path) content := by
  have hcopy := hpath.leadsOn scratch
  have hdeposit : FileTree.deposit (scratch.toText ++ Path.slash :: path) content t = .ok () t' := by
    simpa only [Command.leave, checkoutCommand_target] using h
  obtain ⟨hway, hoff, hplace⟩ := FileTree.free_of_deposit (by simp) hdeposit
  rw [Path.goal_written hcopy] at hoff hplace
  rw [Path.mem_way_written hcopy] at hoff
  have hopen : t.Open (scratch.child path) :=
    ⟨fun d hd => hway d ((Path.mem_way_written hcopy).2 hd), hoff, hplace⟩
  obtain ⟨u, hleave, hdeposited⟩ := leave_checkout hpath hopen content
  cases h.symm.trans hleave
  exact ⟨hopen, hdeposited⟩

/-- Whatever a checkout is to leave, and even if it cannot, something stands at its place then. -/
theorem leave_lays (hpath : WrittenPath.IsRepositoryPath path)
    (hfree : ∀ d ∈ (scratch.child path).way, ∀ content, t.find d ≠ some (.file content))
    (hplace : ∀ content, t.find (scratch.child path).place ≠ some (.file content))
    {left : Deposit} (hleft : left ≠ .nothing) :
    t.Laid (FileTree.Change.ending ((checkoutCommand scratch path).leave left t))
      (scratch.child path) := by
  have h := hpath.leadsOn scratch
  have hgoal := Path.goal_written h
  have hway := fun d => @Path.mem_way_written d _ _ _ h
  have hfree' : ∀ d ∈ WrittenPath.way (scratch.toText ++ Path.slash :: path),
      ∀ content, t.find d ≠ some (.file content) := fun d hd => hfree d ((hway d).1 hd)
  simp only [Command.leave, checkoutCommand_target]
  cases left with
  | nothing => exact absurd rfl hleft
  | file content =>
    obtain ⟨hthere, hmade, hkept⟩ :=
      FileTree.deposit_lays (by simp) (proper_written hpath) hfree' content
    rw [hgoal] at hthere hkept
    exact ⟨hthere, fun d hd => hmade d ((hway d).2 hd),
      fun k hk hoff => hkept k hk fun hon => hoff ((hway k).1 hon)⟩
  | directory =>
    have htrail : ∀ d, d ∈ WrittenPath.trail (scratch.toText ++ Path.slash :: path) ↔
        d ∈ (scratch.child path).way ∨ d = (scratch.child path).place := by
      intro d
      rw [WrittenPath.mem_trail, hway, hgoal]
    obtain ⟨t', hmade, hpaved⟩ := FileTree.makeRungs_made (t := t)
      (x := scratch.toText ++ Path.slash :: path) false (by simp)
      (fun d hd => by
        rcases (htrail d).1 hd with hd | rfl
        · exact hfree d hd
        · exact hplace) (Nat.lt_succ_self _)
    dsimp only
    rw [FileTree.makeDirectories, WrittenPath.ladder, hmade.ending]
    have hdirectory : t'.find (scratch.child path).place = some .directory :=
      (hpaved _).1 ((htrail _).2 (.inr rfl))
    exact ⟨by simp [hdirectory], fun d hd => (hpaved d).1 ((htrail d).2 (.inl hd)),
      fun k hk hoff => (hpaved k).2 fun hon => ((htrail k).1 hon).elim hoff hk⟩

end Staged

end CommitGate
