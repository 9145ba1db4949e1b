import CommitGate.Dialogue
import CommitGate.Proofs.CallLines
import CommitGate.Proofs.Clean
import CommitGate.Proofs.Context
import CommitGate.Proofs.Newline
import CommitGate.Proofs.Utf8
import Mathlib.Data.List.Forall2

/-! The line numbers that a script check reports. They are those of the text as it is read, where a
carriage return alone is the end of a line; no other character but the line feed is one. -/
namespace CommitGate

namespace Text

theorem splitOn_of_paired {text : Text} (h : Paired text) :
    List.Forall₂ (fun piece line => piece = line ∨ piece = line ++ ['\r']) (text.splitOn '\n')
      ((unifyNewlines text).splitOn '\n') := by
  fun_induction unifyNewlines text with
  | case1 => exact .cons (.inl rfl) .nil
  | case2 rest ih =>
    rw [Paired] at h
    have hwritten : ('\r' :: '\n' :: rest : Text).splitOn '\n' = ['\r'] :: rest.splitOn '\n' :=
      splitOn_append_newline ['\r'] rest
    rw [hwritten]
    exact .cons (.inr rfl) (ih h)
  | case3 rest hlone _ =>
    rw [Paired] at h
    · exact h.elim
    · exact hlone
  | case4 c rest _ hc ih =>
    have hrest := ih ((paired_cons hc).1 h)
    rw [List.splitOn_cons_eq_if_modifyHead, List.splitOn_cons_eq_if_modifyHead]
    split
    · exact .cons (.inl rfl) hrest
    · generalize rest.splitOn '\n' = pieces at hrest ⊢
      generalize (unifyNewlines rest).splitOn '\n' = lines at hrest ⊢
      cases hrest with
      | nil => exact .nil
      | cons hfirst hmore => exact .cons (hfirst.imp (congrArg _) (congrArg _)) hmore

theorem length_splitOn_le (text : Text) :
    (text.splitOn '\n').length ≤ ((unifyNewlines text).splitOn '\n').length := by
  fun_induction unifyNewlines text with
  | case1 => rfl
  | case2 rest ih => simpa [List.splitOn_cons_eq_if_modifyHead] using ih
  | case3 rest _ ih =>
    simp only [List.splitOn_cons_eq_if_modifyHead]
    simpa using Nat.le_succ_of_le ih
  | case4 c rest _ _ ih =>
    simp only [List.splitOn_cons_eq_if_modifyHead]
    split <;> simpa using ih

end Text

namespace LineComment

theorem cut_append_cons {sep : Char} (hsep : sep ≠ '/') (a b : Text) :
    cut (a ++ sep :: b) = cut a ∨ cut a = a ∧ cut (a ++ sep :: b) = a ++ sep :: cut b := by
  have hcons : ∀ rest, cut (sep :: rest) = sep :: cut rest := by
    intro rest
    rw [cut]
    rintro _ rfl
    exact absurd rfl hsep
  fun_induction cut a with
  | case1 => exact .inr ⟨rfl, hcons b⟩
  | case2 rest =>
    left
    rw [List.cons_append, List.cons_append, cut]
  | case3 c rest hc ih =>
    have hstep : cut (c :: rest ++ sep :: b) = c :: cut (rest ++ sep :: b) := by
      rw [List.cons_append, cut]
      rintro more rfl he
      cases rest with
      | nil => exact hsep (List.cons.inj he).1
      | cons d more' =>
        obtain ⟨rfl, -⟩ := List.cons.inj he
        exact hc more' rfl rfl
    rw [hstep]
    rcases ih with he | ⟨hsame, he⟩
    · exact .inl (congrArg _ he)
    · exact .inr ⟨congrArg _ hsame, congrArg _ he⟩

end LineComment

namespace Check

open Session

/-- A line of a script that counts as a hit: a call stands in it before its comment. -/
def HasScriptCall (line : Text) : Prop :=
  Calls.occurIn scriptDebugFunctions (LineComment.cut line)

/-- Of some lines, numbered from `first`, the one with number `n` is a hit. -/
def HitAt (first : Nat) (lines : List Text) (n : Nat) : Prop :=
  ∃ line, (line, n) ∈ lines.zipIdx first ∧ HasScriptCall line

instance : DecidablePred HasScriptCall := fun line =>
  inferInstanceAs (Decidable (Calls.occurIn scriptDebugFunctions (LineComment.cut line) = true))

variable {first n : Nat}

instance (lines : List Text) : Decidable (HitAt first lines n) :=
  decidable_of_iff (∃ x ∈ lines.zipIdx first, x.2 = n ∧ HasScriptCall x.1)
    ⟨fun ⟨x, hx, he, hline⟩ => ⟨x.1, he ▸ hx, hline⟩,
      fun ⟨line, hm, hline⟩ => ⟨(line, n), hm, rfl, hline⟩⟩

theorem hitAt_cons (line : Text) (more : List Text) :
    HitAt first (line :: more) n ↔ n = first ∧ HasScriptCall line ∨ HitAt (first + 1) more n := by
  simp only [HitAt, List.zipIdx_cons, List.mem_cons, Prod.mk.injEq, or_and_right, exists_or,
    and_assoc, exists_eq_left]

theorem hitAt_append (a b : List Text) :
    HitAt first (a ++ b) n ↔ HitAt first a n ∨ HitAt (first + a.length) b n := by
  simp only [HitAt, List.zipIdx_append, List.mem_append, or_and_right, exists_or]

theorem HitAt.bounds {lines : List Text} (h : HitAt first lines n) :
    first ≤ n ∧ n < first + lines.length := by
  obtain ⟨line, hm, _⟩ := h
  obtain ⟨hle, hlt, _⟩ := List.mem_zipIdx hm
  exact ⟨hle, hlt⟩

theorem HitAt.shift {lines : List Text} (h : HitAt first lines n) (d : Nat) :
    HitAt (first + d) lines (n + d) := by
  induction lines generalizing first with
  | nil => simp [HitAt] at h
  | cons line more ih =>
    rw [hitAt_cons] at h ⊢
    refine h.imp (fun ⟨he, hline⟩ => ⟨he ▸ rfl, hline⟩) fun h => ?_
    have hmore := ih h
    rwa [Nat.add_right_comm] at hmore

theorem exists_hitAt_iff (lines : List Text) :
    (∃ n, HitAt first lines n) ↔ ∃ line ∈ lines, HasScriptCall line := by
  induction lines generalizing first with
  | nil => simp [HitAt]
  | cons line more ih =>
    simp only [hitAt_cons, exists_or, ih, exists_and_right, exists_eq, true_and, List.mem_cons,
      or_and_right, exists_eq_left]

theorem HitAt.exists_last {lines : List Text} (h : HitAt first lines n) :
    ∃ last, HitAt first lines last ∧ ∀ m, HitAt first lines m → m ≤ last := by
  induction lines generalizing first n with
  | nil => simp [HitAt] at h
  | cons line more ih =>
    simp only [hitAt_cons] at h ⊢
    by_cases hmore : ∃ m, HitAt (first + 1) more m
    · obtain ⟨m, hm⟩ := hmore
      obtain ⟨last, hlast, hmax⟩ := ih hm
      refine ⟨last, .inr hlast, fun k hk => hk.elim (fun h => ?_) (hmax k)⟩
      have hbound := hlast.bounds.1
      omega
    · obtain ⟨rfl, hline⟩ := h.resolve_right fun h => hmore ⟨n, h⟩
      exact ⟨n, .inl ⟨rfl, hline⟩, fun k hk =>
        hk.elim (fun h => h.1.le) fun h => absurd ⟨k, h⟩ hmore⟩

theorem hasScriptCall_append_return (a b : Text) :
    (HasScriptCall (a ++ '\r' :: b) → HasScriptCall a ∨ HasScriptCall b) ∧
      (HasScriptCall a → HasScriptCall (a ++ '\r' :: b)) := by
  have hdivides : Calls.Divides scriptDebugFunctions '\r' :=
    Calls.divides_of (by decide +kernel) (by decide) (by decide)
  have hcalls : ∀ a b, Calls.occurIn scriptDebugFunctions (a ++ '\r' :: b) ↔
      Calls.occurIn scriptDebugFunctions a ∨ Calls.occurIn scriptDebugFunctions b :=
    Calls.occurIn_append_cons hdivides
  rw [HasScriptCall, HasScriptCall, HasScriptCall]
  rcases LineComment.cut_append_cons (show '\r' ≠ '/' by decide) a b with he | ⟨hsame, he⟩
  · rw [he]
    exact ⟨.inl, id⟩
  · rw [he, hsame, hcalls]
    exact ⟨id, .inl⟩

theorem not_hasScriptCall_nil : ¬HasScriptCall [] := by
  rw [HasScriptCall]
  decide

variable {text before after : Text}

theorem hitAt_unifyNewlines_of_paired (h : Text.Paired text) :
    HitAt first ((Text.unifyNewlines text).splitOn '\n') n ↔ HitAt first (text.splitOn '\n') n := by
  have hlines := Text.splitOn_of_paired h
  generalize (Text.unifyNewlines text).splitOn '\n' = lines at hlines ⊢
  generalize text.splitOn '\n' = pieces at hlines ⊢
  induction hlines generalizing first with
  | nil => rfl
  | @cons piece line _ _ hline _ ih =>
    rw [hitAt_cons, hitAt_cons]
    refine or_congr (and_congr_right fun _ => ?_) ih
    rcases hline with rfl | rfl
    · rfl
    · obtain ⟨hdown, hup⟩ := hasScriptCall_append_return line []
      exact ⟨hup, fun h => (hdown h).resolve_right not_hasScriptCall_nil⟩

/-- A hit among the pieces around a carriage return is one before it, or is one behind it and comes no
later there. -/
theorem hitAt_append_return (before after : Text) :
    (HitAt first ((before ++ '\r' :: after).splitOn '\n') n →
      HitAt first (before.splitOn '\n') n ∨
        HitAt (first + (before.splitOn '\n').length) (after.splitOn '\n') (n + 1)) ∧
    (HitAt first (before.splitOn '\n') n →
      HitAt first ((before ++ '\r' :: after).splitOn '\n') n) := by
  obtain ⟨front, last, fst, back, hbefore, hafter, hall⟩ :=
    Text.splitOn_append_cons (x := '\r') (by decide) before after
  obtain ⟨hdown, hup⟩ := hasScriptCall_append_return last fst
  rw [hbefore, hafter, hall, hitAt_append, hitAt_cons, hitAt_append, hitAt_cons, List.length_append,
    List.length_singleton, hitAt_cons]
  constructor
  · rintro (h | ⟨rfl, h⟩ | h)
    · exact .inl (.inl h)
    · exact (hdown h).imp (fun h => .inr (.inl ⟨rfl, h⟩)) fun h => .inl ⟨rfl, h⟩
    · exact .inr (.inr (h.shift 1))
  · rintro (h | ⟨rfl, h⟩ | h)
    · exact .inl h
    · exact .inr (.inl ⟨rfl, hup h⟩)
    · simp [HitAt] at h

theorem splitOn_unifyNewlines_lone (before : Text) (h : after.head? ≠ some '\n') :
    (Text.unifyNewlines (before ++ '\r' :: after)).splitOn '\n' =
      (Text.unifyNewlines before).splitOn '\n' ++ (Text.unifyNewlines after).splitOn '\n' := by
  rw [Text.unifyNewlines_append_cons (by decide), Text.unifyNewlines_cr h,
    Text.splitOn_append_newline]

theorem exists_hitAt_unifyNewlines (h : HitAt first (text.splitOn '\n') n) :
    ∃ m, n ≤ m ∧ HitAt first ((Text.unifyNewlines text).splitOn '\n') m := by
  induction text using Text.lone_induction generalizing first n with
  | paired text hpaired => exact ⟨n, le_rfl, (hitAt_unifyNewlines_of_paired hpaired).2 h⟩
  | lone before after hpaired hlone ih =>
    have hlength := (Text.splitOn_of_paired hpaired).length_eq
    simp only [splitOn_unifyNewlines_lone before hlone, hitAt_append]
    rcases (hitAt_append_return before after).1 h with h | h
    · exact ⟨n, le_rfl, .inl ((hitAt_unifyNewlines_of_paired hpaired).2 h)⟩
    · obtain ⟨m, hle, hm⟩ := ih h
      exact ⟨m, Nat.le_of_succ_le hle, .inr (hlength ▸ hm)⟩

theorem exists_later_hitAt (hlone : after.head? ≠ some '\n')
    (hbehind : ∃ m, HitAt first ((Text.unifyNewlines after).splitOn '\n') m)
    (h : HitAt first ((before ++ '\r' :: after).splitOn '\n') n) :
    ∃ m, n < m ∧ HitAt first ((Text.unifyNewlines (before ++ '\r' :: after)).splitOn '\n') m := by
  have hlength := Text.length_splitOn_le before
  simp only [splitOn_unifyNewlines_lone before hlone, hitAt_append]
  rcases (hitAt_append_return before after).1 h with h | h
  · obtain ⟨m, hm⟩ := hbehind
    have hbound := h.bounds.2
    have hfirst := hm.bounds.1
    exact ⟨_, by omega, .inr (hm.shift _)⟩
  · obtain ⟨m, hle, hm⟩ := exists_hitAt_unifyNewlines h
    obtain ⟨d, hd⟩ := Nat.exists_eq_add_of_le hlength
    have hmoved := hm.shift d
    rw [Nat.add_assoc, ← hd] at hmoved
    exact ⟨m + d, by omega, .inr hmoved⟩

/-- The lines read have the numbers of the lines written exactly if no hit is behind a carriage return
that stands alone. -/
theorem hitAt_unifyNewlines_iff (text : Text) :
    (∀ n, HitAt 1 ((Text.unifyNewlines text).splitOn '\n') n ↔ HitAt 1 (text.splitOn '\n') n) ↔
      ∀ before after, text = before ++ '\r' :: after → after.head? ≠ some '\n' →
        ∀ line ∈ (Text.unifyNewlines after).splitOn '\n', ¬HasScriptCall line := by
  constructor
  · rintro hsame before after rfl hlone line hline hcall
    have hbehind : ∃ m, HitAt 1 ((Text.unifyNewlines after).splitOn '\n') m :=
      (exists_hitAt_iff _).2 ⟨line, hline, hcall⟩
    obtain ⟨m, hm⟩ := hbehind
    have hread := (hitAt_append ((Text.unifyNewlines before).splitOn '\n') _).2
      (.inr (hm.shift ((Text.unifyNewlines before).splitOn '\n').length))
    rw [← splitOn_unifyNewlines_lone before hlone] at hread
    obtain ⟨last, hlast, hmax⟩ := hread.exists_last
    obtain ⟨later, hlater, hm'⟩ := exists_later_hitAt hlone ⟨m, hm⟩ ((hsame last).1 hlast)
    exact absurd (hmax later hm') (Nat.not_le.2 hlater)
  · intro hnone n
    rcases Text.paired_or_lone text with hpaired | ⟨before, after, rfl, hlone, hpaired⟩
    · exact hitAt_unifyNewlines_of_paired hpaired
    have hnot : ∀ {first m}, ¬HitAt first ((Text.unifyNewlines after).splitOn '\n') m := by
      intro first m hm
      obtain ⟨line, hline, hcall⟩ := (exists_hitAt_iff _).1 ⟨m, hm⟩
      exact hnone before after rfl hlone line hline hcall
    rw [splitOn_unifyNewlines_lone before hlone, hitAt_append, or_iff_left hnot,
      hitAt_unifyNewlines_of_paired hpaired]
    refine ⟨(hitAt_append_return before after).2, fun h => ?_⟩
    refine ((hitAt_append_return before after).1 h).resolve_right fun h => ?_
    obtain ⟨m, _, hm⟩ := exists_hitAt_unifyNewlines h
    exact hnot hm

theorem exists_hit_iff (text : Text) (n : Nat) :
    (∃ h ∈ Calls.find scriptDebugFunctions (LineComment.strip text), h.number = n) ↔
      HitAt 1 (text.splitOn '\n') n := by
  simp only [Calls.mem_find_iff, LineComment.splitOn_strip, List.zipIdx_map]
  constructor
  · rintro ⟨hit, ⟨hmem, hcall⟩, rfl⟩
    obtain ⟨⟨line, m⟩, hline, he⟩ := List.mem_map.mp hmem
    obtain ⟨hcut, rfl⟩ := Prod.mk.inj he
    refine ⟨line, hline, ?_⟩
    rw [HasScriptCall, hcut]
    exact hcall
  · rintro ⟨line, hline, hcall⟩
    exact ⟨⟨n, _⟩, ⟨List.mem_map_of_mem hline, hcall⟩, rfl⟩

variable {copy : Path} {s : Session} {content : Bytes}

theorem script_marks (path : Text) (hread : s.tree.read copy.toText = .ok content) :
    ∃ blocks s', script path copy s = .ok () s' ∧
      s'.findings.debugReports = s.findings.debugReports ++ blocks ∧ blocks.length ≤ 1 ∧
      ∀ n, (∃ block ∈ blocks, Report.Marks block n) ↔
        HitAt 1 ((Utf8.readLossy content).splitOn '\n') n := by
  have hscript := script_readable path hread
  rw [withScript] at hscript
  simp only [← exists_hit_iff]
  split at hscript
  · rename_i hnone
    rw [List.isEmpty_iff] at hnone
    exact ⟨[], _, hscript, (List.append_nil _).symm, by simp, by simp [hnone]⟩
  · refine ⟨[_], _, hscript, rfl, le_rfl, fun n => ?_⟩
    simp only [List.mem_singleton, exists_eq_left, Report.marks_debugBlock_iff]

/-- The numbers marked for a script are those of its lines as they are read. They are the numbers of
its lines between line feeds exactly if no line behind a lone carriage return holds a call: no other
character shifts them. -/
theorem script_line_numbers (path : Text) (hread : s.tree.read copy.toText = .ok content)
    {text : Text} (htext : Utf8.decode? content = some text) :
    ∃ blocks s', script path copy s = .ok () s' ∧
      s'.findings.debugReports = s.findings.debugReports ++ blocks ∧ blocks.length ≤ 1 ∧
      (∀ n, (∃ block ∈ blocks, Report.Marks block n) ↔
        HitAt 1 ((Text.unifyNewlines text).splitOn '\n') n) ∧
      ((∀ n, (∃ block ∈ blocks, Report.Marks block n) ↔ HitAt 1 (text.splitOn '\n') n) ↔
        ∀ before after, text = before ++ '\r' :: after → after.head? ≠ some '\n' →
          ∀ line ∈ (Text.unifyNewlines after).splitOn '\n', ¬HasScriptCall line) := by
  have hlossy : Utf8.readLossy content = Text.unifyNewlines text := by
    rw [Utf8.readLossy, Utf8.decode?_eq_some_iff.1 htext, Utf8.decodeLossy_encode]
  obtain ⟨blocks, s', hscript, hadded, hone, hmarks⟩ := script_marks path hread
  rw [hlossy] at hmarks
  refine ⟨blocks, s', hscript, hadded, hone, hmarks, ?_⟩
  simp only [hmarks]
  exact hitAt_unifyNewlines_iff text

def scriptSession (source : String) : Session :=
  { Dialogue.start with
    tree := FileTree.empty.place ["c.js".toList] (.file (Utf8.encode source.toList))
      (by decide) (by decide) }

def oddSeparators : String := "a\x0calert(0)\u2028\n//\x0balert(1)\nb\x85alert(2)\n"

theorem odd_separators_shift_nothing :
    ∃ blocks s', script "c.js".toList (Path.ofText "c.js".toList) (scriptSession oddSeparators) =
        .ok () s' ∧ s'.findings.debugReports = blocks ∧
      ∀ n, (∃ block ∈ blocks, Report.Marks block n) ↔
        HitAt 1 (oddSeparators.toList.splitOn '\n') n := by
  have hread : (scriptSession oddSeparators).tree.read (Path.ofText "c.js".toList).toText =
      .ok (Utf8.encode oddSeparators.toList) := by rfl
  obtain ⟨blocks, s', hscript, hadded, -, -, hsame⟩ :=
    script_line_numbers "c.js".toList hread (Utf8.decode?_encode oddSeparators.toList)
  refine ⟨blocks, s', hscript, hadded, hsame.2 fun before after he => ?_⟩
  have hreturn : '\r' ∉ oddSeparators.toList := by decide +kernel
  exact absurd (he ▸ List.mem_append_right before List.mem_cons_self) hreturn

/-- A carriage return alone makes the call on the first line a hit on the second. -/
theorem lone_return_shifts_number :
    ∃ block s', script "c.js".toList (Path.ofText "c.js".toList)
        (scriptSession "a\ralert(1)\n") = .ok () s' ∧
      s'.findings.debugReports = [block] ∧ Report.Marks block 2 ∧ ¬Report.Marks block 1 ∧
      HitAt 1 ("a\ralert(1)\n".toList.splitOn '\n') 1 ∧
      ¬HitAt 1 ("a\ralert(1)\n".toList.splitOn '\n') 2 := by
  refine ⟨_, _, rfl, rfl, ?_⟩
  decide +kernel

end Check

end CommitGate
