import CommitGate.Text.Line
import CommitGate.Proofs.Calls

/-! Lines of a text before and after their comments are cut, and the lines that hold a call. -/
namespace CommitGate

namespace Text

theorem not_mem_of_mem_splitOn {x : Char} {text : Text} :
    ∀ {piece : Text}, piece ∈ text.splitOn x → x ∉ piece := by
  induction text with
  | nil =>
    intro piece h
    rw [List.splitOn_nil, List.mem_singleton] at h
    simp [h]
  | cons c rest ih =>
    intro piece h
    rw [List.splitOn_cons_eq_if_modifyHead] at h
    obtain ⟨first, more, hs⟩ := List.exists_cons_of_ne_nil (List.splitOn_ne_nil x rest)
    split at h
    · rcases List.mem_cons.1 h with rfl | h
      · simp
      · exact ih h
    · rename_i hc
      rw [hs, List.modifyHead_cons] at h
      rcases List.mem_cons.1 h with rfl | h
      · rw [List.mem_cons, not_or]
        refine ⟨fun he => hc (by simp [he]), ih (hs ▸ List.mem_cons_self)⟩
      · exact ih (hs ▸ .tail _ h)

/-- A part without the character that divides a text does not start before it and end behind it. -/
theorem prefix_append_cons_iff {x : Char} {part : Text} (hx : x ∉ part) (a b : Text) :
    part <+: a ++ x :: b ↔ part <+: a := by
  constructor
  · intro h
    rcases List.prefix_or_prefix_of_prefix h (List.prefix_append a (x :: b)) with ha | ha
    · exact ha
    · -- What the part has beyond `a` would start with the dividing character.
      obtain ⟨more, rfl⟩ := ha
      have hmore := (List.prefix_append_right_inj a).mp h
      rcases List.prefix_cons_iff.mp hmore with rfl | ⟨rest, rfl, -⟩
      · exact (List.append_nil a).symm ▸ List.prefix_rfl
      · exact absurd (List.mem_append_right a List.mem_cons_self) hx
  · intro h
    exact h.trans (List.prefix_append a _)

theorem splitOn_unlines {pieces : List Text} (h : ∀ piece ∈ pieces, '\n' ∉ piece)
    (hne : pieces ≠ []) : (unlines pieces).splitOn '\n' = pieces :=
  List.splitOn_intercalate '\n' h hne

theorem splitOn_append_newline (a b : Text) :
    (a ++ '\n' :: b).splitOn '\n' = a.splitOn '\n' ++ b.splitOn '\n' :=
  List.splitOnP_append_cons a b (by decide)

theorem splitOn_append_cons {x : Char} (hx : x ≠ '\n') (a b : Text) :
    ∃ front last first back, a.splitOn '\n' = front ++ [last] ∧ b.splitOn '\n' = first :: back ∧
      (a ++ x :: b).splitOn '\n' = front ++ (last ++ x :: first) :: back := by
  induction a with
  | nil =>
    obtain ⟨first, back, hb⟩ := List.exists_cons_of_ne_nil (List.splitOn_ne_nil '\n' b)
    refine ⟨[], [], first, back, rfl, hb, ?_⟩
    rw [List.nil_append, List.splitOn_cons_eq_if_modifyHead, if_neg (by simpa using hx), hb]
    rfl
  | cons c rest ih =>
    obtain ⟨front, last, first, back, ha, hb, hab⟩ := ih
    simp only [List.cons_append, List.splitOn_cons_eq_if_modifyHead, ha, hab]
    split
    · exact ⟨[] :: front, last, first, back, rfl, hb, rfl⟩
    · cases front with
      | nil => exact ⟨[], c :: last, first, back, rfl, hb, rfl⟩
      | cons piece front => exact ⟨(c :: piece) :: front, last, first, back, rfl, hb, rfl⟩

theorem lines_prefix_pieces (text : Text) : lines text <+: text.splitOn '\n' := by
  rw [lines]
  split
  · exact List.dropLast_prefix _
  · exact List.prefix_rfl

theorem piece_of_line {text line : Text} {n : Nat} (h : (line, n) ∈ (lines text).zipIdx 1) :
    (line, n) ∈ (text.splitOn '\n').zipIdx 1 := by
  obtain ⟨more, hmore⟩ := lines_prefix_pieces text
  rw [← hmore, List.zipIdx_append]
  exact List.mem_append_left _ h

theorem line_of_piece {text line : Text} {n : Nat} (h : (line, n) ∈ (text.splitOn '\n').zipIdx 1)
    (hne : line ≠ []) : (line, n) ∈ (lines text).zipIdx 1 := by
  rw [lines]
  split
  · rename_i hlast
    obtain ⟨more, hmore⟩ := List.getLast?_eq_some_iff.mp hlast
    rw [hmore, List.zipIdx_append, List.mem_append, List.zipIdx_singleton, List.mem_singleton,
      Prod.mk.injEq] at h
    rw [hmore, List.dropLast_concat]
    exact h.resolve_right fun hempty => hne hempty.1
  · exact h

theorem numbered_unique {pieces : List Text} {line other : Text} {n : Nat}
    (hline : (line, n) ∈ pieces.zipIdx 1) (hother : (other, n) ∈ pieces.zipIdx 1) : line = other := by
  rw [List.mk_mem_zipIdx_iff_le_and_getElem?_sub] at hline hother
  exact Option.some.inj (hline.2.symm.trans hother.2)

end Text

namespace LineComment

def cut : Text → Text
  | [] => []
  | '/' :: '/' :: _ => []
  | c :: rest => c :: cut rest

/-- What stands in a line before its first `//`, or the whole of a line without one. -/
structure BeforeComment (line kept : Text) : Prop where
  rest : ∃ comment, line = kept ++ comment ∧ (comment = [] ∨ ['/', '/'] <+: comment)
  first : ∀ i < kept.length, ¬['/', '/'] <+: line.drop i

variable {c : Char} {line rest : Text}

theorem opens_iff : ['/', '/'] <+: c :: rest ↔ c = '/' ∧ rest.head? = some '/' := by
  cases rest with
  | nil => simp
  | cons d rest => simp [List.cons_prefix_cons, eq_comm]

theorem cut_cons (h : ¬(c = '/' ∧ rest.head? = some '/')) : cut (c :: rest) = c :: cut rest := by
  rw [cut]
  rintro more rfl rfl
  exact h ⟨rfl, rfl⟩

theorem beforeComment_cut (line : Text) : BeforeComment line (cut line) := by
  fun_induction cut line with
  | case1 => exact ⟨⟨[], rfl, .inl rfl⟩, by simp⟩
  | case2 rest => exact ⟨⟨_, rfl, .inr (List.prefix_append _ _)⟩, by simp⟩
  | case3 c rest hno ih =>
    obtain ⟨⟨comment, hrest, hcomment⟩, hfirst⟩ := ih
    refine ⟨⟨comment, congrArg (c :: ·) hrest, hcomment⟩, fun i hi hopens => ?_⟩
    cases i with
    | zero =>
      obtain ⟨rfl, hnext⟩ := opens_iff.mp hopens
      obtain ⟨more, rfl⟩ := List.head?_eq_some_iff.mp hnext
      exact hno more rfl rfl
    | succ i => exact hfirst i (Nat.lt_of_succ_lt_succ hi) hopens

theorem BeforeComment.eq_cut {kept : Text} (h : BeforeComment line kept) : kept = cut line := by
  obtain ⟨⟨comment, rfl, hcomment⟩, hfirst⟩ := h
  induction kept with
  | nil =>
    rcases hcomment with rfl | ⟨more, rfl⟩
    · rfl
    · rfl
  | cons c kept ih =>
    have hno : ¬(c = '/' ∧ (kept ++ comment).head? = some '/') :=
      fun hopens => hfirst 0 (Nat.succ_pos _) (opens_iff.mpr hopens)
    rw [List.cons_append, cut_cons hno,
      ← ih fun i hi hopens => hfirst (i + 1) (Nat.succ_lt_succ hi) hopens]

theorem beforeComment_iff {kept : Text} : BeforeComment line kept ↔ kept = cut line :=
  ⟨BeforeComment.eq_cut, fun h => h ▸ beforeComment_cut line⟩

theorem prefix_cut (line : Text) : cut line <+: line := by
  obtain ⟨comment, hline, _⟩ := (beforeComment_cut line).rest
  exact ⟨comment, hline.symm⟩

/-! The text without its line comments, read on from one of its characters. -/

theorem strip_newline (rest : Text) : strip ('\n' :: rest) = '\n' :: strip rest := rfl

theorem strip_cons (h : ¬(c = '/' ∧ rest.head? = some '/')) : strip (c :: rest) = c :: strip rest := by
  by_cases hc : c = '\n'
  · rw [hc, strip_newline]
  · rw [strip, stripFrom, strip]
    · exact hc
    · rintro more rfl rfl
      exact h ⟨rfl, rfl⟩

theorem strip_append {front : Text} (h : '/' ∉ front) (rest : Text) :
    strip (front ++ rest) = front ++ strip rest := by
  induction front with
  | nil => rfl
  | cons c front ih =>
    obtain ⟨hc, hfront⟩ := List.ne_and_not_mem_of_not_mem_cons h
    rw [List.cons_append, strip_cons fun hcomment => hc hcomment.1.symm, ih hfront, List.cons_append]

theorem stripFrom_comment {after : Text} (h : '\n' ∉ line) (hends : after = [] ∨ ['\n'] <+: after) :
    stripFrom true (line ++ after) = strip after := by
  induction line with
  | nil =>
    rcases hends with rfl | ⟨more, rfl⟩
    · rfl
    · rfl
  | cons c line ih =>
    obtain ⟨hc, hline⟩ := List.ne_and_not_mem_of_not_mem_cons h
    rw [List.cons_append, stripFrom, ih hline]
    exact hc.symm

theorem strip_comment {comment after : Text} (hopens : ['/', '/'] <+: comment) (h : '\n' ∉ comment)
    (hends : after = [] ∨ ['\n'] <+: after) : strip (comment ++ after) = strip after := by
  obtain ⟨more, rfl⟩ := hopens
  exact stripFrom_comment (fun hmem => h (List.mem_append_right _ hmem)) hends

theorem strip_line {after : Text} (h : '\n' ∉ line) (hends : after = [] ∨ ['\n'] <+: after) :
    strip (line ++ after) = cut line ++ strip after := by
  fun_induction cut line with
  | case1 => rfl
  | case2 more => exact strip_comment (List.prefix_append _ more) h hends
  | case3 c rest hno ih =>
    rw [List.cons_append, strip_cons, ih (List.not_mem_of_not_mem_cons h), List.cons_append]
    rintro ⟨rfl, hnext⟩
    cases rest with
    | nil =>
      rcases hends with rfl | ⟨more, rfl⟩
      · cases hnext
      · cases hnext
    | cons d rest => exact hno rest rfl (by rw [Option.some.inj hnext])

theorem strip_unlines {pieces : List Text} (h : ∀ piece ∈ pieces, '\n' ∉ piece) :
    strip (Text.unlines pieces) = Text.unlines (pieces.map cut) := by
  induction pieces with
  | nil => rfl
  | cons piece more ih =>
    obtain ⟨hpiece, hmore⟩ := List.forall_mem_cons.1 h
    cases more with
    | nil =>
      have hline : strip (piece ++ []) = cut piece ++ strip [] := strip_line hpiece (.inl rfl)
      rw [List.append_nil, show strip [] = [] from rfl, List.append_nil] at hline
      rw [List.map_singleton, Text.unlines, Text.unlines, List.intercalate_singleton,
        List.intercalate_singleton, hline]
    | cons next more =>
      rw [List.map_cons, List.map_cons, Text.unlines, Text.unlines, List.intercalate_cons_cons,
        List.intercalate_cons_cons, List.append_assoc,
        strip_line hpiece (.inr (List.prefix_append _ _)), List.append_assoc]
      exact congrArg (cut piece ++ '\n' :: ·) (ih hmore)

/-- What is left of a text is what is left of its lines. -/
theorem splitOn_strip (text : Text) :
    (strip text).splitOn '\n' = (text.splitOn '\n').map cut := by
  have hpieces : ∀ piece ∈ text.splitOn '\n', '\n' ∉ piece := fun _ => Text.not_mem_of_mem_splitOn
  have hstrip := strip_unlines hpieces
  rw [Text.unlines, List.intercalate_splitOn] at hstrip
  rw [hstrip]
  refine Text.splitOn_unlines (fun piece h => ?_) (by simp [List.splitOn_ne_nil])
  obtain ⟨line, hl, rfl⟩ := List.mem_map.1 h
  exact fun hn => Text.not_mem_of_mem_splitOn hl ((prefix_cut line).subset hn)

end LineComment

namespace Calls

variable {names : List Text} {text : Text} {h : Hit}

theorem mem_numberedLines :
    h ∈ numberedLines text ↔ (h.line, h.number) ∈ (Text.lines text).zipIdx 1 := by
  rw [numberedLines, List.mem_map]
  constructor
  · rintro ⟨⟨line, number⟩, hmem, rfl⟩
    exact hmem
  · intro hmem
    exact ⟨_, hmem, rfl⟩

theorem number_le_length (hmem : h ∈ find names text) : h.number ≤ (Text.lines text).length :=
  Nat.le_of_lt_succ (List.snd_lt_of_mem_zipIdx (mem_numberedLines.mp (List.mem_of_mem_filter hmem)))

theorem numberedLines_ascending (text : Text) :
    (numberedLines text).Pairwise fun a b => a.number < b.number := by
  have hnumbers : (((Text.lines text).zipIdx 1).map Prod.snd).Pairwise (· < ·) := by
    rw [List.zipIdx_map_snd]
    exact List.pairwise_lt_range'
  rw [numberedLines, List.pairwise_map]
  exact List.pairwise_map.mp hnumbers

theorem occurIn_nil (names : List Text) : occurIn names [] = false := rfl

theorem mem_find_iff : h ∈ find names text ↔
    (h.line, h.number) ∈ (text.splitOn '\n').zipIdx 1 ∧ occurIn names h.line := by
  rw [find, List.mem_filter, mem_numberedLines]
  refine and_congr_left fun hcall => ⟨Text.piece_of_line, fun hpiece => Text.line_of_piece hpiece ?_⟩
  intro hnil
  rw [hnil, occurIn_nil] at hcall
  cases hcall

theorem find_ascending (names : List Text) (text : Text) :
    (find names text).Pairwise fun a b => a.number < b.number :=
  (numberedLines_ascending text).filter _

theorem find_isEmpty_iff (names : List Text) (text : Text) :
    (find names text).isEmpty ↔ ∀ piece ∈ text.splitOn '\n', occurIn names piece = false := by
  rw [List.isEmpty_iff, List.eq_nil_iff_forall_not_mem]
  constructor
  · intro h piece hpiece
    obtain ⟨k, hk⟩ := List.mem_iff_getElem?.mp hpiece
    have hnumbered : (piece, 1 + k) ∈ (text.splitOn '\n').zipIdx 1 :=
      List.mk_add_mem_zipIdx_iff_getElem?.mpr hk
    exact eq_false_of_ne_true fun hcall => h ⟨1 + k, piece⟩ (mem_find_iff.mpr ⟨hnumbered, hcall⟩)
  · intro h hit hmem
    obtain ⟨hnumbered, hcall⟩ := mem_find_iff.mp hmem
    rw [h _ (List.fst_mem_of_mem_zipIdx hnumbered)] at hcall
    cases hcall

end Calls

end CommitGate
