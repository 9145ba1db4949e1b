import CommitGate.Proofs.ContextRows

/-! The last line of a text whose line comments are cut. An empty piece at the end of a text is no line;
so a last line that is all comment, and that no line feed ends, goes with its comment, and a context that
comes up to it is one row short. -/
namespace CommitGate

namespace Text

variable {text last : Text} {front : List Text}

theorem exists_pieces (text : Text) : ∃ front last, text.splitOn '\n' = front ++ [last] :=
  ⟨_, _, (List.dropLast_concat_getLast (List.splitOn_ne_nil '\n' text)).symm⟩

theorem lines_of_pieces (h : text.splitOn '\n' = front ++ [last]) :
    lines text = if last = [] then front else front ++ [last] := by
  rw [lines, h, List.getLast?_concat, List.dropLast_concat]
  simp only [Option.some.injEq]

theorem lines_append_newline (text : Text) : lines (text ++ ['\n']) = text.splitOn '\n' := by
  have hpieces : (text ++ ['\n']).splitOn '\n' = text.splitOn '\n' ++ [[]] := splitOn_append_newline text []
  rw [lines_of_pieces hpieces, if_pos rfl]

theorem lines_eq_pieces (hne : text ≠ []) (h : text.getLast? ≠ some '\n') :
    lines text = text.splitOn '\n' := by
  have hsplit := List.dropLast_concat_getLast hne
  have hlast : text.getLast hne ≠ '\n' := fun he => h (he ▸ List.getLast?_eq_some_getLast hne)
  obtain ⟨front, last, first, back, _, hnil, hpieces⟩ := splitOn_append_cons hlast text.dropLast []
  rw [hsplit] at hpieces
  obtain ⟨rfl, rfl⟩ := List.cons.inj hnil
  rw [lines_of_pieces hpieces, if_neg (List.append_ne_nil_of_right_ne_nil _ (List.cons_ne_nil _ _)),
    hpieces]

end Text

namespace LineComment

/-- The last line of the text is a comment from its first character on, and no line feed ends it. -/
def EndsInComment (text : Text) : Prop := ∃ last ∈ (text.splitOn '\n').getLast?, ['/', '/'] <+: last

instance (text : Text) : Decidable (EndsInComment text) :=
  inferInstanceAs (Decidable (∃ last ∈ (text.splitOn '\n').getLast?, _))

variable {text last : Text} {front : List Text}

theorem endsInComment_iff (h : text.splitOn '\n' = front ++ [last]) :
    EndsInComment text ↔ ['/', '/'] <+: last := by
  rw [EndsInComment, h, List.getLast?_concat]
  exact ⟨fun ⟨_, he, hstart⟩ => Option.some.inj he ▸ hstart, fun hstart => ⟨last, rfl, hstart⟩⟩

theorem cut_eq_nil_iff {line : Text} : cut line = [] ↔ line = [] ∨ ['/', '/'] <+: line := by
  fun_cases cut line with
  | case1 => simp
  | case2 rest => simp
  | case3 c rest hno =>
    have hstart : ¬['/', '/'] <+: c :: rest := by
      rintro ⟨more, hmore⟩
      obtain ⟨hc, hrest⟩ := List.cons.inj hmore
      exact hno more hc.symm hrest.symm
    simp [hstart]

/-- The lines are cut one by one, and a last one that is all comment is no line any more. -/
theorem lines_strip (text : Text) : Text.lines (strip text) =
    if EndsInComment text then ((Text.lines text).map cut).dropLast else (Text.lines text).map cut := by
  obtain ⟨front, last, hpieces⟩ := Text.exists_pieces text
  have hstrip : (strip text).splitOn '\n' = front.map cut ++ [cut last] := by
    rw [splitOn_strip, hpieces, List.map_append, List.map_singleton]
  have hends := endsInComment_iff hpieces
  rw [Text.lines_of_pieces hstrip, Text.lines_of_pieces hpieces]
  by_cases hempty : last = []
  · subst hempty
    rw [if_pos (cut_eq_nil_iff.mpr (.inl rfl)), if_neg (mt hends.mp (by simp)), if_pos rfl]
  by_cases hcomment : ['/', '/'] <+: last
  · rw [if_pos (cut_eq_nil_iff.mpr (.inr hcomment)), if_pos (hends.mpr hcomment), if_neg hempty,
      List.map_append, List.map_singleton, List.dropLast_concat]
  · have hcut : cut last ≠ [] := mt cut_eq_nil_iff.mp (not_or.mpr ⟨hempty, hcomment⟩)
    rw [if_neg hcut, if_neg (mt hends.mp hcomment), if_neg hempty, List.map_append,
      List.map_singleton]

theorem EndsInComment.exists_lines (h : EndsInComment text) :
    ∃ front last, Text.lines text = front ++ [last] ∧ cut last = [] := by
  obtain ⟨front, last, hpieces⟩ := Text.exists_pieces text
  have hcomment := (endsInComment_iff hpieces).mp h
  have hsome : last ≠ [] := by
    rintro rfl
    simp at hcomment
  exact ⟨front, last, by rw [Text.lines_of_pieces hpieces, if_neg hsome],
    cut_eq_nil_iff.mpr (.inr hcomment)⟩

theorem length_lines (text : Text) : (Text.lines text).length =
    (Text.lines (strip text)).length + if EndsInComment text then 1 else 0 := by
  rw [lines_strip]
  split
  · rename_i h
    obtain ⟨front, last, hlines, _⟩ := h.exists_lines
    simp [hlines]
  · simp

theorem lines_strip_newline (hne : text ≠ []) (h : text.getLast? ≠ some '\n') :
    Text.lines (strip (text ++ ['\n'])) = (Text.lines text).map cut := by
  have hends : ¬EndsInComment (text ++ ['\n']) := by
    have hpieces : (text ++ ['\n']).splitOn '\n' = text.splitOn '\n' ++ [[]] :=
      Text.splitOn_append_newline text []
    rw [endsInComment_iff hpieces]
    simp
  rw [lines_strip, if_neg hends, Text.lines_append_newline, Text.lines_eq_pieces hne h]

end LineComment

namespace Calls

variable {a b : Text}

theorem numberedLines_concat (h : Text.lines b = Text.lines a ++ [[]]) :
    numberedLines b = numberedLines a ++ [⟨(Text.lines a).length + 1, []⟩] := by
  rw [numberedLines, h, List.zipIdx_append, List.map_append, numberedLines, Nat.add_comm _ 1]
  rfl

theorem find_concat (names : List Text) (h : Text.lines b = Text.lines a ++ [[]]) :
    find names b = find names a := by
  rw [find, numberedLines_concat h, List.filter_append, find]
  exact List.append_nil _

end Calls

namespace Context

variable {names : List Text} {a b text : Text}

theorem ofCalls_congr (names : List Text) (h : Text.lines a = Text.lines b) :
    ofCalls names a = ofCalls names b := by
  simp only [ofCalls, render, Calls.find, Calls.numberedLines, h]

theorem exists_near_iff {n : Nat} (hlast : (Text.lines a).length < n) :
    (∃ hit ∈ hitsOf names a, |hit - n| ≤ width) ↔
      ∃ hit ∈ Calls.find names a, n ≤ hit.number + width := by
  rw [exists_hitsOf]
  refine exists_congr fun hit => and_congr_right fun hmem => ?_
  have hle := Calls.number_le_length hmem
  rw [abs_le]
  omega

/-- An empty line more shows in a context exactly if it is near a call. -/
theorem ofCalls_eq_iff (h : Text.lines b = Text.lines a ++ [[]]) :
    ofCalls names b = ofCalls names a ↔
      ¬∃ hit ∈ Calls.find names a, (Text.lines b).length ≤ hit.number + width := by
  have hlength : (Text.lines b).length = (Text.lines a).length + 1 := by
    rw [h, List.length_append, List.length_singleton]
  have hhits : hitsOf names b = hitsOf names a := by rw [hitsOf, Calls.find_concat names h, hitsOf]
  rw [← exists_near_iff (by omega), hlength]
  constructor
  · -- Contexts that are the same read back the same, and only one of the two texts has the line.
    intro hsame hnear
    obtain ⟨rows, hread, hshows⟩ := exists_shows_calls names a
    obtain ⟨rows', hread', hshows'⟩ := exists_shows_calls names b
    obtain rfl := Option.some.inj (hread.symm.trans (hsame ▸ hread'))
    rw [hhits] at hshows'
    have hshown := (hshows'.near _).mpr ⟨Nat.succ_pos _, hlength.ge, hnear⟩
    exact absurd ((hshows.near _).mp hshown).2.1 (Nat.not_succ_le_self _)
  · intro hfar
    have hempty : isShown (hitsOf names a) width ((Text.lines a).length + 1) = false := by
      rw [← Bool.not_eq_true, isShown_iff]
      exact hfar
    rw [ofCalls, ofCalls, ← hitsOf, ← hitsOf, hhits, render, render, Calls.numberedLines_concat h,
      List.filter_append, List.filter_singleton, hempty]
    exact congrArg _ (congrArg _ (List.append_nil _))

/-- The text ends in a comment that is a line of its own and stands near a call. -/
def CommentNearCall (names : List Text) (text : Text) : Prop :=
  LineComment.EndsInComment text ∧
    ∃ hit ∈ Calls.find names (LineComment.strip text), (Text.lines text).length ≤ hit.number + width

instance (names : List Text) (text : Text) : Decidable (CommentNearCall names text) :=
  inferInstanceAs (Decidable (_ ∧ ∃ hit ∈ Calls.find names _, _))

theorem newline_iff (h : text.getLast? ≠ some '\n') :
    ofCalls names (LineComment.strip (text ++ ['\n'])) = ofCalls names (LineComment.strip text) ↔
      ¬CommentNearCall names text := by
  by_cases hne : text = []
  · subst hne
    have hends : ¬LineComment.EndsInComment [] := by decide
    exact ⟨fun _ hnear => hends hnear.1, fun _ => rfl⟩
  have hlines := LineComment.lines_strip_newline hne h
  by_cases hends : LineComment.EndsInComment text
  · obtain ⟨front, last, hfront, hcut⟩ := hends.exists_lines
    have hstrip := LineComment.lines_strip text
    rw [if_pos hends, hfront, List.map_append, List.map_singleton, List.dropLast_concat] at hstrip
    rw [hfront, List.map_append, List.map_singleton, hcut, ← hstrip] at hlines
    rw [ofCalls_eq_iff hlines, CommentNearCall, hlines, hfront, hstrip]
    simp [hends]
  · have hstrip := LineComment.lines_strip text
    rw [if_neg hends] at hstrip
    have hsame := ofCalls_congr names (hlines.trans hstrip.symm)
    exact ⟨fun _ hnear => hends hnear.1, fun _ => hsame⟩

theorem exists_near_hit {n : Nat} : (∃ hit ∈ hitsOf names a, |hit - n| ≤ width) ↔
    ∃ hit ∈ Calls.find names a, |(hit.number : Int) - n| ≤ 2 := exists_hitsOf

variable {rows : List Row}

theorem Shows.all_iff
    (h : Shows (LineComment.strip text) (hitsOf names (LineComment.strip text)) width rows) :
    (∀ line n, (line, n) ∈ (Text.lines text).zipIdx 1 →
      (∃ hit ∈ Calls.find names (LineComment.strip text), |(hit.number : Int) - n| ≤ 2) →
      ∃ e ∈ entries rows, e.number = n ∧ e.line = LineComment.cut line) ↔
        ¬CommentNearCall names text := by
  have hcount := LineComment.length_lines text
  constructor
  · rintro hall ⟨hends, hnear⟩
    rw [if_pos hends] at hcount
    rw [← exists_near_iff (by omega), exists_near_hit] at hnear
    obtain ⟨front, last, hlines, _⟩ := hends.exists_lines
    have hlast : (last, (Text.lines text).length) ∈ (Text.lines text).zipIdx 1 := by
      rw [List.mk_mem_zipIdx_iff_le_and_getElem?_sub, hlines]
      simp
    obtain ⟨e, he, hnumber, _⟩ := hall _ _ hlast hnear
    have hle := ((h.near _).mp ⟨e, he, hnumber⟩).2.1
    omega
  · intro hfar line n hline hnear
    have hpos : 1 ≤ n := List.le_snd_of_mem_zipIdx hline
    have hlast : n < (Text.lines text).length + 1 := List.snd_lt_of_mem_zipIdx hline
    have hshown : n ≤ (Text.lines (LineComment.strip text)).length := by
      by_contra hgone
      rw [← exists_near_hit, exists_near_iff (by omega)] at hnear
      split at hcount
      · rename_i hends
        obtain rfl : n = (Text.lines text).length := by omega
        exact hfar ⟨hends, hnear⟩
      · omega
    obtain ⟨e, he, hnumber⟩ := (h.near n).mpr ⟨hpos, hshown, exists_near_hit.mpr hnear⟩
    obtain ⟨original, horiginal, hcut⟩ := exists_original (h.numbered he)
    rw [hnumber] at horiginal
    rw [Text.numbered_unique (Text.piece_of_line hline) horiginal]
    exact ⟨e, he, hnumber, hcut⟩

/-- Without its line comments a text has as many lines as before, or one less if it ends in a comment that
is a line of its own. The context of its calls shows every line near one of them, cut at its comment,
unless that last line is one of these; and unless it is, a line feed behind it changes nothing. -/
theorem context_complete_iff (names : List Text) (text : Text) :
    (Text.lines text).length = (Text.lines (LineComment.strip text)).length +
        (if LineComment.EndsInComment text then 1 else 0) ∧
      (∃ rows, readRows (ofCalls names (LineComment.strip text)) = some rows ∧
        ((∀ line n, (line, n) ∈ (Text.lines text).zipIdx 1 →
          (∃ hit ∈ Calls.find names (LineComment.strip text), |(hit.number : Int) - n| ≤ 2) →
          ∃ e ∈ entries rows, e.number = n ∧ e.line = LineComment.cut line) ↔
            ¬CommentNearCall names text)) ∧
      (text.getLast? ≠ some '\n' →
        (ofCalls names (LineComment.strip (text ++ ['\n'])) = ofCalls names (LineComment.strip text) ↔
          ¬CommentNearCall names text)) := by
  obtain ⟨rows, hread, hshows⟩ := exists_shows_calls names (LineComment.strip text)
  exact ⟨LineComment.length_lines text, ⟨rows, hread, hshows.all_iff⟩, newline_iff⟩

/-- Three lines below a call, the comment that ends a text may have a line feed behind it or not. -/
theorem far_comment_changes_nothing :
    "alert(1)\na\nb\n// c".toList.getLast? ≠ some '\n' ∧
      ofCalls ["alert".toList] (LineComment.strip ("alert(1)\na\nb\n// c".toList ++ ['\n'])) =
        ofCalls ["alert".toList] (LineComment.strip "alert(1)\na\nb\n// c".toList) := by
  have hlast : "alert(1)\na\nb\n// c".toList.getLast? ≠ some '\n' := by decide
  exact ⟨hlast, ((context_complete_iff ["alert".toList] _).2.2 hlast).mpr (by decide +kernel)⟩

def callBeforeComment : Text := "alert(1)\n// b".toList

/-- The comment is counted as a line before it is cut and not behind that, and the context of the call lacks
it; with a line feed behind it the context has it. -/
theorem last_comment_dropped :
    (Text.lines (LineComment.strip callBeforeComment)).length ≠ (Text.lines callBeforeComment).length ∧
      ofCalls ["alert".toList] (LineComment.strip callBeforeComment) = "1:alert(1)".toList ∧
      ofCalls ["alert".toList] (LineComment.strip (callBeforeComment ++ ['\n'])) =
        "1:alert(1)\n2-".toList := by
  decide +kernel

end Context

end CommitGate
