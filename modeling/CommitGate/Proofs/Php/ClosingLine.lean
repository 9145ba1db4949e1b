import CommitGate.Proofs.LineStart
import CommitGate.Proofs.Php.Heredoc
import Mathlib.Order.Bounds.Defs

/-! Where a heredoc ends, read line by line. The scan tries the label at the front of the body and behind
each line feed; the lines that it is compared with are those of the whole text. -/
namespace CommitGate.Php

/-- Behind its blanks a line has the label, and no word character right behind that. -/
def ClosesLine (label line : Text) : Prop :=
  ∃ after, line.dropWhile isIndent = label ++ after ∧ Text.isWord? after.head? = false

/-- Where, from `start` on, the lines start that close a heredoc. -/
def closingLines (text label : Text) (start : Nat) : Set Nat :=
  {p | start ≤ p ∧ ∃ line, Text.LineAt text p line ∧ ClosesLine label line}

variable {text label line : Text} {start p : Nat}

theorem isWord_newline : Text.isWord '\n' = false := by decide +kernel

theorem isWord?_head_firstLine (text : Text) :
    Text.isWord? (Text.firstLine text).head? = Text.isWord? text.head? := by
  cases text with
  | nil => rfl
  | cons c rest =>
    by_cases hc : c = '\n'
    · simp [Text.firstLine, Text.isWord?, hc, isWord_newline]
    · simp [Text.firstLine, hc]

theorem firstLine_append_label (hlabel : IsLabel label) {indent : Text}
    (hindent : ∀ c ∈ indent, isIndent c) (after : Text) :
    Text.firstLine (indent ++ label ++ after) = indent ++ label ++ Text.firstLine after := by
  apply Text.firstLine_append
  rw [List.mem_append, not_or]
  exact ⟨fun hmem => absurd (hindent _ hmem) (by decide), hlabel.not_mem isWord_newline⟩

theorem closingLabel?_iff_closesLine (hlabel : IsLabel label) {n : Nat} :
    closingLabel? label text = some n ↔ ClosesLine label (Text.firstLine text) ∧
      n = ((Text.firstLine text).takeWhile isIndent).length + label.length := by
  rw [closingLabel?_eq_some hlabel]
  constructor
  · rintro ⟨indent, after, rfl, hindent, hword, rfl⟩
    have hstop := hlabel.head_not_isIndent (Text.firstLine after)
    rw [firstLine_append_label hlabel hindent, List.append_assoc,
      takeWhile_append_stop hindent hstop]
    refine ⟨⟨Text.firstLine after, dropWhile_append_stop hindent hstop, ?_⟩, rfl⟩
    rw [isWord?_head_firstLine, hword]
  · rintro ⟨⟨after, hline, hword⟩, rfl⟩
    obtain ⟨rest, hrest⟩ := Text.firstLine_prefix text
    have hindent : ∀ c ∈ (Text.firstLine text).takeWhile isIndent, isIndent c :=
      fun c hc => List.mem_takeWhile_imp hc
    have hfirst : Text.firstLine text =
        (Text.firstLine text).takeWhile isIndent ++ label ++ after := by
      rw [List.append_assoc, ← hline, List.takeWhile_append_dropWhile]
    generalize (Text.firstLine text).takeWhile isIndent = indent at hindent hfirst ⊢
    have htext : text = indent ++ label ++ (after ++ rest) := by
      rw [← List.append_assoc, ← hfirst, hrest]
    have hafter : Text.firstLine (after ++ rest) = after := by
      have hagain := firstLine_append_label hlabel hindent (after ++ rest)
      rw [← htext, hfirst] at hagain
      exact (List.append_cancel_left hagain).symm
    refine ⟨indent, after ++ rest, htext, hindent, ?_, rfl⟩
    rw [← isWord?_head_firstLine, hafter, hword]

/-! The places that close a heredoc in its body, and the lines that do. -/

theorem closesHeredoc_of_closesLine (hlabel : IsLabel label) (hstart : Text.StartsLine text start)
    (hle : start ≤ p) (hline : Text.LineAt text p line) (hcloses : ClosesLine label line) :
    ∃ before after, text.drop start = before ++ label ++ after ∧ ClosesHeredoc true before after ∧
      start + before.length = p + (line.takeWhile isIndent).length := by
  obtain ⟨count, rfl⟩ := Nat.exists_eq_add_of_le hle
  have hfront : text.drop start = (text.drop start).take count ++ text.drop (start + count) := by
    rw [← List.drop_drop, List.take_append_drop]
  have hcount : ((text.drop start).take count).length = count := by
    have hinside := hline.startsLine.le_length
    rw [List.length_take, List.length_drop]
    omega
  generalize (text.drop start).take count = front at hfront hcount
  subst hcount
  obtain rfl := hline.eq_firstLine
  obtain ⟨indent, after, htext, hindent, hword, hlength⟩ :=
    (closingLabel?_eq_some hlabel).mp ((closingLabel?_iff_closesLine hlabel).mpr ⟨hcloses, rfl⟩)
  have hends := (hstart.behind_iff hfront).mp hline.startsLine
  refine ⟨front ++ indent, after, ?_,
    ⟨⟨front, indent, rfl, hindent, hends.imp_left fun hnil => ⟨hnil, rfl⟩⟩, hword⟩, ?_⟩
  · rw [hfront, htext, List.append_assoc front, List.append_assoc front]
  · rw [List.length_append]
    omega

theorem closesLine_of_closesHeredoc (hlabel : IsLabel label) (hstart : Text.StartsLine text start)
    {before after : Text} (htext : text.drop start = before ++ label ++ after)
    (hcloses : ClosesHeredoc true before after) :
    ∃ p line, start ≤ p ∧ Text.LineAt text p line ∧ ClosesLine label line ∧
      start + before.length = p + (line.takeWhile isIndent).length := by
  obtain ⟨⟨front, indent, rfl, hindent, hends⟩, hword⟩ := hcloses
  rw [List.append_assoc front, List.append_assoc front] at htext
  have hdrop : text.drop (start + front.length) = indent ++ label ++ after := by
    rw [← List.drop_drop, htext, List.drop_left]
  have hp : Text.StartsLine text (start + front.length) :=
    (hstart.behind_iff htext).mpr (hends.imp_left And.left)
  obtain ⟨hline, hlength⟩ := (closingLabel?_iff_closesLine hlabel).mp
    ((closingLabel?_eq_some hlabel).mpr ⟨indent, after, hdrop, hindent, hword, rfl⟩)
  refine ⟨_, _, Nat.le_add_right _ _, Text.lineAt_iff.mpr ⟨hp, rfl⟩, hline, ?_⟩
  rw [List.length_append]
  omega

theorem heredocEnd_eq (hstart : Text.StartsLine text start) : heredocEnd text start label =
    start + (throughLabel label true (text.drop start)).1.length := by
  have hfront : (decide (start = 0) || decide (text[start - 1]? = some '\n')) = true := by
    rcases hstart with rfl | ⟨k, hk, rfl⟩
    · rfl
    · simp [hk]
  simp only [heredocEnd, Nat.min_eq_left hstart.le_length, hfront]

theorem heredocEnd_of_closed (hlabel : IsLabel label) (hstart : Text.StartsLine text start)
    (hclosed : (closingLines text label start).Nonempty) :
    ∃ p line, IsLeast (closingLines text label start) p ∧ Text.LineAt text p line ∧
      heredocEnd text start label = p + (line.takeWhile isIndent).length + label.length := by
  rw [heredocEnd_eq hstart]
  rcases throughLabel_spec hlabel true (text.drop start) with
    ⟨before, after, hthrough, htext, hcloses, hfirst⟩ | ⟨_, hnone⟩
  · obtain ⟨p, line, hle, hline, hlabelled, hplace⟩ :=
      closesLine_of_closesHeredoc hlabel hstart htext hcloses
    refine ⟨p, line, ⟨⟨hle, line, hline, hlabelled⟩, ?_⟩, hline, ?_⟩
    · rintro q ⟨hq, other, hother, hotherCloses⟩
      obtain ⟨before', after', htext', hcloses', hplace'⟩ :=
        closesHeredoc_of_closesLine hlabel hstart hq hother hotherCloses
      have hbefore := hfirst before' after' htext' hcloses'
      have hplaces : p + (line.takeWhile isIndent).length ≤
          q + (other.takeWhile isIndent).length := by omega
      exact hline.le_of_le hother (List.takeWhile_prefix _).length_le hplaces
    · rw [hthrough, List.length_append]
      omega
  · obtain ⟨p, hle, line, hline, hlabelled⟩ := hclosed
    obtain ⟨before, after, htext, hcloses, _⟩ :=
      closesHeredoc_of_closesLine hlabel hstart hle hline hlabelled
    exact absurd hcloses (hnone before after htext)

theorem heredocEnd_of_open (hlabel : IsLabel label) (hstart : Text.StartsLine text start)
    (hopen : closingLines text label start = ∅) : heredocEnd text start label = text.length := by
  rw [heredocEnd_eq hstart]
  rcases throughLabel_spec hlabel true (text.drop start) with
    ⟨before, after, _, htext, hcloses, _⟩ | ⟨hthrough, _⟩
  · obtain ⟨p, line, hle, hline, hlabelled, _⟩ :=
      closesLine_of_closesHeredoc hlabel hstart htext hcloses
    have hmem : p ∈ closingLines text label start := ⟨hle, line, hline, hlabelled⟩
    rw [hopen] at hmem
    exact hmem.elim
  · have hle := hstart.le_length
    rw [hthrough, List.length_drop]
    omega

/-- A label that a word character follows, or that has anything but blanks before it on its line, is not
where a heredoc ends that some line closes. -/
theorem heredocEnd_ne (hlabel : IsLabel label) (hstart : Text.StartsLine text start)
    (hclosed : (closingLines text label start).Nonempty) {before after : Text}
    (hline : Text.LineAt text p (before ++ label ++ after))
    (hother : Text.isWord? after.head? ∨ ∃ c ∈ before, ¬isIndent c) :
    heredocEnd text start label ≠ p + before.length + label.length := by
  intro hend
  obtain ⟨q, closing, hleast, hclosing, hplace⟩ := heredocEnd_of_closed hlabel hstart hclosed
  obtain ⟨_, same, hsame, rest, hrest, hword⟩ := hleast.1
  obtain rfl := hsame.unique hclosing
  have hplaces : p + before.length = q + (same.takeWhile isIndent).length := by omega
  have hindent : (same.takeWhile isIndent).length ≤ same.length :=
    (List.takeWhile_prefix _).length_le
  have hbefore : before.length ≤ (before ++ label ++ after).length := by
    simp only [List.length_append]
    omega
  obtain rfl : p = q := Nat.le_antisymm (hline.le_of_le hclosing hindent hplaces.le)
    (hclosing.le_of_le hline hbefore hplaces.ge)
  obtain rfl := hclosing.unique hline
  have hparts : before = (before ++ label ++ after).takeWhile isIndent ∧
      label ++ after = (before ++ label ++ after).dropWhile isIndent := by
    apply List.append_inj _ (by omega)
    rw [List.takeWhile_append_dropWhile, List.append_assoc]
  rcases hother with hcontinues | ⟨c, hc, hblank⟩
  · rw [← hparts.2] at hrest
    rw [List.append_cancel_left hrest, hword] at hcontinues
    cases hcontinues
  · rw [hparts.1] at hc
    exact hblank (List.mem_takeWhile_imp hc)

/-- A heredoc ends right behind the label on the first line, from its body's start on, that has the label
behind its blanks and no word character after it; if there is no such line, it ends with the text. Where
it goes on as a longer word or stands behind anything but blanks, the label ends no heredoc. -/
theorem heredoc_ends_on_first_closing_line (hlabel : IsLabel label)
    (hstart : Text.StartsLine text start) :
    ((closingLines text label start).Nonempty →
      ∃ p line, IsLeast (closingLines text label start) p ∧ Text.LineAt text p line ∧
        heredocEnd text start label = p + (line.takeWhile isIndent).length + label.length) ∧
    (closingLines text label start = ∅ → heredocEnd text start label = text.length) ∧
    ∀ p before after, (closingLines text label start).Nonempty →
      Text.LineAt text p (before ++ label ++ after) →
      Text.isWord? after.head? ∨ (∃ c ∈ before, ¬isIndent c) →
      heredocEnd text start label ≠ p + before.length + label.length :=
  ⟨heredocEnd_of_closed hlabel hstart, heredocEnd_of_open hlabel hstart,
    fun _ _ _ hclosed => heredocEnd_ne hlabel hstart hclosed⟩

def twoHeredocs : Text := "<<<Eé\n Eé1\n- Eé\n\t Eé, Eé\n<<<E\n EE".toList

theorem two_heredocs_end :
    IsLeast (closingLines twoHeredocs "Eé".toList 6) 16 ∧
      heredocEnd twoHeredocs 6 "Eé".toList = 20 ∧
      closingLines twoHeredocs "E".toList 30 = ∅ ∧
      heredocEnd twoHeredocs 30 "E".toList = twoHeredocs.length := by
  have hlabel : IsLabel "Eé".toList :=
    ⟨'E', ['é'], rfl, by decide, List.forall_mem_singleton.mpr (by decide +kernel)⟩
  have hstart : Text.StartsLine twoHeredocs 6 := .inr ⟨5, by decide, rfl⟩
  have hshort : IsLabel "E".toList := ⟨'E', [], rfl, by decide, List.forall_mem_nil _⟩
  have hlast : Text.StartsLine twoHeredocs 30 := .inr ⟨29, by decide, rfl⟩
  have hline : Text.LineAt twoHeredocs 16 "\t Eé, Eé".toList :=
    Text.lineAt_iff.mpr ⟨.inr ⟨15, by decide, rfl⟩, by decide⟩
  have hmem : 16 ∈ closingLines twoHeredocs "Eé".toList 6 :=
    ⟨by decide, _, hline, ", Eé".toList, by decide, by decide +kernel⟩
  have hend : heredocEnd twoHeredocs 6 "Eé".toList = 20 := by decide +kernel
  have hempty : closingLines twoHeredocs "E".toList 30 = ∅ := by
    refine Set.ext fun p => iff_of_false ?_ id
    rintro ⟨hle, line, hp, hcloses⟩
    have hfeeds : ∀ k < twoHeredocs.length, twoHeredocs[k]? = some '\n' → k ≤ 29 := by decide
    obtain rfl : p = 30 := by
      rcases hp.startsLine with rfl | ⟨k, hk, rfl⟩
      · omega
      · have := hfeeds k (List.getElem?_eq_some_iff.mp hk).1 hk
        omega
    rw [hp.eq_firstLine] at hcloses
    have hfound := (closingLabel?_iff_closesLine hshort).mpr ⟨hcloses, rfl⟩
    have hnone : closingLabel? "E".toList (twoHeredocs.drop 30) = none := by decide +kernel
    rw [hnone] at hfound
    cases hfound
  obtain ⟨hclosed, _, _⟩ := heredoc_ends_on_first_closing_line hlabel hstart
  obtain ⟨_, hopen, _⟩ := heredoc_ends_on_first_closing_line hshort hlast
  obtain ⟨p, line, hleast, hp, hplace⟩ := hclosed ⟨16, hmem⟩
  have hearlier : ∀ k < 16,
      k + ((Text.firstLine (twoHeredocs.drop k)).takeWhile isIndent).length + 2 < 20 := by decide
  rw [hend, hp.eq_firstLine] at hplace
  obtain rfl : p = 16 := by
    refine (hleast.2 hmem).eq_of_not_lt fun hlt => ?_
    exact absurd hplace (hearlier p hlt).ne'
  exact ⟨hleast, hend, hempty, hopen hempty⟩

end CommitGate.Php
