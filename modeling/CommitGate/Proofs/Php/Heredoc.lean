import CommitGate.Proofs.Php.Grammar
import Mathlib.Data.List.TakeWhile

/-! Heredocs as they are scanned and as the grammar has them: what an opener is, and that a body is
split behind the first label that closes it. -/
namespace CommitGate.Php

theorem isLabelStart_lt {c : Char} (h : isLabelStart c) : c.toNat < 128 := by
  rw [isLabelStart] at h
  delta Char.isAlpha Char.isUpper Char.isLower at h
  simp only [Bool.or_eq_true, Bool.and_eq_true, decide_eq_true_eq] at h
  rcases h with (⟨_, h⟩ | ⟨_, h⟩) | rfl
  · exact lt_of_le_of_lt (UInt32.le_iff_toNat_le.1 h) (by decide)
  · exact lt_of_le_of_lt (UInt32.le_iff_toNat_le.1 h) (by decide)
  · decide

theorem of_isLabelStart {p : Char → Prop} {c : Char} (h : isLabelStart c)
    (ascii : ∀ n < 128, isLabelStart (Char.ofNat n) → p (Char.ofNat n)) : p c := by
  have hc := ascii c.toNat (isLabelStart_lt h)
  rw [Char.ofNat_toNat] at hc
  exact hc h

theorem isWord_of_isLabelStart {c : Char} (h : isLabelStart c) : Text.isWord c := by
  apply of_isLabelStart h
  decide

theorem not_isIndent_of_isLabelStart {c : Char} (h : isLabelStart c) : isIndent c = false := by
  apply of_isLabelStart h
  decide

/-! The opener. -/

theorem takeWhile_append_stop {p : Char → Bool} {taken rest : Text} (h : ∀ c ∈ taken, p c)
    (hr : rest.head?.any p = false) : (taken ++ rest).takeWhile p = taken := by
  rw [List.takeWhile_append_of_pos h]
  cases rest with
  | nil => simp
  | cons c rest => simp_all

theorem dropWhile_append_stop {p : Char → Bool} {taken rest : Text} (h : ∀ c ∈ taken, p c)
    (hr : rest.head?.any p = false) : (taken ++ rest).dropWhile p = rest := by
  rw [List.dropWhile_append_of_pos h]
  cases rest with
  | nil => simp
  | cons c rest => simp_all

theorem labelQuote_eq {quote rest : Text} {first : Char} (hq : quote ∈ [[], ['\''], ['"']])
    (hf : isLabelStart first) : labelQuote (quote ++ first :: rest) = (quote, first :: rest) := by
  simp only [List.mem_cons, List.not_mem_nil, or_false] at hq
  rcases hq with rfl | rfl | rfl
  · rw [List.nil_append, labelQuote]
    · rintro _ ⟨rfl, _⟩
      exact absurd hf (by decide)
    · rintro _ ⟨rfl, _⟩
      exact absurd hf (by decide)
  · rfl
  · rfl

theorem heredocOpener?_eq {opener label : Text} (h : IsHeredocOpener opener label) (body : Text) :
    heredocOpener? (opener ++ body) = some (⟨opener, label⟩, body) := by
  cases h with
  | @opener indent quote others eol first hi hq hf ho he =>
    have stopIndent : (quote ++ first :: (others ++ (quote ++ (eol ++ body)))).head?.any isIndent
        = false := by
      simp only [List.mem_cons, List.not_mem_nil, or_false] at hq
      rcases hq with rfl | rfl | rfl
      · exact not_isIndent_of_isLabelStart hf
      · rfl
      · rfl
    have stopLabel : (quote ++ (eol ++ body)).head?.any Text.isWord = false := by
      simp only [List.mem_cons, List.not_mem_nil, or_false] at hq he
      rcases hq with rfl | rfl | rfl <;> rcases he with rfl | rfl <;> rfl
    have hl : label? (first :: (others ++ (quote ++ (eol ++ body)))) =
        some (first :: others, quote ++ (eol ++ body)) := by
      have hw : ∀ c ∈ first :: others, Text.isWord c :=
        List.forall_mem_cons.2 ⟨isWord_of_isLabelStart hf, ho⟩
      have ht := takeWhile_append_stop hw stopLabel
      have hd := dropWhile_append_stop hw stopLabel
      rw [List.cons_append] at ht hd
      simp [label?, hf, ht, hd]
    have hc : closeQuote? quote (quote ++ (eol ++ body)) = some (eol ++ body) := by
      simp [closeQuote?]
    have hle : lineEnd? (eol ++ body) = some (eol, body) := by
      simp only [List.mem_cons, List.not_mem_nil, or_false] at he
      rcases he with rfl | rfl <;> rfl
    simp only [List.append_assoc, List.cons_append, List.nil_append, heredocOpener?,
      takeWhile_append_stop hi stopIndent, dropWhile_append_stop hi stopIndent,
      labelQuote_eq hq hf, hl, hc, hle]

theorem isHeredocOpener_of_heredocOpener? {text body : Text} {o : HeredocOpener}
    (h : heredocOpener? text = some (o, body)) : IsHeredocOpener o.source o.label := by
  unfold heredocOpener? at h
  split at h
  · rename_i rest
    dsimp only at h
    split at h
    · cases h
    rename_i label afterLabel hl
    split at h
    · cases h
    split at h
    · cases h
    rename_i eol _ he
    simp only [Option.some.injEq, Prod.mk.injEq] at h
    obtain ⟨rfl, rfl⟩ := h
    have hq : (labelQuote (rest.dropWhile isIndent)).1 ∈ [[], ['\''], ['"']] := by
      unfold labelQuote
      split <;> simp
    have heol : eol ∈ [['\n'], ['\r', '\n']] := by
      unfold lineEnd? at he
      split at he <;> simp_all
    rw [label?] at hl
    split at hl
    · rename_i hs
      simp only [Option.some.injEq, Prod.mk.injEq] at hl
      obtain ⟨rfl, rfl⟩ := hl
      cases hn : (labelQuote (rest.dropWhile isIndent)).2 with
      | nil => simp [hn] at hs
      | cons first more =>
        rw [hn] at hs
        simp only [List.head?_cons, Option.any_some] at hs
        simp only [List.takeWhile_cons, isWord_of_isLabelStart hs, if_true]
        exact .opener (fun c hc => List.mem_takeWhile_imp hc) hq hs
          (fun c hc => List.mem_takeWhile_imp hc) heol
    · cases hl
  · cases h

/-! The closing label. -/

/-- A label starts with an ASCII letter or an underscore, and word characters follow. -/
def IsLabel (label : Text) : Prop :=
  ∃ first others, label = first :: others ∧ isLabelStart first ∧ ∀ c ∈ others, Text.isWord c

theorem IsHeredocOpener.isLabel {opener label : Text} (h : IsHeredocOpener opener label) :
    IsLabel label := by
  cases h with
  | opener _ _ hf ho _ => exact ⟨_, _, rfl, hf, ho⟩

theorem IsLabel.isWord {label : Text} (h : IsLabel label) : ∀ c ∈ label, Text.isWord c := by
  obtain ⟨first, others, rfl, hf, ho⟩ := h
  exact List.forall_mem_cons.2 ⟨isWord_of_isLabelStart hf, ho⟩

theorem IsLabel.not_mem {label : Text} (h : IsLabel label) {c : Char} (hc : Text.isWord c = false) :
    c ∉ label := by
  intro hmem
  rw [h.isWord c hmem] at hc
  cases hc

theorem IsLabel.isWord_getLast {label : Text} (h : IsLabel label) :
    Text.isWord? label.getLast? = true := by
  have hne : label ≠ [] := by
    obtain ⟨first, others, rfl, _⟩ := h
    exact List.cons_ne_nil first others
  rw [List.getLast?_eq_some_getLast hne, Text.isWord?, Option.any_some]
  exact h.isWord _ (List.getLast_mem hne)

theorem labelStandsAt_iff {label : Text} (h : IsLabel label) (text : Text) (indent : Nat) :
    labelStandsAt label text indent ↔
      ∃ after, text.drop indent = label ++ after ∧ Text.isWord? after.head? = false := by
  simp only [labelStandsAt, Text.atBoundary, h.isWord_getLast, Bool.and_eq_true,
    List.isPrefixOf_iff_prefix, ← List.drop_drop]
  constructor
  · rintro ⟨⟨after, ha⟩, hw⟩
    rw [← ha, List.drop_left] at hw
    exact ⟨after, ha.symm, by simpa using hw⟩
  · rintro ⟨after, ha, hw⟩
    rw [ha, List.drop_left, hw]
    exact ⟨⟨after, rfl⟩, rfl⟩

theorem IsLabel.head_not_isIndent {label : Text} (h : IsLabel label) (after : Text) :
    (label ++ after).head?.any isIndent = false := by
  obtain ⟨first, others, rfl, hf, _⟩ := h
  exact not_isIndent_of_isLabelStart hf

theorem closingLabel?_eq_some {label line : Text} (h : IsLabel label) {n : Nat} :
    closingLabel? label line = some n ↔
      ∃ indent after, line = indent ++ label ++ after ∧ (∀ c ∈ indent, isIndent c) ∧
        Text.isWord? after.head? = false ∧ n = indent.length + label.length := by
  constructor
  · intro hc
    simp only [closingLabel?, Option.map_eq_some_iff] at hc
    obtain ⟨indent, hi, rfl⟩ := hc
    obtain ⟨after, ha, hw⟩ := (labelStandsAt_iff h line indent).1 (List.find?_some hi)
    have hle : indent ≤ (line.takeWhile isIndent).length := by
      have := List.mem_of_find?_eq_some hi
      simp only [List.mem_reverse, List.mem_range] at this
      omega
    have hlen := (line.takeWhile_prefix isIndent).length_le
    refine ⟨line.take indent, after, ?_, ?_, hw, ?_⟩
    · rw [List.append_assoc, ← ha, List.take_append_drop]
    · intro c hc
      have hp : line.take indent <+: line.takeWhile isIndent := by
        refine List.prefix_of_prefix_length_le (List.take_prefix _ _)
          (List.takeWhile_prefix _) ?_
        rw [List.length_take]
        omega
      exact List.mem_takeWhile_imp (hp.subset hc)
    · rw [List.length_take]
      omega
  · rintro ⟨indent, after, rfl, hi, hw, rfl⟩
    have hl : ((indent ++ label ++ after).takeWhile isIndent).length = indent.length := by
      rw [List.append_assoc, takeWhile_append_stop hi (h.head_not_isIndent after)]
    have hs : labelStandsAt label (indent ++ label ++ after) indent.length :=
      (labelStandsAt_iff h _ _).2 ⟨after, by rw [List.append_assoc, List.drop_left], hw⟩
    simp only [closingLabel?, hl, List.range_succ, List.reverse_append, List.reverse_cons,
      List.reverse_nil, List.nil_append, List.cons_append, List.find?_cons, hs]
    rfl

theorem closesHeredoc_cons {atLineStart : Bool} {c : Char} {before after : Text}
    (h : ClosesHeredoc (c == '\n') before after) :
    ClosesHeredoc atLineStart (c :: before) after := by
  obtain ⟨⟨lines, indent, rfl, hi, hl⟩, hw⟩ := h
  refine ⟨⟨c :: lines, indent, rfl, hi, .inr ?_⟩, hw⟩
  rcases hl with ⟨rfl, hc⟩ | hl
  · simpa using hc
  · simp [List.getLast?_cons, hl]

theorem closesHeredoc_cases {label before after rest : Text} {c : Char} {atLineStart : Bool}
    (hlabel : IsLabel label) (ht : c :: rest = before ++ label ++ after)
    (h : ClosesHeredoc atLineStart before after) :
    (atLineStart ∧ closingLabel? label (c :: rest) = some (before.length + label.length)) ∨
      ∃ before', before = c :: before' ∧ ClosesHeredoc (c == '\n') before' after := by
  obtain ⟨⟨lines, indent, rfl, hi, hl⟩, hw⟩ := h
  cases lines with
  | nil =>
    refine .inl ⟨by simpa using hl, ?_⟩
    exact (closingLabel?_eq_some hlabel).2 ⟨indent, after, ht, hi, hw, rfl⟩
  | cons d lines =>
    simp only [List.cons_append, List.cons.injEq] at ht
    refine .inr ⟨lines ++ indent, by rw [ht.1, List.cons_append], ⟨lines, indent, rfl, hi, ?_⟩, hw⟩
    rw [ht.1]
    cases lines with
    | nil => simpa using hl
    | cons e lines => simpa [List.getLast?_cons] using hl

/-- A body is split behind the first label that closes it, or not at all. -/
theorem throughLabel_spec {label : Text} (hlabel : IsLabel label) (atLineStart : Bool)
    (text : Text) :
    (∃ before after, throughLabel label atLineStart text = (before ++ label, after) ∧
      text = before ++ label ++ after ∧ ClosesHeredoc atLineStart before after ∧
      ∀ before' after', text = before' ++ label ++ after' →
        ClosesHeredoc atLineStart before' after' → before.length ≤ before'.length) ∨
    (throughLabel label atLineStart text = (text, []) ∧
      ∀ before after, text = before ++ label ++ after →
        ¬ ClosesHeredoc atLineStart before after) := by
  fun_induction throughLabel label atLineStart text with
  | case1 atLineStart =>
    obtain ⟨first, others, rfl, _⟩ := hlabel
    exact .inr ⟨rfl, fun before after h => by simp at h⟩
  | case2 atLineStart c rest n hn =>
    obtain ⟨hstart, hn⟩ : atLineStart = true ∧ closingLabel? label (c :: rest) = some n := by
      split at hn
      · exact ⟨‹_›, hn⟩
      · cases hn
    obtain ⟨indent, after, ht, hi, hw, rfl⟩ := (closingLabel?_eq_some hlabel).1 hn
    refine .inl ⟨indent, after, ?_, ht, ⟨⟨[], indent, rfl, hi, .inl ⟨rfl, hstart⟩⟩, hw⟩, ?_⟩
    · rw [ht, ← List.length_append, List.splitAt_eq, List.take_left, List.drop_left]
    · intro before' after' ht' h'
      by_contra hlt
      obtain ⟨first, others, rfl, hf, _⟩ := hlabel
      have hg : (indent ++ (first :: others) ++ after)[before'.length]? = some first := by
        rw [← ht, ht']
        simp
      rw [List.append_assoc, List.getElem?_append_left (by omega)] at hg
      have := hi _ (List.mem_of_getElem? hg)
      simp [not_isIndent_of_isLabelStart hf] at this
  | case3 atLineStart c rest hn r ih =>
    have none_here : ∀ n, ¬ (atLineStart ∧ closingLabel? label (c :: rest) = some n) := by
      rintro n ⟨hs, hc⟩
      rw [if_pos hs, hc] at hn
      cases hn
    rcases ih with ⟨before, after, hr, ht, hclose, hfirst⟩ | ⟨hr, hno⟩
    · refine .inl ⟨c :: before, after, by simp [r, hr], by simp [ht],
        closesHeredoc_cons hclose, fun before' after' ht' h' => ?_⟩
      rcases closesHeredoc_cases hlabel ht' h' with here | ⟨before'', rfl, later⟩
      · exact absurd here (none_here _)
      · simp only [List.cons_append, List.cons.injEq, true_and] at ht'
        simpa using hfirst before'' after' ht' later
    · refine .inr ⟨by simp [r, hr], fun before' after' ht' h' => ?_⟩
      rcases closesHeredoc_cases hlabel ht' h' with here | ⟨before'', rfl, later⟩
      · exact none_here _ here
      · simp only [List.cons_append, List.cons.injEq, true_and] at ht'
        exact hno before'' after' ht' later

theorem throughLabel_closed {label body after : Text} (hlabel : IsLabel label)
    (h : HeredocBody label body after) : throughLabel label true (body ++ after) = (body, after) := by
  obtain ⟨before, rfl, hclose, hfirst⟩ := h
  rcases throughLabel_spec hlabel true (before ++ label ++ after) with
    ⟨before', after', hr, ht, hclose', hfirst'⟩ | ⟨_, hno⟩
  · have hle := hfirst before' after' ht hclose'
    have hge := hfirst' before after rfl hclose
    have hlen : before.length = before'.length := Nat.le_antisymm hle hge
    have hb : before = before' ∧ label ++ after = label ++ after' :=
      List.append_inj (by simpa using ht) hlen
    rw [hr, hb.1, List.append_cancel_left hb.2]
  · exact absurd hclose (hno before after rfl)

theorem throughLabel_open {label body : Text} (hlabel : IsLabel label)
    (h : OpenHeredocBody label body) : throughLabel label true body = (body, []) := by
  rcases throughLabel_spec hlabel true body with ⟨before, after, _, ht, hclose, _⟩ | ⟨hr, _⟩
  · exact absurd hclose (h before after ht)
  · exact hr

theorem heredocBody_cases {label : Text} (hlabel : IsLabel label) (text : Text) :
    (∃ body after, HeredocBody label body after ∧ text = body ++ after) ∨
      OpenHeredocBody label text := by
  rcases throughLabel_spec hlabel true text with ⟨before, after, _, rfl, hclose, hfirst⟩ | ⟨_, hno⟩
  · exact .inl ⟨_, after, ⟨before, rfl, hclose, hfirst⟩, rfl⟩
  · exact .inr hno

end CommitGate.Php
