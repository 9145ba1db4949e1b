import CommitGate.Proofs.Php.Grammar
import Mathlib.Data.List.Infix

/-! Each splitter of the scan against the piece of grammar that it looks for: it stops behind the
first place where the piece can end, or at the end of a text without such a place. -/
namespace CommitGate.Php

theorem quote_ne_backslash {quote : Char} (h : isQuote quote) : quote ≠ '\\' := by
  rintro rfl
  exact absurd h (by decide)

theorem throughQuote_closed {quote : Char} {body : Text} (hq : quote ≠ '\\')
    (h : QuotedBody quote body) (after : Text) :
    throughQuote quote (body ++ quote :: after) = (body ++ [quote], after) := by
  induction h with
  | nil =>
    cases after with
    | nil => rfl
    | cons d rest => simp [throughQuote, hq]
  | escape c _ ih => simp [throughQuote, ih]
  | @plain c body hc hb _ ih =>
    obtain ⟨d, rest, hd⟩ : ∃ d rest, body ++ quote :: after = d :: rest := by
      cases body <;> simp
    simp only [List.cons_append, hd, throughQuote, hc, hb, if_false] at ih ⊢
    rw [ih]

theorem throughQuote_open {quote : Char} {body : Text} (h : OpenQuotedBody quote body) :
    throughQuote quote body = (body, []) := by
  have lone : ∀ {text : Text}, QuotedBody quote text →
      throughQuote quote text = (text, []) ∧
        throughQuote quote (text ++ ['\\']) = (text ++ ['\\'], []) := by
    intro text ht
    induction ht with
    | nil => exact ⟨rfl, rfl⟩
    | escape c _ ih => simp [throughQuote, ih.1, ih.2]
    | @plain c body hc hb _ ih =>
      constructor
      · cases body with
        | nil => rfl
        | cons d rest => simp [throughQuote, hc, hb, ih.1]
      · obtain ⟨d, rest, hd⟩ : ∃ d rest, body ++ ['\\'] = d :: rest := by
          cases body <;> simp
        have := ih.2
        rw [hd] at this
        simp [hd, throughQuote, hc, hb, this]
  rcases h with h | ⟨body, h, rfl⟩
  · exact (lone h).1
  · exact (lone h).2

theorem quotedBody_cases (quote : Char) (text : Text) :
    (∃ body after, QuotedBody quote body ∧ text = body ++ quote :: after) ∨
      OpenQuotedBody quote text := by
  fun_induction throughQuote quote text with
  | case1 => exact .inr (.inl .nil)
  | case2 c =>
    by_cases hc : c = quote
    · exact .inl ⟨[], [], .nil, by simp [hc]⟩
    by_cases hb : c = '\\'
    · exact .inr (.inr ⟨[], .nil, by simp [hb]⟩)
    · exact .inr (.inl (.plain hc hb .nil))
  | case3 d rest _ ih =>
    rcases ih with ⟨body, after, hb, rfl⟩ | hb | ⟨body, hb, rfl⟩
    · exact .inl ⟨_, after, .escape d hb, by simp⟩
    · exact .inr (.inl (.escape d hb))
    · exact .inr (.inr ⟨_, .escape d hb, by simp⟩)
  | case4 d rest hb => exact .inl ⟨[], d :: rest, .nil, rfl⟩
  | case5 c d rest hb hc _ ih =>
    rcases ih with ⟨body, after, h, he⟩ | h | ⟨body, h, he⟩
    · exact .inl ⟨c :: body, after, .plain hc hb h, by simp [he]⟩
    · exact .inr (.inl (.plain hc hb h))
    · exact .inr (.inr ⟨c :: body, .plain hc hb h, by simp [he]⟩)

theorem throughBlockEnd_closed {body : Text} (h : ¬ blockEnd <:+: body) (after : Text) :
    throughBlockEnd (body ++ blockEnd ++ after) = (body ++ blockEnd, after) := by
  induction body with
  | nil => rfl
  | cons c body ih =>
    rw [List.infix_cons_iff, not_or] at h
    have step : throughBlockEnd (c :: (body ++ blockEnd ++ after)) =
        (c :: (throughBlockEnd (body ++ blockEnd ++ after)).1,
          (throughBlockEnd (body ++ blockEnd ++ after)).2) := by
      rw [throughBlockEnd]
      intro rest hc hr
      subst hc
      cases body with
      | nil => simp [blockEnd] at hr
      | cons d body => simp_all [blockEnd]
    simp only [List.cons_append]
    rw [step, ih h.2]

theorem throughBlockEnd_open {body : Text} (h : ¬ blockEnd <:+: body) :
    throughBlockEnd body = (body, []) := by
  fun_induction throughBlockEnd body with
  | case1 => rfl
  | case2 rest => exact absurd (List.prefix_append blockEnd rest).isInfix h
  | case3 c rest _ _ ih =>
    rw [List.infix_cons_iff, not_or] at h
    change (c :: (throughBlockEnd rest).1, (throughBlockEnd rest).2) = _
    rw [ih h.2]

theorem blockEnd_cases (text : Text) :
    (∃ body after, ¬ blockEnd <:+: body ∧ text = body ++ blockEnd ++ after) ∨
      ¬ blockEnd <:+: text := by
  fun_induction throughBlockEnd text with
  | case1 => exact .inr (by simp [blockEnd])
  | case2 rest => exact .inl ⟨[], rest, by simp [blockEnd], rfl⟩
  | case3 c rest hne _ ih =>
    rcases ih with ⟨body, after, hb, rfl⟩ | h
    · refine .inl ⟨c :: body, after, ?_, by simp⟩
      rw [List.infix_cons_iff, not_or]
      refine ⟨fun hp => ?_, hb⟩
      obtain ⟨t, ht⟩ := hp
      cases body with
      | nil => simp [blockEnd] at ht
      | cons d body =>
        simp only [blockEnd, List.cons_append, List.nil_append, List.cons.injEq] at ht
        exact hne _ ht.1.symm (by rw [← ht.2.1]; rfl)
    · refine .inr ?_
      rw [List.infix_cons_iff, not_or]
      refine ⟨fun hp => ?_, h⟩
      obtain ⟨t, ht⟩ := hp
      simp only [blockEnd, List.cons_append, List.nil_append, List.cons.injEq] at ht
      exact hne t ht.1.symm ht.2.symm

def StopsLineComment (after : Text) : Prop := after = [] ∨ ['\n'] <+: after ∨ closeTag <+: after

theorem untilLineCommentEnd_stop {after : Text} (h : StopsLineComment after) :
    untilLineCommentEnd after = ([], after) := by
  rcases h with rfl | ⟨t, rfl⟩ | ⟨t, rfl⟩ <;> simp [untilLineCommentEnd, closeTag]

theorem closeTag_prefix_cons {c : Char} {rest : Text} :
    closeTag <+: c :: rest ↔ c = '?' ∧ rest.head? = some '>' := by
  cases rest with
  | nil => simp [closeTag, List.cons_prefix_cons]
  | cons d rest => simp [closeTag, List.cons_prefix_cons, eq_comm]

theorem untilLineCommentEnd_append_stop {body after : Text} (hn : '\n' ∉ body)
    (ht : ¬ closeTag <:+: body) (h : StopsLineComment after) :
    untilLineCommentEnd (body ++ after) = (body, after) := by
  induction body with
  | nil => exact untilLineCommentEnd_stop h
  | cons c body ih =>
    rw [List.mem_cons, not_or] at hn
    rw [List.infix_cons_iff, not_or] at ht
    have stays : ¬ (c = '\n' ∨ c = '?' ∧ (body ++ after).head? = some '>') := by
      rintro (hc | ⟨hc, hd⟩)
      · exact hn.1 hc.symm
      cases body with
      | nil =>
        rcases h with rfl | ⟨t, rfl⟩ | ⟨t, rfl⟩ <;> simp [closeTag] at hd
      | cons d body => exact ht.1 (closeTag_prefix_cons.2 ⟨hc, hd⟩)
    rw [List.cons_append, untilLineCommentEnd, if_neg stays, ih hn.2 ht.2]

theorem untilLineCommentEnd_spec (text : Text) :
    '\n' ∉ (untilLineCommentEnd text).1 ∧ ¬ closeTag <:+: (untilLineCommentEnd text).1 ∧
      StopsLineComment (untilLineCommentEnd text).2 := by
  fun_induction untilLineCommentEnd text with
  | case1 => exact ⟨by simp, by simp [closeTag], .inl rfl⟩
  | case2 c rest h =>
    refine ⟨by simp, by simp [closeTag], .inr ?_⟩
    rcases h with rfl | h
    · exact .inl ⟨rest, rfl⟩
    · exact .inr (closeTag_prefix_cons.2 h)
  | case3 c rest h _ ih =>
    rw [not_or] at h
    obtain ⟨hn, ht, hs⟩ := ih
    refine ⟨?_, ?_, hs⟩
    · rw [List.mem_cons, not_or]
      exact ⟨fun hc => h.1 hc.symm, hn⟩
    · rw [List.infix_cons_iff, not_or]
      refine ⟨fun hp => h.2 ?_, ht⟩
      have hc := closeTag_prefix_cons.1 hp
      have ha := untilLineCommentEnd_append rest
      refine ⟨hc.1, ?_⟩
      rw [← ha, List.head?_append, hc.2]
      rfl

/-! The open tag. -/

theorem isWord_of_toLower_eq {c : Char} (h : c.toLower = 'p') : Text.isWord c := by
  delta Char.toLower at h
  split at h
  · have hv : c.val + ('a'.val - 'A'.val) = 'P'.val + ('a'.val - 'A'.val) := congrArg Char.val h
    have hc : c = 'P' := Char.ext ((UInt32.add_left_inj _).1 hv)
    subst hc
    decide
  · subst h
    decide

theorem openTag?_eq {tag after : Text} (h : OpenTag tag after) :
    openTag? (tag ++ after) = some tag.length := by
  cases h with
  | echo => rfl
  | @php word _ hw hb =>
    obtain ⟨a, b, c, rfl⟩ := List.length_eq_three.1
      (show word.length = 3 by simpa using congrArg List.length hw)
    simp only [List.map_cons, List.map_nil, List.cons.injEq, and_true] at hw
    have hn : Text.isWord? after.head? = false := by
      simpa [Text.atBoundary, Text.isWord?, isWord_of_toLower_eq hw.2.2] using hb
    have ha : a ≠ '=' := by
      rintro rfl
      exact absurd hw.1 (by decide)
    simp only [List.cons_append, List.nil_append]
    rw [openTag?]
    · simp [hw, hn]
    · rintro rfl
      exact ha rfl

theorem openTag_of_openTag? {text : Text} {n : Nat} (h : openTag? text = some n) :
    ∃ tag after, tag.length = n ∧ text = tag ++ after ∧ OpenTag tag after := by
  unfold openTag? at h
  split at h
  · cases h
    exact ⟨_, _, rfl, rfl, .echo _⟩
  · rename_i a b c rest _
    split at h
    · rename_i hw
      cases h
      refine ⟨['<', '?', a, b, c], rest, rfl, rfl, .php hw.1 ?_⟩
      have hc : c.toLower = 'p' := by simpa using congrArg List.getLast? hw.1
      simpa [Text.atBoundary, Text.isWord?, isWord_of_toLower_eq hc] using hw.2
    · cases h
  · cases h

theorem holdsNoOpenTag_nil (after : Text) : HoldsNoOpenTag [] after := by
  intro before here hnil hne
  exact absurd (List.append_eq_nil_iff.mp hnil.symm).2 hne

theorem holdsNoOpenTag_cons {c : Char} {html after : Text} :
    HoldsNoOpenTag (c :: html) after ↔
      openTag? (c :: (html ++ after)) = none ∧ HoldsNoOpenTag html after := by
  constructor
  · intro h
    constructor
    · cases ho : openTag? (c :: (html ++ after)) with
      | none => rfl
      | some n =>
        obtain ⟨tag, rest, _, ht, hp⟩ := openTag_of_openTag? ho
        exact absurd hp (h [] (c :: html) rfl (by simp) tag rest ht)
    · intro before here hh hne
      exact h (c :: before) here (by simp [hh]) hne
  · rintro ⟨ho, h⟩ before here hh hne tag rest ht hp
    cases before with
    | nil =>
      rw [List.nil_append] at hh
      subst hh
      have := openTag?_eq hp
      rw [← ht] at this
      simp [ho] at this
    | cons d before =>
      simp only [List.cons_append, List.cons.injEq] at hh
      exact h before here hh.2 hne tag rest ht hp

theorem throughOpenTag_none {html : Text} (h : HoldsNoOpenTag html []) :
    throughOpenTag html = (html, []) := by
  induction html with
  | nil => rfl
  | cons c html ih =>
    rw [holdsNoOpenTag_cons, List.append_nil] at h
    simp [throughOpenTag, h.1, ih h.2]

theorem throughOpenTag_some {html tag text : Text} (h : HoldsNoOpenTag html (tag ++ text))
    (ht : OpenTag tag text) : throughOpenTag (html ++ tag ++ text) = (html ++ tag, text) := by
  induction html with
  | nil =>
    have ho := openTag?_eq ht
    obtain ⟨c, rest, hc⟩ : ∃ c rest, tag ++ text = c :: rest := by
      cases ht <;> simp
    rw [List.nil_append, hc, throughOpenTag, ← hc, ho]
    simp [List.splitAt_eq]
  | cons c html ih =>
    rw [holdsNoOpenTag_cons] at h
    have hr := ih h.2
    rw [List.append_assoc] at hr
    simp [throughOpenTag, h.1, hr]

theorem openTag_cases (text : Text) :
    (∃ html tag after, HoldsNoOpenTag html (tag ++ after) ∧ OpenTag tag after ∧
      text = html ++ tag ++ after) ∨ HoldsNoOpenTag text [] := by
  induction text with
  | nil => exact .inr (holdsNoOpenTag_nil [])
  | cons c text ih =>
    cases ho : openTag? (c :: text) with
    | some n =>
      obtain ⟨tag, after, _, ht, hp⟩ := openTag_of_openTag? ho
      exact .inl ⟨[], tag, after, holdsNoOpenTag_nil _, hp, ht⟩
    | none =>
      rcases ih with ⟨html, tag, after, h, hp, rfl⟩ | h
      · exact .inl ⟨c :: html, tag, after,
          holdsNoOpenTag_cons.2 ⟨by rw [← List.append_assoc]; exact ho, h⟩, hp, rfl⟩
      · exact .inr (holdsNoOpenTag_cons.2 ⟨by rw [List.append_nil]; exact ho, h⟩)

end CommitGate.Php
