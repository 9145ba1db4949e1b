import CommitGate.Proofs.Php.Copied
import CommitGate.Proofs.Php.Document

/-! Boundaries of a template. A segment that ends before the end of a text is the same segment in a longer
text, so a scan that has come through a close tag reads what follows as a document of its own; and markup
without an open tag does not bear on the document behind it. -/
namespace CommitGate.Php

/-- A text that the scan still has before it ends in a close tag. -/
def EndsClosed (text : Text) : Prop := closeTag <:+ text

section Splitters

variable {text rest : Text} (after : Text)

theorem EndsClosed.ne_nil (h : EndsClosed text) : text ≠ [] := by
  rintro rfl
  exact absurd (List.eq_nil_of_suffix_nil h) (by simp [closeTag])

theorem throughQuote_append_right {quote : Char} (hq : quote ≠ '\\')
    (h : (throughQuote quote text).2 ≠ []) :
    throughQuote quote (text ++ after) =
      ((throughQuote quote text).1, (throughQuote quote text).2 ++ after) := by
  rcases quotedBody_cases quote text with ⟨body, more, hb, rfl⟩ | hopen
  · rw [List.append_assoc, List.cons_append, throughQuote_closed hq hb, throughQuote_closed hq hb]
  · rw [throughQuote_open hopen] at h
    exact absurd rfl h

theorem throughBlockEnd_append_right (h : (throughBlockEnd text).2 ≠ []) :
    throughBlockEnd (text ++ after) =
      ((throughBlockEnd text).1, (throughBlockEnd text).2 ++ after) := by
  rcases blockEnd_cases text with ⟨body, more, hb, rfl⟩ | hopen
  · rw [List.append_assoc, throughBlockEnd_closed hb, throughBlockEnd_closed hb]
  · rw [throughBlockEnd_open hopen] at h
    exact absurd rfl h

theorem untilLineCommentEnd_append_right (h : (untilLineCommentEnd text).2 ≠ []) :
    untilLineCommentEnd (text ++ after) =
      ((untilLineCommentEnd text).1, (untilLineCommentEnd text).2 ++ after) := by
  obtain ⟨hline, htag, hstop⟩ := untilLineCommentEnd_spec text
  have hstop' : StopsLineComment ((untilLineCommentEnd text).2 ++ after) :=
    .inr ((hstop.resolve_left h).imp (·.trans (List.prefix_append _ _))
      (·.trans (List.prefix_append _ _)))
  have hsplit := untilLineCommentEnd_append_stop hline htag hstop'
  rwa [← List.append_assoc, untilLineCommentEnd_append] at hsplit

theorem HeredocBody.append_right {label body more : Text} (h : HeredocBody label body more)
    (hne : more ≠ []) : HeredocBody label body (more ++ after) := by
  have hhead : (more ++ after).head? = more.head? := List.head?_append_of_ne_nil _ hne
  obtain ⟨before, rfl, ⟨hstart, hword⟩, hfirst⟩ := h
  refine ⟨before, rfl, ⟨hstart, by rwa [hhead]⟩, fun before' after' ht hcloses => ?_⟩
  by_contra hlt
  rw [Nat.not_le] at hlt
  have hprefix : before' ++ label <+: before ++ label := by
    have hlong : before' ++ label <+: before ++ label ++ (more ++ after) := by
      rw [ht]
      exact List.prefix_append _ _
    exact List.prefix_of_prefix_length_le hlong (List.prefix_append _ _) (by simp; omega)
  obtain ⟨low, hlow⟩ := hprefix
  have hne' : low ++ more ≠ [] := by simp [hne]
  have hafter : after' = low ++ more ++ after := by
    rw [← hlow] at ht
    simpa using ht.symm
  refine absurd (hfirst before' (low ++ more) (by rw [← hlow]; simp) ⟨hcloses.1, ?_⟩) (by omega)
  rw [← hcloses.2, hafter, List.head?_append_of_ne_nil _ hne']

theorem throughLabel_append_right {label : Text} (hlabel : IsLabel label)
    (h : (throughLabel label true text).2 ≠ []) :
    throughLabel label true (text ++ after) =
      ((throughLabel label true text).1, (throughLabel label true text).2 ++ after) := by
  rcases heredocBody_cases hlabel text with ⟨body, more, hb, rfl⟩ | hopen
  · rw [throughLabel_closed hlabel hb] at h ⊢
    rw [List.append_assoc]
    exact throughLabel_closed hlabel (hb.append_right after h)
  · rw [throughLabel_open hlabel hopen] at h
    exact absurd rfl h

theorem openTag_append_right {tag : Text} (hne : rest ≠ []) :
    OpenTag tag (rest ++ after) ↔ OpenTag tag rest := by
  have hhead : (rest ++ after).head? = rest.head? := List.head?_append_of_ne_nil _ hne
  constructor
  · intro h
    cases h with
    | echo => exact .echo rest
    | php hword hb => exact .php hword (hhead ▸ hb)
  · intro h
    cases h with
    | echo => exact .echo (rest ++ after)
    | php hword hb => exact .php hword (hhead.symm ▸ hb)

theorem OpenTag.length_bounds {tag : Text} (h : OpenTag tag rest) :
    3 ≤ tag.length ∧ tag.length ≤ 5 := by
  cases h with
  | echo => simp
  | @php word _ hword _ =>
    have hlength := congrArg List.length hword
    simp only [List.length_map, List.length_cons, List.length_nil] at hlength
    simp [hlength]

theorem HoldsNoOpenTag.append_right {html : Text} (h : HoldsNoOpenTag html rest)
    (hlength : 5 ≤ rest.length) : HoldsNoOpenTag html (rest ++ after) := by
  intro before here hhtml hne tag more ht hp
  have hpos := List.length_pos_iff.2 hne
  have hprefix : tag <+: here ++ rest := by
    have hshort : tag <+: here ++ (rest ++ after) := by
      rw [ht]
      exact List.prefix_append _ _
    have hlong : here ++ rest <+: here ++ (rest ++ after) := by
      rw [← List.append_assoc]
      exact List.prefix_append _ _
    refine List.prefix_of_prefix_length_le hshort hlong ?_
    have htag := hp.length_bounds
    rw [List.length_append]
    omega
  obtain ⟨low, hlow⟩ := hprefix
  have hne' : low ≠ [] := by
    rintro rfl
    have hsum := congrArg List.length hlow
    have htag := hp.length_bounds
    simp only [List.length_append, List.length_nil] at hsum
    omega
  have hmore : more = low ++ after := by
    rw [← List.append_assoc, ← hlow, List.append_assoc] at ht
    exact (List.append_cancel_left ht).symm
  rw [hmore, openTag_append_right after hne'] at hp
  exact h before here hhtml hne tag low hlow.symm hp

theorem throughOpenTag_append_right (h : EndsClosed (throughOpenTag text).2) :
    throughOpenTag (text ++ after) =
      ((throughOpenTag text).1, (throughOpenTag text).2 ++ after) := by
  rcases openTag_cases text with ⟨html, tag, more, hno, ht, rfl⟩ | hno
  · rw [throughOpenTag_some hno ht] at h ⊢
    have hlength : 5 ≤ (tag ++ more).length := by
      have htag := ht.length_bounds
      have hmore := h.length_le
      simp only [closeTag, List.length_cons, List.length_nil] at hmore
      rw [List.length_append]
      omega
    have hno' := hno.append_right after hlength
    rw [List.append_assoc] at hno'
    have hsplit := throughOpenTag_some hno' ((openTag_append_right after h.ne_nil).2 ht)
    rwa [← List.append_assoc] at hsplit
  · rw [throughOpenTag_none hno] at h
    exact absurd rfl h.ne_nil

end Splitters

section Code

variable {c : Char} {rest : Text}

theorem codeSegment_eq_code_iff :
    codeSegment c rest = (⟨.code, [c]⟩, rest) ↔
      ¬(c = '?' ∧ rest.head? = some '>') ∧ isQuote c = false ∧ heredocOpener? (c :: rest) = none ∧
        ¬(c = '/' ∧ rest.head? = some '*') ∧ opensLineComment c rest.head? = false := by
  rw [codeSegment]
  grind

theorem not_mem_heredocOpener {opener label : Text} (h : IsHeredocOpener opener label) :
    '?' ∉ opener := by
  have hlabel := h.isLabel.not_mem (show Text.isWord '?' = false by decide)
  cases h with
  | @opener indent quote others eol first hi hq hf ho he =>
    have hindent : '?' ∉ indent := fun hm => absurd (hi _ hm) (by decide)
    have hquote : '?' ∉ quote := by
      simp only [List.mem_cons, List.not_mem_nil, or_false] at hq
      rcases hq with rfl | rfl | rfl <;> decide
    have heol : '?' ∉ eol := by
      simp only [List.mem_cons, List.not_mem_nil, or_false] at he
      rcases he with rfl | rfl <;> decide
    obtain ⟨hfirst, hothers⟩ := List.ne_and_not_mem_of_not_mem_cons hlabel
    simp [hindent, hquote, hfirst, hothers, heol]

theorem heredocOpener?_append_right (h : EndsClosed rest)
    (hnone : heredocOpener? (c :: rest) = none) (after : Text) :
    heredocOpener? (c :: (rest ++ after)) = none := by
  cases ho : heredocOpener? (c :: (rest ++ after)) with
  | none => rfl
  | some p =>
    obtain ⟨opener, body⟩ := p
    have hopener := isHeredocOpener_of_heredocOpener? ho
    have hsource : opener.source ++ body = c :: rest ++ after := heredocOpener?_append ho
    rcases List.prefix_or_prefix_of_prefix (List.prefix_append opener.source body)
      (hsource ▸ List.prefix_append (c :: rest) after) with ⟨more, hm⟩ | hp
    · rw [← hm, heredocOpener?_eq hopener] at hnone
      cases hnone
    · obtain ⟨front, rfl⟩ := h
      exact absurd (hp.subset (by simp [closeTag])) (not_mem_heredocOpener hopener)

theorem codeSegment_append_right (h : EndsClosed (codeSegment c rest).2) (after : Text) :
    codeSegment c (rest ++ after) = ((codeSegment c rest).1, (codeSegment c rest).2 ++ after) := by
  by_cases hclose : c = '?' ∧ rest.head? = some '>'
  · obtain ⟨rfl, hr⟩ := hclose
    obtain ⟨more, rfl⟩ := List.head?_eq_some_iff.1 hr
    rw [List.cons_append, codeSegment_close, codeSegment_close]
  by_cases hq : isQuote c
  · rw [codeSegment_quoted hq] at h ⊢
    rw [codeSegment_quoted hq, throughQuote_append_right after (quote_ne_backslash hq) h.ne_nil]
  cases ho : heredocOpener? (c :: rest) with
  | some p =>
    obtain ⟨opener, text⟩ := p
    have hopener := isHeredocOpener_of_heredocOpener? ho
    have hsource := (heredocOpener?_append ho).symm
    have hsource' : c :: (rest ++ after) = opener.source ++ (text ++ after) := by
      rw [← List.append_assoc, ← hsource]
      rfl
    rw [codeSegment_heredoc hopener hsource] at h ⊢
    rw [codeSegment_heredoc hopener hsource',
      throughLabel_append_right after hopener.isLabel h.ne_nil]
  | none =>
    by_cases hblock : c = '/' ∧ rest.head? = some '*'
    · obtain ⟨rfl, hr⟩ := hblock
      obtain ⟨text, rfl⟩ := List.head?_eq_some_iff.1 hr
      rw [codeSegment_blockComment] at h ⊢
      rw [List.cons_append, codeSegment_blockComment, throughBlockEnd_append_right after h.ne_nil]
    have hhead : (rest ++ after).head? = rest.head? := by
      refine List.head?_append_of_ne_nil _ ?_
      rintro rfl
      have hlength := congrArg List.length (codeSegment_append c [])
      have hsource := List.length_pos_iff.2 (codeSegment_ne_nil c [])
      have hclosed := List.length_pos_iff.2 h.ne_nil
      simp only [List.length_append, List.length_cons, List.length_nil] at hlength
      omega
    by_cases hline : opensLineComment c rest.head?
    · rw [codeSegment_lineComment hline] at h ⊢
      rw [codeSegment_lineComment (hhead ▸ hline), untilLineCommentEnd_append_right after h.ne_nil]
    · have hcode := codeSegment_eq_code_iff.2
        ⟨hclose, eq_false_of_ne_true hq, ho, hblock, eq_false_of_ne_true hline⟩
      rw [hcode] at h ⊢
      exact codeSegment_eq_code_iff.2 ⟨hhead ▸ hclose, eq_false_of_ne_true hq,
        heredocOpener?_append_right h ho after, hhead ▸ hblock, hhead ▸ eq_false_of_ne_true hline⟩

end Code

def closing : Segment := ⟨.closeTag, closeTag⟩

theorem endsClosed_of_getLast? {inCode : Bool} {text : Text}
    (h : (segmentsFrom inCode text).getLast? = some closing) : EndsClosed text := by
  obtain ⟨front, hfront⟩ := List.getLast?_eq_some_iff.1 h
  have hsource := flatMap_source_segmentsFrom inCode text
  rw [hfront, List.flatMap_append, List.flatMap_singleton] at hsource
  exact ⟨_, hsource⟩

theorem getLast?_cons_cases {first last : Segment} {others : List Segment}
    (h : (first :: others).getLast? = some last) :
    others = [] ∧ first = last ∨ others.getLast? = some last := by
  cases ho : others.getLast? with
  | none =>
    have hnil := List.getLast?_eq_none_iff.1 ho
    subst hnil
    exact .inl ⟨rfl, Option.some.inj h⟩
  | some s =>
    rw [List.getLast?_cons, ho] at h
    exact .inr h

theorem eq_nil_of_segmentsFrom {inCode : Bool} {text : Text} (h : segmentsFrom inCode text = []) :
    text = [] := by
  rw [← flatMap_source_segmentsFrom inCode text, h]
  rfl

theorem segmentsFrom_code (c : Char) (rest : Text) :
    segmentsFrom true (c :: rest) = (codeSegment c rest).1 ::
      segmentsFrom ((codeSegment c rest).1.kind != .closeTag) (codeSegment c rest).2 := by
  rw [segmentsFrom]
  rfl

theorem segments_cons (c : Char) (rest : Text) :
    segments (c :: rest) = ⟨.markup, (throughOpenTag (c :: rest)).1⟩ ::
      segmentsFrom true (throughOpenTag (c :: rest)).2 := by
  rw [segments, segmentsFrom]
  rfl

/-- After a scan that has come through a close tag in the end, the segments of what follows are those of a
document of its own. -/
theorem segmentsFrom_append {inCode : Bool} {text : Text}
    (h : (segmentsFrom inCode text).getLast? = some closing) (after : Text) :
    segmentsFrom inCode (text ++ after) = segmentsFrom inCode text ++ segments after := by
  fun_induction segmentsFrom inCode text with
  | case1 => cases h
  | case2 c rest s ih =>
    rw [List.cons_append, segmentsFrom_code]
    rcases getLast?_cons_cases h with ⟨hnil, hs⟩ | hlast
    · have hsource : s.1.source ++ s.2 = c :: rest := codeSegment_append c rest
      rw [eq_nil_of_segmentsFrom hnil, hs] at hsource
      obtain ⟨rfl, rfl⟩ := List.cons.inj hsource
      rw [hnil]
      rfl
    · rw [codeSegment_append_right (endsClosed_of_getLast? hlast) after]
      exact congrArg (s.1 :: ·) (ih hlast)
  | case3 inCode c rest hcode s ih =>
    rw [Bool.not_eq_true] at hcode
    subst hcode
    rcases getLast?_cons_cases h with ⟨_, hs⟩ | hlast
    · cases hs
    · have hthrough := throughOpenTag_append_right after (endsClosed_of_getLast? hlast)
      rw [List.cons_append] at hthrough
      rw [List.cons_append, ← segments, segments_cons, hthrough]
      exact congrArg (List.cons _) (ih hlast)

/-! Markup. -/

theorem throughOpenTag_markup {html after : Text} (h : HoldsNoOpenTag html after) :
    throughOpenTag (html ++ after) =
      (html ++ (throughOpenTag after).1, (throughOpenTag after).2) := by
  induction html with
  | nil => rfl
  | cons c html ih =>
    obtain ⟨hno, hrest⟩ := holdsNoOpenTag_cons.1 h
    rw [List.cons_append, throughOpenTag, hno, ih hrest]
    rfl

theorem characters_markup (text : Text) :
    characters text = (throughOpenTag text).1.map (·, .markup) ++
      (segmentsFrom true (throughOpenTag text).2).flatMap fun s => s.source.map (·, s.kind) := by
  cases text with
  | nil => simp [characters, segments, segmentsFrom, throughOpenTag]
  | cons c rest => rw [characters, segments_cons, List.flatMap_cons]

theorem characters_append_markup {html after : Text} (h : HoldsNoOpenTag html after) :
    characters (html ++ after) = html.map (·, .markup) ++ characters after := by
  rw [characters_markup, characters_markup after, throughOpenTag_markup h, List.map_append,
    List.append_assoc]

theorem withoutComments_append_markup {html after : Text} (h : HoldsNoOpenTag html after) :
    withoutComments (html ++ after) = html ++ withoutComments after := by
  have hmarkup : ∀ text, withoutComments text = keptFrom false text := fun _ => rfl
  rw [hmarkup, hmarkup, keptFrom_markup, keptFrom_markup after, throughOpenTag_markup h,
    List.append_assoc]

/-- A closed block and markup each leave alone how the text behind them is read, what is kept of it and
the kind of each of its characters. -/
theorem boundaries_compose :
    (∀ before after, (segments before).getLast? = some closing →
      withoutComments (before ++ after) = withoutComments before ++ withoutComments after ∧
      characters (before ++ after) = characters before ++ characters after) ∧
    ∀ html after, HoldsNoOpenTag html after →
      withoutComments (html ++ after) = html ++ withoutComments after ∧
      characters (html ++ after) = html.map (·, .markup) ++ characters after := by
  constructor
  · intro before after h
    have hsegments : segments (before ++ after) = segments before ++ segments after :=
      segmentsFrom_append h after
    constructor
    · rw [withoutComments, hsegments, List.flatMap_append]
      rfl
    · rw [characters, hsegments, List.flatMap_append]
      rfl
  · intro html after h
    exact ⟨withoutComments_append_markup h, characters_append_markup h⟩

/-- The comment that a close tag cuts short does not reach into the next block, and an apostrophe in the
markup opens no string there. -/
theorem boundaries_compose_comment_and_apostrophe :
    (segments "<?php f(); // it's ?>".toList).getLast? = some closing ∧
    withoutComments ("<?php f(); // it's ?>".toList ++ "<?php g(); // why".toList) =
      withoutComments "<?php f(); // it's ?>".toList ++ withoutComments "<?php g(); // why".toList ∧
    HoldsNoOpenTag "it's ".toList "<?php g(); // why".toList ∧
    withoutComments ("it's ".toList ++ "<?php g(); // why".toList) =
      "it's ".toList ++ withoutComments "<?php g(); // why".toList := by
  have hclosed : (segments "<?php f(); // it's ?>".toList).getLast? = some closing := by
    decide +kernel
  have hmarkup : HoldsNoOpenTag "it's ".toList "<?php g(); // why".toList := by
    have hnil : ∀ after, HoldsNoOpenTag [] after := fun _ _ _ hhere hne =>
      absurd (List.append_eq_nil_iff.1 hhere.symm).2 hne
    change HoldsNoOpenTag ['i', 't', '\'', 's', ' '] _
    simp only [holdsNoOpenTag_cons]
    exact ⟨rfl, rfl, rfl, rfl, rfl, hnil _⟩
  exact ⟨hclosed, (boundaries_compose.1 _ _ hclosed).1, hmarkup,
    (boundaries_compose.2 _ _ hmarkup).1⟩

end CommitGate.Php
