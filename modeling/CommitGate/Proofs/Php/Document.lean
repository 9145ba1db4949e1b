import CommitGate.Proofs.Php.Heredoc
import CommitGate.Proofs.Php.Scan

/-! The scan reads every text as the one document that the grammar sees in it. A segment of code is
a token of the grammar or a single character at which no token starts, and both split the text at
the same place. -/
namespace CommitGate.Php

theorem heredocOpener?_eq_none {c : Char} (h : c ≠ '<') (rest : Text) :
    heredocOpener? (c :: rest) = none := by
  unfold heredocOpener?
  split
  · simp_all
  · rfl

theorem IsHeredocOpener.eq_cons {opener label : Text} (h : IsHeredocOpener opener label) :
    ∃ rest, opener = '<' :: rest := by
  cases h
  exact ⟨_, rfl⟩

theorem codeSegment_quoted {c : Char} (h : isQuote c) (rest : Text) :
    codeSegment c rest = (⟨.quoted, c :: (throughQuote c rest).1⟩, (throughQuote c rest).2) := by
  have hc : c ≠ '?' := by
    rintro rfl
    exact absurd h (by decide)
  simp [codeSegment, hc, h]

theorem codeSegment_heredoc {opener label : Text} (h : IsHeredocOpener opener label) {body : Text}
    {c : Char} {rest : Text} (ht : c :: rest = opener ++ body) :
    codeSegment c rest = (⟨.heredoc, opener ++ (throughLabel label true body).1⟩,
      (throughLabel label true body).2) := by
  have ho := heredocOpener?_eq h body
  obtain ⟨more, rfl⟩ := h.eq_cons
  rw [← ht] at ho
  simp only [List.cons_append, List.cons.injEq] at ht
  have hq : isQuote '<' = false := by decide
  rw [ht.1] at ho
  simp [codeSegment, ht.1, hq, ho]

theorem codeSegment_blockComment (rest : Text) :
    codeSegment '/' ('*' :: rest) =
      (⟨.blockComment, '/' :: '*' :: (throughBlockEnd rest).1⟩, (throughBlockEnd rest).2) := by
  have hq : isQuote '/' = false := by decide
  simp [codeSegment, hq, heredocOpener?_eq_none]

theorem codeSegment_lineComment {c : Char} {rest : Text} (h : opensLineComment c rest.head?) :
    codeSegment c rest = (⟨.lineComment, c :: (untilLineCommentEnd rest).1⟩,
      (untilLineCommentEnd rest).2) := by
  have hc : c = '/' ∧ rest.head? = some '/' ∨ c = '#' := by
    simp only [opensLineComment, Bool.or_eq_true, Bool.and_eq_true, decide_eq_true_eq] at h
    exact h.imp_right And.left
  have hq : isQuote c = false := by
    rcases hc with ⟨rfl, _⟩ | rfl <;> decide
  have ho : heredocOpener? (c :: rest) = none :=
    heredocOpener?_eq_none (by rcases hc with ⟨rfl, _⟩ | rfl <;> decide) rest
  have hb : ¬ (c = '/' ∧ rest.head? = some '*') := by
    rintro ⟨rfl, hs⟩
    simp [hs] at hc
  have ht : ¬ (c = '?' ∧ rest.head? = some '>') := by
    rintro ⟨rfl, hs⟩
    simp at hc
  simp only [codeSegment, if_neg ht, hq, ho, if_neg hb, h, if_true]
  rfl

theorem codeSegment_close (text : Text) :
    codeSegment '?' ('>' :: text) = (⟨.closeTag, closeTag⟩, text) := rfl

theorem LineComment.opensLineComment {source after : Text} (h : LineComment source after)
    {c : Char} {rest : Text} (ht : c :: rest = source ++ after) :
    opensLineComment c rest.head? := by
  rcases h.opens with ⟨more, hs⟩ | ⟨⟨more, hs⟩, hn⟩
  · rw [← hs] at ht
    simp only [List.cons_append, List.nil_append, List.cons.injEq] at ht
    simp [Php.opensLineComment, ht.1, ht.2]
  · rw [← ht] at hn
    rw [← hs] at ht
    simp only [List.cons_append, List.nil_append, List.cons.injEq] at ht
    have hnext : rest.head? ≠ some '[' := by
      intro hr
      refine hn ⟨rest.tail, ?_⟩
      obtain ⟨t, rfl⟩ := List.head?_eq_some_iff.1 hr
      simp [ht.1]
    simp [Php.opensLineComment, ht.1, hnext]

theorem LineComment.untilLineCommentEnd {c : Char} {body after : Text}
    (h : LineComment (c :: body) after) :
    untilLineCommentEnd (body ++ after) = (body, after) := by
  refine untilLineCommentEnd_append_stop (fun hm => h.one_line (.tail _ hm)) (fun ht => ?_) h.ends
  exact h.in_code (List.infix_cons_iff.2 (.inr ht))

theorem lineComment_of_opens {c : Char} {rest : Text} (h : opensLineComment c rest.head?) :
    LineComment (c :: (untilLineCommentEnd rest).1) (untilLineCommentEnd rest).2 := by
  obtain ⟨hn, ht, hs⟩ := untilLineCommentEnd_spec rest
  have ha := untilLineCommentEnd_append rest
  simp only [Php.opensLineComment, Bool.or_eq_true, Bool.and_eq_true, decide_eq_true_eq,
    bne_iff_ne] at h
  have hc : c = '/' ∨ c = '#' := h.imp And.left And.left
  refine ⟨?_, ?_, ?_, hs⟩
  · rcases h with ⟨rfl, hr⟩ | ⟨rfl, hr⟩
    · obtain ⟨more, rfl⟩ := List.head?_eq_some_iff.1 hr
      exact .inl ⟨(Php.untilLineCommentEnd more).1, by simp [Php.untilLineCommentEnd]⟩
    · refine .inr ⟨⟨_, rfl⟩, ?_⟩
      rw [List.cons_append, ha]
      rintro ⟨more, hm⟩
      simp only [List.cons_append, List.nil_append, List.cons.injEq, true_and] at hm
      simp [← hm] at hr
  · rw [List.mem_cons, not_or]
    refine ⟨?_, hn⟩
    rintro rfl
    simp at hc
  · rw [List.infix_cons_iff, not_or]
    refine ⟨fun hp => ?_, ht⟩
    obtain ⟨rfl, _⟩ := closeTag_prefix_cons.1 hp
    simp at hc

theorem codeSegment_of_token {source left after : Text} (h : Token source left after)
    {c : Char} {rest : Text} (ht : c :: rest = source ++ after) :
    ∃ s : Segment, codeSegment c rest = (s, after) ∧ s.kind ≠ .closeTag ∧ s.kind ≠ .code ∧
      s.kept = left := by
  cases h with
  | @quoted quote body _ hq hb =>
    simp only [List.cons_append, List.append_assoc, List.nil_append, List.cons.injEq] at ht
    obtain ⟨rfl, rfl⟩ := ht
    rw [codeSegment_quoted hq, throughQuote_closed (quote_ne_backslash hq) hb]
    exact ⟨_, rfl, by simp, by simp, rfl⟩
  | @heredoc opener label body _ ho hb =>
    rw [List.append_assoc] at ht
    rw [codeSegment_heredoc ho ht, throughLabel_closed ho.isLabel hb]
    exact ⟨_, rfl, by simp, by simp, rfl⟩
  | @blockComment body _ hb =>
    simp only [List.cons_append, List.cons.injEq] at ht
    obtain ⟨rfl, rfl⟩ := ht
    rw [codeSegment_blockComment, throughBlockEnd_closed hb]
    refine ⟨_, rfl, by simp, by simp, ?_⟩
    simp [Segment.kept, blockEnd]
  | lineComment hl =>
    obtain ⟨body, rfl, rfl⟩ : ∃ body, source = c :: body ∧ rest = body ++ after := by
      cases source with
      | nil =>
        rcases hl.opens with ⟨_, hs⟩ | ⟨⟨_, hs⟩, _⟩ <;> simp at hs
      | cons d body =>
        simp only [List.cons_append, List.cons.injEq] at ht
        exact ⟨body, by rw [ht.1], ht.2⟩
    rw [codeSegment_lineComment (hl.opensLineComment ht), hl.untilLineCommentEnd]
    exact ⟨_, rfl, by simp, by simp, rfl⟩
  | @openQuoted quote body hq hb =>
    simp only [List.append_nil, List.cons.injEq] at ht
    obtain ⟨rfl, rfl⟩ := ht
    rw [codeSegment_quoted hq, throughQuote_open hb]
    exact ⟨_, rfl, by simp, by simp, rfl⟩
  | @openHeredoc opener label body ho hb =>
    rw [List.append_nil] at ht
    rw [codeSegment_heredoc ho ht, throughLabel_open ho.isLabel hb]
    exact ⟨_, rfl, by simp, by simp, rfl⟩
  | @openBlockComment body hb =>
    simp only [List.append_nil, List.cons.injEq] at ht
    obtain ⟨rfl, rfl⟩ := ht
    rw [codeSegment_blockComment, throughBlockEnd_open hb]
    exact ⟨_, rfl, by simp, by simp, by simp [Segment.kept]⟩

theorem token_of_codeSegment (c : Char) (rest : Text) :
    closeTag <+: c :: rest ∨ codeSegment c rest = (⟨.code, [c]⟩, rest) ∨
      Token (codeSegment c rest).1.source (codeSegment c rest).1.kept (codeSegment c rest).2 := by
  by_cases hclose : c = '?' ∧ rest.head? = some '>'
  · exact .inl (closeTag_prefix_cons.2 hclose)
  refine .inr ?_
  by_cases hq : isQuote c
  · rw [codeSegment_quoted hq]
    refine .inr ?_
    rcases quotedBody_cases c rest with ⟨body, after, hb, rfl⟩ | hb
    · rw [throughQuote_closed (quote_ne_backslash hq) hb]
      exact .quoted after hq hb
    · rw [throughQuote_open hb]
      exact .openQuoted hq hb
  cases ho : heredocOpener? (c :: rest) with
  | some p =>
    obtain ⟨opener, text⟩ := p
    have hopener := isHeredocOpener_of_heredocOpener? ho
    rw [codeSegment_heredoc hopener (heredocOpener?_append ho).symm]
    refine .inr ?_
    rcases heredocBody_cases hopener.isLabel text with ⟨body, after, hb, rfl⟩ | hb
    · rw [throughLabel_closed hopener.isLabel hb]
      exact .heredoc hopener hb
    · rw [throughLabel_open hopener.isLabel hb]
      exact .openHeredoc hopener hb
  | none =>
    by_cases hblock : c = '/' ∧ rest.head? = some '*'
    · obtain ⟨rfl, hr⟩ := hblock
      obtain ⟨text, rfl⟩ := List.head?_eq_some_iff.1 hr
      rw [codeSegment_blockComment]
      refine .inr ?_
      rcases blockEnd_cases text with ⟨body, after, hb, rfl⟩ | hb
      · rw [throughBlockEnd_closed hb]
        have := Token.blockComment after hb
        simpa [Segment.kept, blockEnd] using this
      · rw [throughBlockEnd_open hb]
        have := Token.openBlockComment hb
        simpa [Segment.kept] using this
    by_cases hline : opensLineComment c rest.head?
    · rw [codeSegment_lineComment hline]
      exact .inr (.lineComment (lineComment_of_opens hline))
    · refine .inl ?_
      simp only [codeSegment, if_neg hclose, hq, ho, if_neg hblock, hline]
      rfl

theorem codeSegment_plain {c : Char} {rest : Text} (hclose : ¬ closeTag <+: c :: rest)
    (h : ∀ source left after, Token source left after → c :: rest ≠ source ++ after) :
    codeSegment c rest = (⟨.code, [c]⟩, rest) := by
  rcases token_of_codeSegment c rest with ht | hs | ht
  · exact absurd ht hclose
  · exact hs
  · exact absurd (codeSegment_append c rest).symm (h _ _ _ ht)

/-- What is left, without comments, of a text that is read from within a PHP block or outside. -/
def keptFrom (inCode : Bool) (text : Text) : Text := (segmentsFrom inCode text).flatMap Segment.kept

theorem keptFrom_nil (inCode : Bool) : keptFrom inCode [] = [] := by
  simp [keptFrom, segmentsFrom]

theorem keptFrom_markup (text : Text) :
    keptFrom false text = (throughOpenTag text).1 ++ keptFrom true (throughOpenTag text).2 := by
  cases text with
  | nil => simp [keptFrom_nil, throughOpenTag]
  | cons c rest => simp [keptFrom, segmentsFrom, Segment.kept]

theorem keptFrom_close (text : Text) :
    keptFrom true (closeTag ++ text) = closeTag ++ keptFrom false text := by
  simp [keptFrom, closeTag, segmentsFrom, codeSegment_close, Segment.kept]

theorem keptFrom_code {c : Char} {rest after : Text} {s : Segment}
    (h : codeSegment c rest = (s, after)) (hs : s.kind ≠ .closeTag) :
    keptFrom true (c :: rest) = s.kept ++ keptFrom true after := by
  have hk : (s.kind != .closeTag) = true := bne_iff_ne.2 hs
  simp [keptFrom, segmentsFrom, h, hk]

theorem Token.eq_cons {source left after : Text} (h : Token source left after) :
    ∃ c rest, source = c :: rest := by
  cases h with
  | quoted => exact ⟨_, _, rfl⟩
  | heredoc ho _ =>
    obtain ⟨rest, rfl⟩ := ho.eq_cons
    exact ⟨_, _, rfl⟩
  | blockComment => exact ⟨_, _, rfl⟩
  | lineComment hl =>
    rcases hl.opens with ⟨rest, rfl⟩ | ⟨⟨rest, rfl⟩, _⟩
    · exact ⟨_, _, rfl⟩
    · exact ⟨_, _, rfl⟩
  | openQuoted => exact ⟨_, _, rfl⟩
  | openHeredoc ho _ =>
    obtain ⟨rest, rfl⟩ := ho.eq_cons
    exact ⟨_, _, rfl⟩
  | openBlockComment => exact ⟨_, _, rfl⟩

theorem Document.keptFrom_eq {inCode : Bool} {text kept : Text} (h : Document inCode text kept) :
    keptFrom inCode text = kept := by
  induction h with
  | markup hn => rw [keptFrom_markup, throughOpenTag_none hn, keptFrom_nil, List.append_nil]
  | block hn ht _ ih => rw [keptFrom_markup, throughOpenTag_some hn ht, ih]
  | finish => exact keptFrom_nil true
  | close _ ih => rw [keptFrom_close, ih]
  | @token source left text kept ht _ ih =>
    obtain ⟨c, rest, rfl⟩ := ht.eq_cons
    obtain ⟨s, hs, hclose, _, rfl⟩ :=
      codeSegment_of_token ht (show c :: (rest ++ text) = c :: rest ++ text from rfl)
    rw [List.cons_append, keptFrom_code hs hclose, ih]
  | plain hclose hn _ ih =>
    rw [keptFrom_code (codeSegment_plain hclose hn) (by simp), ih]
    rfl

/-- Every text is a document, and the scan keeps what the grammar keeps of it. -/
theorem document_keptFrom (inCode : Bool) (text : Text) :
    Document inCode text (keptFrom inCode text) := by
  -- By the length of the text: every segment holds a character, so what follows it is shorter.
  induction hn : text.length using Nat.strong_induction_on generalizing inCode text with
  | _ n ih =>
    subst hn
    cases inCode with
    | false =>
      rcases openTag_cases text with ⟨html, tag, after, h, ht, rfl⟩ | h
      · rw [keptFrom_markup, throughOpenTag_some h ht]
        refine .block h ht (ih _ ?_ true after rfl)
        cases ht <;> simp <;> omega
      · rw [keptFrom_markup, throughOpenTag_none h, keptFrom_nil, List.append_nil]
        exact .markup h
    | true =>
      cases text with
      | nil =>
        rw [keptFrom_nil]
        exact .finish
      | cons c rest =>
        have shorter := rest_shorter (codeSegment_append c rest) (codeSegment_ne_nil c rest)
        by_cases hclose : closeTag <+: c :: rest
        · obtain ⟨more, hm⟩ := hclose
          rw [← hm, keptFrom_close]
          refine .close (ih _ ?_ false more rfl)
          rw [← hm, List.length_append]
          exact Nat.lt_add_of_pos_left (by decide)
        rcases token_of_codeSegment c rest with hc | hs | ht
        · exact absurd hc hclose
        · rw [keptFrom_code hs (by simp)]
          refine .plain hclose (fun source left after ht he => ?_)
            (ih _ (Nat.lt_succ_self _) true rest rfl)
          obtain ⟨s, hs', _, hk, _⟩ := codeSegment_of_token ht he
          rw [hs'] at hs
          cases hs
          exact hk rfl
        · obtain ⟨s, hs, hk, _, _⟩ := codeSegment_of_token ht (codeSegment_append c rest).symm
          have hd := ih _ shorter true _ rfl
          rw [keptFrom_code hs hk]
          rw [hs] at ht hd
          have := Document.token ht hd
          rwa [show s.source ++ (codeSegment c rest).2 = c :: rest by
            rw [← codeSegment_append c rest, hs]] at this

/-- Taking the comments out of a text keeps what the grammar of documents keeps of it, and every
text is a document in one way as far as that goes. -/
theorem document_iff_withoutComments (text kept : Text) :
    Document false text kept ↔ withoutComments text = kept := by
  constructor
  · exact fun h => h.keptFrom_eq
  · rintro rfl
    exact document_keptFrom false text

end CommitGate.Php
