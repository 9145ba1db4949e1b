import CommitGate.Dialogue
import CommitGate.Proofs.CallLines
import CommitGate.Proofs.Check
import CommitGate.Proofs.ContextRows
import CommitGate.Proofs.Php.Document

/-! The check of a PHP copy without a linter, which goes by the scan of the document while its report goes
by the simple reading of line comments. In a block where nothing but `//` hides code the two leave the same
text, so that what is found is shown. -/
namespace CommitGate

namespace Php

/-- A text in which `//` is all that can hide code. -/
structure SlashCommentsOnly (text : Text) : Prop where
  no_quote : ∀ c ∈ text, ¬isQuote c
  no_hash : '#' ∉ text
  no_block_comment : ¬['/', '*'] <:+: text
  no_heredoc : ¬['<', '<', '<'] <:+: text
  no_close_tag : ¬closeTag <:+: text

variable {source left text kept tag after opener label : Text}

theorem SlashCommentsOnly.of_suffix (h : SlashCommentsOnly text) (hsuffix : after <:+ text) :
    SlashCommentsOnly after where
  no_quote c hc := h.no_quote c (hsuffix.subset hc)
  no_hash hm := h.no_hash (hsuffix.subset hm)
  no_block_comment hi := h.no_block_comment (hi.trans hsuffix.isInfix)
  no_heredoc hi := h.no_heredoc (hi.trans hsuffix.isInfix)
  no_close_tag hi := h.no_close_tag (hi.trans hsuffix.isInfix)

theorem IsHeredocOpener.starts (h : IsHeredocOpener opener label) : ['<', '<', '<'] <+: opener := by
  cases h
  simp only [List.append_assoc]
  exact List.prefix_append _ _

theorem SlashCommentsOnly.lineComment (h : SlashCommentsOnly (source ++ after))
    (htoken : Token source left after) : left = [] ∧ LineComment source after := by
  have hstart : ∀ {mark : Text}, ¬mark <:+: source ++ after → ¬mark <+: source :=
    fun hno hmark => hno (hmark.trans (List.prefix_append _ _)).isInfix
  have hquote : ∀ {c : Char} {rest : Text}, source = c :: rest → ¬isQuote c := by
    rintro c rest rfl
    exact h.no_quote c List.mem_cons_self
  cases htoken with
  | quoted _ hq _ => exact absurd hq (hquote rfl)
  | heredoc hopener _ =>
    exact absurd (hopener.starts.trans (List.prefix_append _ _)) (hstart h.no_heredoc)
  | blockComment => exact absurd ⟨_, rfl⟩ (hstart h.no_block_comment)
  | lineComment hcomment => exact ⟨rfl, hcomment⟩
  | openQuoted hq _ => exact absurd hq (hquote rfl)
  | openHeredoc hopener _ =>
    exact absurd (hopener.starts.trans (List.prefix_append _ _)) (hstart h.no_heredoc)
  | openBlockComment => exact absurd ⟨_, rfl⟩ (hstart h.no_block_comment)

theorem LineComment.strip_append (hcomment : LineComment source after)
    (h : SlashCommentsOnly (source ++ after)) :
    CommitGate.LineComment.strip (source ++ after) = CommitGate.LineComment.strip after := by
  refine CommitGate.LineComment.strip_comment ?_ hcomment.one_line ?_
  · refine hcomment.opens.resolve_right fun hhash => h.no_hash ?_
    exact List.mem_append_left _ (hhash.1.subset (List.mem_singleton_self '#'))
  · rcases hcomment.ends with hnil | hline | hclose
    · exact .inl hnil
    · exact .inr hline
    · exact absurd (hclose.isInfix.trans (List.suffix_append _ _).isInfix) h.no_close_tag

/-- Where only `//` hides code, a document keeps from within a block what the simple reading keeps. -/
theorem Document.kept_eq_strip {inCode : Bool} (h : Document inCode text kept) (hcode : inCode = true)
    (honly : SlashCommentsOnly text) : kept = CommitGate.LineComment.strip text := by
  induction h with
  | markup => cases hcode
  | block => cases hcode
  | finish => rfl
  | close => exact absurd (List.prefix_append closeTag _).isInfix honly.no_close_tag
  | token htoken _ ih =>
    obtain ⟨rfl, hcomment⟩ := honly.lineComment htoken
    rw [hcomment.strip_append honly, ← ih rfl (honly.of_suffix (List.suffix_append _ _))]
    rfl
  | @plain c rest kept _ hno _ ih =>
    have hslash : ¬(c = '/' ∧ rest.head? = some '/') := by
      rintro ⟨rfl, hnext⟩
      have hopens : opensLineComment '/' rest.head? := by
        rw [hnext]
        rfl
      apply hno _ _ _ (.lineComment (lineComment_of_opens hopens))
      rw [List.cons_append, untilLineCommentEnd_append]
    rw [CommitGate.LineComment.strip_cons hslash, ← ih rfl (honly.of_suffix (List.suffix_cons c rest))]

theorem OpenTag.slash_not_mem (h : OpenTag tag text) : '/' ∉ tag := by
  cases h with
  | echo => decide
  | @php word _ hword _ =>
    intro hslash
    have hmem : '/' ∈ word := by simpa using hslash
    have hlower : Char.toLower '/' ∈ word.map Char.toLower := List.mem_map_of_mem hmem
    rw [hword] at hlower
    exact absurd hlower (by decide)

theorem withoutComments_eq_strip (hopen : OpenTag tag text) (h : SlashCommentsOnly (tag ++ text)) :
    withoutComments (tag ++ text) = CommitGate.LineComment.strip (tag ++ text) := by
  have hcode := document_keptFrom true text
  have hdocument : Document false (tag ++ text) (tag ++ keptFrom true text) :=
    .block (holdsNoOpenTag_nil _) hopen hcode
  rw [CommitGate.LineComment.strip_append hopen.slash_not_mem,
    ← hcode.kept_eq_strip rfl (h.of_suffix (List.suffix_append tag text))]
  exact hdocument.keptFrom_eq

end Php

namespace Context

def ShowsHit (context : Text) : Prop :=
  ∃ rows ∈ readRows context, ∃ e ∈ entries rows, e.separator = ':'

instance (context : Text) : Decidable (ShowsHit context) :=
  inferInstanceAs (Decidable (∃ rows ∈ readRows context, ∃ e ∈ entries rows, _))

theorem showsHit_iff (names : List Text) (text : Text) :
    ShowsHit (ofCalls names text) ↔ Calls.find names text ≠ [] := by
  obtain ⟨rows, hread, hshows⟩ := exists_shows_calls names text
  constructor
  · rintro ⟨rows', hread', e, he, hcolon⟩
    obtain rfl := Option.some.inj (hread.symm.trans hread')
    have hhit := ((hshows.colon_iff (by decide) e.number).mp ⟨e, he, rfl, hcolon⟩).2.2
    intro hnone
    rw [hitsOf, hnone] at hhit
    cases hhit
  · intro hne
    obtain ⟨hit, hmem⟩ := List.exists_mem_of_ne_nil _ hne
    obtain ⟨e, he, _, hcolon⟩ := hshows.exists_colon hmem
    exact ⟨rows, hread, e, he, hcolon⟩

end Context

namespace Check

open Session

def shownLines (text : Text) : Text := Context.ofCalls phpDebugFunctions (LineComment.strip text)

theorem divides_phpDebugFunctions : Calls.Divides phpDebugFunctions '\n' :=
  Calls.divides_of (by decide +kernel) (by decide) (by decide +kernel)

variable {tag rest : Text}

theorem hasDebugCall_iff_showsHit (hopen : Php.OpenTag tag rest)
    (h : Php.SlashCommentsOnly (tag ++ rest)) :
    hasDebugCall none (tag ++ rest) ↔ Context.ShowsHit (shownLines (tag ++ rest)) := by
  rw [shownLines, Context.showsHit_iff, ← Calls.occurIn_iff_find_ne_nil divides_phpDebugFunctions,
    ← Php.withoutComments_eq_strip hopen h]
  rfl

/-- In a block where only `//` hides code, the scan of a document and the simple reading of line comments
leave the same text. So a check without a linter reports the file exactly if the lines of the report show a
call, and then asks for an abort. -/
theorem fallback_agrees_with_report (hopen : Php.OpenTag tag rest)
    (h : Php.SlashCommentsOnly (tag ++ rest)) :
    Php.withoutComments (tag ++ rest) = LineComment.strip (tag ++ rest) ∧
      ∀ (programs : Programs) (linter : Linter) (path : Text) (copy : Path) (content : Bytes)
        (s : Session), s.tree.read copy.toText = .ok content → Utf8.readLossy content = tag ++ rest →
        Linter.strippedBy (s.moment.ask programs (linter.stripCommand copy)).1 = .ok none →
        (ending (php programs linter path copy s)).findings.debugReports =
            s.findings.debugReports ++
              (if Context.ShowsHit (shownLines (tag ++ rest)) then
                [Report.debugBlock (shownLines (tag ++ rest)) "PHP".toList path] else []) ∧
          (Context.ShowsHit (shownLines (tag ++ rest)) →
            (ending (php programs linter path copy s)).findings.abortRequested) := by
  refine ⟨Php.withoutComments_eq_strip hopen h, ?_⟩
  intro programs linter path copy content s hread htext hstrip
  obtain ⟨hreports, habort⟩ := php_searched path hread hstrip
  rw [htext, withCalls] at hreports habort
  simp only [hasDebugCall_iff_showsHit hopen h] at hreports habort
  constructor
  · rw [hreports]
    split
    · rfl
    · exact (List.append_nil _).symm
  · intro hhit
    apply habort
    rw [if_pos hhit]
    rfl

def phpSession (source : Text) : Session :=
  { Dialogue.start with
    tree := FileTree.empty.place ["c.php".toList] (.file (Utf8.encode source))
      (by decide) (by decide) }

def noPrograms : Programs := .placing fun _ _ => .notStarted ⟨.notFound, []⟩

def commentedBlock : Text := "<?php".toList ++ " dpm(1); // dpm(2)\nf(4 / 2);\n".toList

/-- The call is found and shown, without the one in the comment behind it. -/
theorem fallback_agrees_on_trailing_comment :
    Php.withoutComments commentedBlock = "<?php dpm(1); \nf(4 / 2);\n".toList ∧
      (ending (php noPrograms ⟨Linter.defaultProgram⟩ "a.php".toList (Path.ofText "c.php".toList)
          (phpSession commentedBlock))).findings.debugReports =
        [Report.debugBlock "1:<?php dpm(1); \n2-f(4 / 2);".toList "PHP".toList "a.php".toList] := by
  have hopen : Php.OpenTag "<?php".toList " dpm(1); // dpm(2)\nf(4 / 2);\n".toList :=
    .php (by decide +kernel) (by decide +kernel)
  have honly : Php.SlashCommentsOnly commentedBlock := by
    refine ⟨List.any_eq_false.mp ?_, ?_, ?_, ?_, ?_⟩ <;> decide +kernel
  obtain ⟨hkept, hcheck⟩ := fallback_agrees_with_report hopen honly
  obtain ⟨hreports, _⟩ := hcheck noPrograms ⟨Linter.defaultProgram⟩ "a.php".toList
    (Path.ofText "c.php".toList) (Utf8.encode commentedBlock) (phpSession commentedBlock) rfl
    (by decide +kernel) rfl
  exact ⟨hkept.trans (by decide +kernel), hreports.trans (by decide +kernel)⟩

end Check

end CommitGate
