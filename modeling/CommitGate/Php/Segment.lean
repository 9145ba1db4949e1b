import CommitGate.Php.Heredoc
import CommitGate.Php.Quote

/-!
A PHP document as a row of segments, and the document without its comments. Outside the PHP blocks
everything is markup, up to and including the next open tag. Inside, strings and heredocs hide
whatever looks like a comment, a line comment ends before its line feed or before the close tag, and
an attribute, which starts with `#[`, is code. The segments in order spell the document.
-/

namespace CommitGate.Php

inductive Segment.Kind where
  | markup
  | quoted
  | heredoc
  | blockComment
  | lineComment
  | closeTag
  | code
  deriving DecidableEq, Repr

structure Segment where
  kind : Segment.Kind
  source : Text
  deriving DecidableEq, Repr

/-- What is left of a segment without comments. A block comment leaves its line feeds, so the lines
after it keep their numbers. -/
def Segment.kept (s : Segment) : Text :=
  match s.kind with
  | .blockComment => s.source.filter (· = '\n')
  | .lineComment => []
  | _ => s.source

/-- The length of an open tag at the front of a text: `<?=`, or `<?php` in any case as a word. -/
def openTag? : Text → Option Nat
  | '<' :: '?' :: '=' :: _ => some 3
  | '<' :: '?' :: a :: b :: c :: rest =>
    if [a, b, c].map Char.toLower = ['p', 'h', 'p'] ∧ !Text.isWord? rest.head? then some 5 else none
  | _ => none

def throughOpenTag : Text → Text × Text
  | [] => ([], [])
  | c :: rest =>
    match openTag? (c :: rest) with
    | some n => (c :: rest).splitAt n
    | none =>
      let r := throughOpenTag rest
      (c :: r.1, r.2)

def throughBlockEnd : Text → Text × Text
  | [] => ([], [])
  | '*' :: '/' :: rest => (['*', '/'], rest)
  | c :: rest =>
    let r := throughBlockEnd rest
    (c :: r.1, r.2)

def untilLineCommentEnd : Text → Text × Text
  | [] => ([], [])
  | c :: rest =>
    if c = '\n' ∨ c = '?' ∧ rest.head? = some '>' then ([], c :: rest)
    else
      let r := untilLineCommentEnd rest
      (c :: r.1, r.2)

def opensLineComment (c : Char) (next : Option Char) : Bool :=
  (c = '/' && next = some '/') || (c = '#' && next != some '[')

def codeSegment (c : Char) (rest : Text) : Segment × Text :=
  if c = '?' ∧ rest.head? = some '>' then (⟨.closeTag, c :: rest.take 1⟩, rest.drop 1)
  else if isQuote c then
    let r := throughQuote c rest
    (⟨.quoted, c :: r.1⟩, r.2)
  else match heredocOpener? (c :: rest) with
    | some (opener, body) =>
      let r := throughLabel opener.label true body
      (⟨.heredoc, opener.source ++ r.1⟩, r.2)
    | none =>
      if c = '/' ∧ rest.head? = some '*' then
        let r := throughBlockEnd (rest.drop 1)
        (⟨.blockComment, c :: rest.take 1 ++ r.1⟩, r.2)
      else if opensLineComment c rest.head? then
        let r := untilLineCommentEnd rest
        (⟨.lineComment, c :: r.1⟩, r.2)
      else (⟨.code, [c]⟩, rest)

theorem throughOpenTag_append (text : Text) :
    (throughOpenTag text).1 ++ (throughOpenTag text).2 = text := by
  fun_induction throughOpenTag text with
  | case1 => rfl
  | case2 => simp [List.splitAt_eq]
  | case3 c _ _ _ ih => exact congrArg (c :: ·) ih

theorem throughBlockEnd_append (text : Text) :
    (throughBlockEnd text).1 ++ (throughBlockEnd text).2 = text := by
  fun_induction throughBlockEnd text with
  | case1 => rfl
  | case2 => rfl
  | case3 c _ _ _ ih => exact congrArg (c :: ·) ih

theorem untilLineCommentEnd_append (text : Text) :
    (untilLineCommentEnd text).1 ++ (untilLineCommentEnd text).2 = text := by
  fun_induction untilLineCommentEnd text with
  | case1 => rfl
  | case2 => rfl
  | case3 c _ _ _ ih => exact congrArg (c :: ·) ih

theorem codeSegment_append (c : Char) (rest : Text) :
    (codeSegment c rest).1.source ++ (codeSegment c rest).2 = c :: rest := by
  rw [codeSegment]
  split
  · simp [-List.drop_one]
  split
  · simp [throughQuote_append]
  split
  · rename_i h
    simp [throughLabel_append, heredocOpener?_append h]
  split
  · simp [throughBlockEnd_append, -List.drop_one]
  split
  · simp [untilLineCommentEnd_append]
  · rfl

theorem openTag?_pos {text : Text} {n : Nat} (h : openTag? text = some n) : 0 < n := by
  unfold openTag? at h
  split at h
  · cases h; decide
  · split at h
    · cases h; decide
    · cases h
  · cases h

theorem throughOpenTag_ne_nil (c : Char) (rest : Text) : (throughOpenTag (c :: rest)).1 ≠ [] := by
  rw [throughOpenTag]
  split
  · rename_i n h
    have := openTag?_pos h
    cases n with
    | zero => omega
    | succ n => simp [List.splitAt_eq]
  · simp

theorem codeSegment_ne_nil (c : Char) (rest : Text) : (codeSegment c rest).1.source ≠ [] := by
  rw [codeSegment]
  split
  · simp
  split
  · simp
  split
  · rename_i h
    simp [heredocOpener?_ne_nil h]
  split
  · simp
  split <;> simp

theorem rest_shorter {taken rest text : Text} (h : taken ++ rest = text) (hne : taken ≠ []) :
    rest.length < text.length := by
  have := List.length_pos_iff.2 hne
  rw [← h, List.length_append]
  omega

/-- The segments of a text, from within a PHP block or from outside one. -/
def segmentsFrom (inCode : Bool) (text : Text) : List Segment :=
  match text with
  | [] => []
  | c :: rest =>
    if inCode then
      let s := codeSegment c rest
      s.1 :: segmentsFrom (s.1.kind != .closeTag) s.2
    else
      let s := throughOpenTag (c :: rest)
      ⟨.markup, s.1⟩ :: segmentsFrom true s.2
termination_by text.length
decreasing_by
  · exact rest_shorter (codeSegment_append _ _) (codeSegment_ne_nil _ _)
  · exact rest_shorter (throughOpenTag_append _) (throughOpenTag_ne_nil _ _)

def segments (document : Text) : List Segment := segmentsFrom false document

theorem flatMap_source_segmentsFrom (inCode : Bool) (text : Text) :
    (segmentsFrom inCode text).flatMap Segment.source = text := by
  fun_induction segmentsFrom inCode text with
  | case1 => rfl
  | case2 c rest s ih => rw [List.flatMap_cons, ih, codeSegment_append]
  | case3 _ c rest _ s ih => rw [List.flatMap_cons, ih, throughOpenTag_append]

theorem flatMap_source_segments (document : Text) :
    (segments document).flatMap Segment.source = document :=
  flatMap_source_segmentsFrom false document

def withoutComments (document : Text) : Text := (segments document).flatMap Segment.kept

end CommitGate.Php
