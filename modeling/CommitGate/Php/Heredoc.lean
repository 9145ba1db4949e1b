import CommitGate.Text.Word

/-!
Heredocs. The opener is `<<<`, blanks, and a label, bare or between quotes, that ends its line. The
body runs through the first line that starts, after spaces and tabs, with the label as a word of its
own; without such a line it runs to the end of the text.
-/

namespace CommitGate.Php

def isIndent (c : Char) : Bool := c = ' ' || c = '\t'

/-- The labels' first characters are ASCII, unlike the later ones. -/
def isLabelStart (c : Char) : Bool := c.isAlpha || c = '_'

structure HeredocOpener where
  source : Text
  label : Text

def labelQuote : Text → Text × Text
  | '\'' :: rest => (['\''], rest)
  | '"' :: rest => (['"'], rest)
  | text => ([], text)

def lineEnd? : Text → Option (Text × Text)
  | '\n' :: rest => some (['\n'], rest)
  | '\r' :: '\n' :: rest => some (['\r', '\n'], rest)
  | _ => none

def label? (text : Text) : Option (Text × Text) :=
  if text.head?.any isLabelStart then some (text.takeWhile Text.isWord, text.dropWhile Text.isWord)
  else none

def closeQuote? (quote text : Text) : Option Text :=
  if quote.isPrefixOf text then some (text.drop quote.length) else none

def heredocOpener? (text : Text) : Option (HeredocOpener × Text) :=
  match text with
  | '<' :: '<' :: '<' :: rest =>
    let indent := rest.takeWhile isIndent
    let q := labelQuote (rest.dropWhile isIndent)
    match label? q.2 with
    | none => none
    | some (label, afterLabel) =>
      match closeQuote? q.1 afterLabel with
      | none => none
      | some afterQuote =>
        match lineEnd? afterQuote with
        | none => none
        | some (eol, body) =>
          some (⟨['<', '<', '<'] ++ indent ++ q.1 ++ label ++ q.1 ++ eol, label⟩, body)
  | _ => none

/-- Whether the label stands `indent` characters into the text and no word character follows. -/
def labelStandsAt (label text : Text) (indent : Nat) : Bool :=
  label.isPrefixOf (text.drop indent) &&
    Text.atBoundary label.getLast? (text.drop (indent + label.length)).head?

/-- How far the closing label at the front of a line reaches. The longest indent is tried first,
which matters only for a label that itself starts with a blank or is empty. -/
def closingLabel? (label line : Text) : Option Nat :=
  let longest := (line.takeWhile isIndent).length
  ((List.range (longest + 1)).reverse.find? (labelStandsAt label line)).map (· + label.length)

/-- Splits a heredoc's body behind its closing label. `lineStart` says whether the text starts a
line. -/
def throughLabel (label : Text) : Bool → Text → Text × Text
  | _, [] => ([], [])
  | lineStart, c :: rest =>
    match if lineStart then closingLabel? label (c :: rest) else none with
    | some n => (c :: rest).splitAt n
    | none =>
      let r := throughLabel label (c == '\n') rest
      (c :: r.1, r.2)

theorem throughLabel_append (label : Text) (lineStart : Bool) (text : Text) :
    (throughLabel label lineStart text).1 ++ (throughLabel label lineStart text).2 = text := by
  fun_induction throughLabel label lineStart text with
  | case1 => rfl
  | case2 => simp [List.splitAt_eq]
  | case3 _ c _ _ _ ih => exact congrArg (c :: ·) ih

theorem labelQuote_append (text : Text) : (labelQuote text).1 ++ (labelQuote text).2 = text := by
  unfold labelQuote
  split <;> rfl

theorem lineEnd?_append {text eol rest : Text} (h : lineEnd? text = some (eol, rest)) :
    eol ++ rest = text := by
  unfold lineEnd? at h
  split at h <;> simp_all
  · obtain ⟨rfl, rfl⟩ := h; rfl
  · obtain ⟨rfl, rfl⟩ := h; rfl

theorem label?_append {text label rest : Text} (h : label? text = some (label, rest)) :
    label ++ rest = text := by
  rw [label?] at h
  split at h
  · simp only [Option.some.injEq, Prod.mk.injEq] at h
    rw [← h.1, ← h.2, List.takeWhile_append_dropWhile]
  · cases h

theorem closeQuote?_append {quote text rest : Text} (h : closeQuote? quote text = some rest) :
    quote ++ rest = text := by
  rw [closeQuote?] at h
  split at h
  · rename_i hq
    obtain ⟨t, rfl⟩ := List.isPrefixOf_iff_prefix.1 hq
    simp_all
  · cases h

theorem heredocOpener?_append {text body : Text} {o : HeredocOpener}
    (h : heredocOpener? text = some (o, body)) : o.source ++ body = text := by
  unfold heredocOpener? at h
  split at h
  · rename_i rest
    dsimp only at h
    split at h
    · cases h
    rename_i label afterLabel hl
    split at h
    · cases h
    rename_i afterQuote hq
    split at h
    · cases h
    rename_i eol body' he
    simp only [Option.some.injEq, Prod.mk.injEq] at h
    obtain ⟨rfl, rfl⟩ := h
    simp [lineEnd?_append he, closeQuote?_append hq, label?_append hl, labelQuote_append,
      List.takeWhile_append_dropWhile]
  · cases h

theorem heredocOpener?_ne_nil {text body : Text} {o : HeredocOpener}
    (h : heredocOpener? text = some (o, body)) : o.source ≠ [] := by
  unfold heredocOpener? at h
  split at h
  · dsimp only at h
    split at h
    · cases h
    split at h
    · cases h
    split at h
    · cases h
    cases h
    simp
  · cases h

/-- The offset behind the closing label of the body at `start`. A line starts at the front of the
text and after each line feed, so a body in mid-line finds its label on a later line. -/
def heredocEnd (text : Text) (start : Nat) (label : Text) : Nat :=
  let start := min start text.length
  let lineStart := start = 0 || text[start - 1]? = some '\n'
  start + (throughLabel label lineStart (text.drop start)).1.length

end CommitGate.Php
