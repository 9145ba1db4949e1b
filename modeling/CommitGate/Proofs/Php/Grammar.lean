import CommitGate.Php.Segment

/-! The lexical grammar of a PHP document, stated without a scan, and what it keeps of a document
whose comments are taken out. Every piece is judged together with the text after it, so a piece
cannot stop short of where the language lets it end. -/
namespace CommitGate.Php

/-- What stands between the quotes of a string: backslashes, each with the character that it takes
along, and characters that are neither a backslash nor the quote. -/
inductive QuotedBody (quote : Char) : Text → Prop where
  | nil : QuotedBody quote []
  | escape (c : Char) {body : Text} : QuotedBody quote body → QuotedBody quote ('\\' :: c :: body)
  | plain {c : Char} {body : Text} : c ≠ quote → c ≠ '\\' → QuotedBody quote body →
      QuotedBody quote (c :: body)

/-- The rest of a text behind a quote that nothing closes. Its last backslash may stand alone. -/
def OpenQuotedBody (quote : Char) (text : Text) : Prop :=
  QuotedBody quote text ∨ ∃ body, QuotedBody quote body ∧ text = body ++ ['\\']

inductive OpenTag : Text → Text → Prop where
  | echo (after : Text) : OpenTag ['<', '?', '='] after
  | php {word after : Text} : word.map Char.toLower = ['p', 'h', 'p'] →
      Text.atBoundary word.getLast? after.head? → OpenTag ('<' :: '?' :: word) after

def HoldsNoOpenTag (html after : Text) : Prop :=
  ∀ before here, html = before ++ here → here ≠ [] →
    ∀ tag rest, here ++ after = tag ++ rest → ¬ OpenTag tag rest

inductive IsHeredocOpener : Text → Text → Prop where
  | opener {indent quote others eol : Text} {first : Char} :
      (∀ c ∈ indent, isIndent c) → quote ∈ [[], ['\''], ['"']] →
      isLabelStart first → (∀ c ∈ others, Text.isWord c) → eol ∈ [['\n'], ['\r', '\n']] →
      IsHeredocOpener (['<', '<', '<'] ++ indent ++ quote ++ (first :: others) ++ quote ++ eol)
        (first :: others)

/-- Between `before` and `after` a label closes a heredoc: it starts a line, blanks apart, and no
word character follows. The front of the text counts as a line start if `atLineStart`. -/
def ClosesHeredoc (atLineStart : Bool) (before after : Text) : Prop :=
  (∃ lines indent, before = lines ++ indent ∧ (∀ c ∈ indent, isIndent c) ∧
    (lines = [] ∧ atLineStart ∨ lines.getLast? = some '\n')) ∧ Text.isWord? after.head? = false

def HeredocBody (label body after : Text) : Prop :=
  ∃ before, body = before ++ label ∧ ClosesHeredoc true before after ∧
    ∀ before' after', body ++ after = before' ++ label ++ after' →
      ClosesHeredoc true before' after' → before.length ≤ before'.length

def OpenHeredocBody (label text : Text) : Prop :=
  ∀ before after, text = before ++ label ++ after → ¬ ClosesHeredoc true before after

def blockEnd : Text := ['*', '/']

def closeTag : Text := ['?', '>']

structure LineComment (source after : Text) : Prop where
  opens : ['/', '/'] <+: source ∨ (['#'] <+: source ∧ ¬ ['#', '['] <+: source ++ after)
  one_line : '\n' ∉ source
  in_code : ¬ closeTag <:+: source
  ends : after = [] ∨ ['\n'] <+: after ∨ closeTag <+: after

/-- `Token source kept after`: a piece of code that hides what it holds stands before `after`, and
without comments `kept` is left of it. The last three run to the end of the text. -/
inductive Token : Text → Text → Text → Prop where
  | quoted {quote : Char} {body : Text} (after : Text) : isQuote quote → QuotedBody quote body →
      Token (quote :: (body ++ [quote])) (quote :: (body ++ [quote])) after
  | heredoc {opener label body after : Text} : IsHeredocOpener opener label →
      HeredocBody label body after → Token (opener ++ body) (opener ++ body) after
  | blockComment {body : Text} (after : Text) : ¬ blockEnd <:+: body →
      Token ('/' :: '*' :: (body ++ blockEnd)) (body.filter (· = '\n')) after
  | lineComment {source after : Text} : LineComment source after → Token source [] after
  | openQuoted {quote : Char} {body : Text} : isQuote quote → OpenQuotedBody quote body →
      Token (quote :: body) (quote :: body) []
  | openHeredoc {opener label body : Text} : IsHeredocOpener opener label →
      OpenHeredocBody label body → Token (opener ++ body) (opener ++ body) []
  | openBlockComment {body : Text} : ¬ blockEnd <:+: body →
      Token ('/' :: '*' :: body) (body.filter (· = '\n')) []

/-- `Document inCode text kept`: the text is a document, or the rest of one from within a PHP block,
and without comments `kept` is left of it. -/
inductive Document : Bool → Text → Text → Prop where
  | markup {html : Text} : HoldsNoOpenTag html [] → Document false html html
  | block {html tag text kept : Text} : HoldsNoOpenTag html (tag ++ text) → OpenTag tag text →
      Document true text kept → Document false (html ++ tag ++ text) (html ++ tag ++ kept)
  | finish : Document true [] []
  | close {text kept : Text} : Document false text kept →
      Document true (closeTag ++ text) (closeTag ++ kept)
  | token {source left text kept : Text} : Token source left text → Document true text kept →
      Document true (source ++ text) (left ++ kept)
  | plain {c : Char} {text kept : Text} : ¬ closeTag <+: c :: text →
      (∀ source left rest, Token source left rest → c :: text ≠ source ++ rest) →
      Document true text kept → Document true (c :: text) (c :: kept)

end CommitGate.Php
