import CommitGate.Text.Basic

/-!
Quoted strings. A backslash takes the character after it into the string, whatever it is; a string
without its closing quote runs to the end of the text.
-/

namespace CommitGate.Php

def isQuote (c : Char) : Bool := c = '\'' || c = '"' || c = '\x60'

def throughQuote (quote : Char) : Text → Text × Text
  | [] => ([], [])
  | [c] => ([c], [])
  | c :: d :: rest =>
    if c = '\\' then
      let r := throughQuote quote rest
      (c :: d :: r.1, r.2)
    else if c = quote then ([c], d :: rest)
    else
      let r := throughQuote quote (d :: rest)
      (c :: r.1, r.2)

theorem throughQuote_append (quote : Char) (text : Text) :
    (throughQuote quote text).1 ++ (throughQuote quote text).2 = text := by
  fun_induction throughQuote quote text with
  | case1 => rfl
  | case2 c => rfl
  | case3 d rest _ ih => exact congrArg (fun t => '\\' :: d :: t) ih
  | case4 => rfl
  | case5 c d rest _ _ _ ih => exact congrArg (c :: ·) ih

/-- The offset behind the string whose opening quote stands at `start`, if anything stands there. -/
def stringEnd? (text : Text) (start : Nat) : Option Nat :=
  match text.drop start with
  | [] => none
  | quote :: rest => some (start + 1 + (throughQuote quote rest).1.length)

end CommitGate.Php
