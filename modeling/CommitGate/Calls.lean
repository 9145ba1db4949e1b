import CommitGate.Text.Line
import CommitGate.Text.Word

/-!
Calls to listed names. A call is one of the names, taken literally, with an opening parenthesis
right behind it and a word boundary right before it; so a longer identifier that ends in a listed
name is none. Matches are found from left to right without overlap.
-/

namespace CommitGate.Calls

/-- Where a match starts, and where the text goes on after it. -/
structure Span where
  start : Nat
  stop : Nat
  deriving DecidableEq, Repr

/-- A line, numbered from one, that holds a call. -/
structure Hit where
  number : Nat
  line : Text
  deriving DecidableEq, Repr

/-- No name at all stands for one empty name, which calls any parenthesis at a boundary. -/
def alternatives (names : List Text) : List Text := if names.isEmpty then [[]] else names

def callAt? (names : List Text) (before : Option Char) (text : Text) : Option Nat :=
  if Text.atBoundary before text.head? then
    ((alternatives names).find? fun name => (name ++ ['(']).isPrefixOf text).map (·.length + 1)
  else none

/-- `pending` counts the characters that still belong to the match before. -/
def spansFrom (names : List Text) (offset : Nat) (before : Option Char) : Nat → Text → List Span
  | _, [] => []
  | pending + 1, c :: rest => spansFrom names (offset + 1) (some c) pending rest
  | 0, c :: rest =>
    match callAt? names before (c :: rest) with
    | some n => ⟨offset, offset + n⟩ :: spansFrom names (offset + 1) (some c) (n - 1) rest
    | none => spansFrom names (offset + 1) (some c) 0 rest

def spans (names : List Text) (text : Text) : List Span := spansFrom names 0 none 0 text

def occurIn (names : List Text) (text : Text) : Bool := !(spans names text).isEmpty

def numberedLines (text : Text) : List Hit :=
  ((Text.lines text).zipIdx 1).map fun (line, number) => ⟨number, line⟩

def find (names : List Text) (text : Text) : List Hit :=
  (numberedLines text).filter fun h => occurIn names h.line

end CommitGate.Calls
