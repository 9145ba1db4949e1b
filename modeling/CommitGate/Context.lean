import CommitGate.Calls

/-!
Matching lines among their neighbours. A matching line reads `12:code`, a neighbour `11-code`, and
`--` stands between groups of lines that do not adjoin.
-/

namespace CommitGate.Context

def width : Nat := 2

/-- Whether line `n` lies within `width` of a hit. Hits may lie outside the text. -/
def isShown (hits : List Int) (width : Int) (n : Nat) : Bool :=
  hits.any fun h => h - width ≤ n && n ≤ h + width

def entry (hits : List Int) (h : Calls.Hit) : Text :=
  Text.ofNat h.number ++ (if hits.contains (h.number : Int) then ':' else '-') :: h.line

/-- The entries of the shown lines, with a mark wherever the numbering jumps. -/
def entriesAfter (hits : List Int) : Option Nat → List Calls.Hit → List Text
  | _, [] => []
  | previous, h :: more =>
    (if previous.any (· + 1 != h.number) then [['-', '-']] else []) ++
      entry hits h :: entriesAfter hits (some h.number) more

def render (text : Text) (hits : List Int) (width : Int) : Text :=
  Text.unlines (entriesAfter hits none
    ((Calls.numberedLines text).filter fun h => isShown hits width h.number))

def ofCalls (names : List Text) (text : Text) : Text :=
  render text ((Calls.find names text).map fun h => (h.number : Int)) width

end CommitGate.Context
