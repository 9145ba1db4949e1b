/-!
Text and bytes, and the few list operations on them that the rest of the library shares.
-/

namespace CommitGate

/-- A text is the list of its code points: offsets and lengths count code points. -/
abbrev Text := List Char

abbrev Bytes := List UInt8

/-- Membership in a class of code points that is given by its runs, first and last included.
The runs ascend, so the walk ends at the first one that starts above `n`. -/
def inRuns : List (Nat × Nat) → Nat → Bool
  | [], _ => false
  | (first, last) :: rest, n => if n < first then false else n ≤ last || inRuns rest n

namespace Text

def ofInt : Int → Text
  | .ofNat n => Nat.toDigits 10 n
  | .negSucc n => '-' :: Nat.toDigits 10 (n + 1)

def ofNat (n : Nat) : Text := Nat.toDigits 10 n

/-- `pending` counts the characters that still belong to an occurrence already found. -/
def removeFrom (part : Text) : Nat → Text → Text
  | _, [] => []
  | pending + 1, _ :: rest => removeFrom part pending rest
  | 0, c :: rest =>
    if part.isPrefixOf (c :: rest) then removeFrom part (part.length - 1) rest
    else c :: removeFrom part 0 rest

/-- Removes every occurrence of a non-empty `part`, leftmost first and without overlap. -/
def remove (part text : Text) : Text := removeFrom part 0 text

def trimmed (p : Char → Bool) (text : Text) : Text :=
  ((text.dropWhile p).reverse.dropWhile p).reverse

/-- Blank are the controls from tab to carriage return, the separators U+001C to U+001F, the space,
U+0085, and the space characters above ASCII, but not those without a width. -/
def blankRuns : List (Nat × Nat) :=
  [(0x9, 0xD), (0x1C, 0x20), (0x85, 0x85), (0xA0, 0xA0), (0x1680, 0x1680), (0x2000, 0x200A),
    (0x2028, 0x2029), (0x202F, 0x202F), (0x205F, 0x205F), (0x3000, 0x3000)]

def isBlank (c : Char) : Bool := inRuns blankRuns c.toNat

def trim (text : Text) : Text := text.trimmed isBlank

def fields (text : Text) : List Text := (text.splitOnP isBlank).filter fun f => !f.isEmpty

end Text

end CommitGate
