import CommitGate.Text.Basic

/-!
Lines of a text. `lines` knows the line feed alone, which is how editors and compilers number them;
`rows` knows every line break there is, which is how printed output is read. The simple reading of
line comments takes `//` and what follows it on the line for one, wherever it stands.
-/

namespace CommitGate

namespace Text

/-- A carriage return with or without a line feed after it is read as a line feed. -/
def unifyNewlines : Text → Text
  | [] => []
  | '\r' :: '\n' :: rest => '\n' :: unifyNewlines rest
  | '\r' :: rest => '\n' :: unifyNewlines rest
  | c :: rest => c :: unifyNewlines rest

/-- The pieces between line feeds. An empty last piece is no line. -/
def lines (text : Text) : List Text :=
  let pieces := text.splitOn '\n'
  if pieces.getLast? = some [] then pieces.dropLast else pieces

def unlines (pieces : List Text) : Text := ['\n'].intercalate pieces

/-- The characters that end a row: the controls from line feed to carriage return, U+001C to
U+001E, U+0085, and the two separators U+2028 and U+2029. -/
def isRowEnd (c : Char) : Bool :=
  inRuns [(0xA, 0xD), (0x1C, 0x1E), (0x85, 0x85), (0x2028, 0x2029)] c.toNat

/-- The rows of a text without their ends. A carriage return and the line feed after it end one
row; an end that closes the text opens no further row. -/
def rows : Text → List Text
  | [] => []
  | '\r' :: '\n' :: rest => [] :: rows rest
  | c :: rest =>
    if isRowEnd c then [] :: rows rest
    else match rows rest with
      | [] => [[c]]
      | row :: more => (c :: row) :: more

end Text

namespace LineComment

def stripFrom : Bool → Text → Text
  | _, [] => []
  | _, '\n' :: rest => '\n' :: stripFrom false rest
  | true, _ :: rest => stripFrom true rest
  | false, '/' :: '/' :: rest => stripFrom true rest
  | false, c :: rest => c :: stripFrom false rest

def strip (text : Text) : Text := stripFrom false text

end LineComment

end CommitGate
