import CommitGate.Text.Line

/-!
Bytes as text in UTF-8. Reading is one machine that looks at a byte at a time and yields, for each
character or for each longest beginning of one that breaks off, a character or nothing. A strict
reader refuses the text when anything broke off; a lenient one puts U+FFFD there.
-/

namespace CommitGate.Utf8

/-- A character whose first bytes have been read. The next byte lies between `low` and `high`, and
with it `owed` bytes are missing. -/
structure Begun where
  value : Nat
  owed : Nat
  low : Nat
  high : Nat

inductive Lead where
  | complete (c : Char)
  | begins (b : Begun)
  | misplaced

/-- The bounds on the second byte keep out overlong forms, surrogates and values past U+10FFFF. -/
def lead (byte : Nat) : Lead :=
  if byte < 0x80 then .complete (Char.ofNat byte)
  else if byte < 0xC2 then .misplaced
  else if byte < 0xE0 then .begins ⟨byte - 0xC0, 1, 0x80, 0xBF⟩
  else if byte < 0xF0 then
    .begins ⟨byte - 0xE0, 2, if byte = 0xE0 then 0xA0 else 0x80, if byte = 0xED then 0x9F else 0xBF⟩
  else if byte < 0xF5 then
    .begins ⟨byte - 0xF0, 3, if byte = 0xF0 then 0x90 else 0x80, if byte = 0xF4 then 0x8F else 0xBF⟩
  else .misplaced

/-- The characters of a byte string, `none` standing for each one that breaks off. -/
def decodeFrom : Option Begun → Bytes → List (Option Char)
  | none, [] => []
  | some _, [] => [none]
  | none, byte :: rest =>
    match lead byte.toNat with
    | .complete c => some c :: decodeFrom none rest
    | .begins b => decodeFrom (some b) rest
    | .misplaced => none :: decodeFrom none rest
  | some b, byte :: rest =>
    let n := byte.toNat
    if b.low ≤ n ∧ n ≤ b.high then
      let value := b.value * 64 + (n - 0x80)
      if b.owed = 1 then some (Char.ofNat value) :: decodeFrom none rest
      else decodeFrom (some ⟨value, b.owed - 1, 0x80, 0xBF⟩) rest
    else
      match lead n with
      | .complete c => none :: some c :: decodeFrom none rest
      | .begins b' => none :: decodeFrom (some b') rest
      | .misplaced => none :: none :: decodeFrom none rest

def decode? (bytes : Bytes) : Option Text := (decodeFrom none bytes).mapM id

def decodeLossy (bytes : Bytes) : Text := (decodeFrom none bytes).map fun c => c.getD '\uFFFD'

def encode (text : Text) : Bytes := text.flatMap String.utf8EncodeChar

/-- How programs' output is read: strictly, and with one spelling of line ends. -/
def read? (bytes : Bytes) : Option Text := (decode? bytes).map Text.unifyNewlines

/-- How files are read: whatever they hold, and with one spelling of line ends. -/
def readLossy (bytes : Bytes) : Text := Text.unifyNewlines (decodeLossy bytes)

end CommitGate.Utf8
