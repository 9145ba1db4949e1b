import CommitGate.Hook
import CommitGate.Placement

/-!
The hook in dialogue with a process that runs its commands. A run is repeated from the start with
the replies so far: as each reply goes by its command's place in the run, the run does the same up to
the first command that has none yet, and that command is asked for next.
-/

namespace CommitGate.Dialogue

abbrev Transcript := List Reply

def unanswered : Reply := .notStarted ⟨.other, []⟩

def programs (transcript : Transcript) : Programs := .placing fun past _ =>
  transcript[past.length]?.getD unanswered

def start : Session :=
  ⟨FileTree.empty, [], none, [], Findings.fresh (Path.ofText Hook.scratchDirectory)⟩

inductive Standing where
  | asks (command : Command)
  | stopped (fault : Fault) (s : Session)
  | decided (verdict : Hook.Verdict) (s : Session)

def pending? (transcript : Transcript) (s : Session) : Option Command :=
  s.commands[transcript.length]?

def standing (environment : Hook.Environment) (transcript : Transcript) : Standing :=
  match Hook.run (programs transcript) environment start with
  | .ok verdict s => ((pending? transcript s).map .asks).getD (.decided verdict s)
  | .error fault s => ((pending? transcript s).map .asks).getD (.stopped fault s)

/-! The lines of the dialogue. Bytes are written as an `x` with hexadecimal digits after it. -/

def ofBytes (bytes : Bytes) : Text := 'x' :: bytes.flatMap fun b => Text.hexadecimal 2 b.toNat

def hexDigit? (c : Char) : Option Nat :=
  if c.isDigit then some (c.toNat - '0'.toNat)
  else if 'a' ≤ c ∧ c ≤ 'f' then some (c.toNat - 'a'.toNat + 10)
  else none

def ofDigits? : Text → Option Bytes
  | [] => some []
  | [_] => none
  | a :: b :: rest => do
    let high ← hexDigit? a
    let low ← hexDigit? b
    return UInt8.ofNat (high * 16 + low) :: (← ofDigits? rest)

def toBytes? : Text → Option Bytes
  | 'x' :: digits => ofDigits? digits
  | _ => none

def toNat? (digits : Text) : Option Nat :=
  if digits ≠ [] && digits.all (·.isDigit) then
    some (digits.foldl (fun n c => n * 10 + (c.toNat - '0'.toNat)) 0)
  else none

def toInt? : Text → Option Int
  | '-' :: digits => (toNat? digits).map fun n => -(n : Int)
  | digits => (toNat? digits).map Int.ofNat

def request (command : Command) : Text :=
  [' '].intercalate ("run".toList :: command.map fun word => ofBytes (Utf8.encode word))

def deposit? (word : Text) : Option Deposit :=
  if word = "nothing".toList then some .nothing
  else if word = "directory".toList then some .directory
  else (toBytes? word).map .file

def startFailureKind? (word : Text) : Option StartFailure.Kind :=
  if word = "missing".toList then some .notFound
  else if word = "forbidden".toList then some .notPermitted
  else if word = "failed".toList then some .other
  else none

/-- Reads the answer to a request: how the command failed to start, with a text; or how it exited,
with its output, its errors and what it left. -/
def reply? (line : Text) : Option Reply :=
  match Text.fields line with
  | [kind, reason] => do
    return .notStarted ⟨← startFailureKind? kind, Utf8.decodeLossy (← toBytes? reason)⟩
  | [exit, status, output, errors, left] =>
    if exit = "exit".toList then do
      return .completed ⟨← toInt? status, ← toBytes? output, ← toBytes? errors⟩ (← deposit? left)
    else none
  | _ => none

end CommitGate.Dialogue
