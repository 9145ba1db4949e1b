import CommitGate.Text.Quoted
import CommitGate.Text.UpperCase

/-!
The log. Its level says from which severity on a record is kept; the others are dropped where they are
made.
-/

namespace CommitGate.Log

inductive Level where
  | notSet
  | debug
  | info
  | warning
  | error
  | critical
  deriving DecidableEq, Repr

namespace Level

def number : Level → Nat
  | notSet => 0
  | debug => 10
  | info => 20
  | warning => 30
  | error => 40
  | critical => 50

def name : Level → Text
  | notSet => "NOTSET".toList
  | debug => "DEBUG".toList
  | info => "INFO".toList
  | warning => "WARNING".toList
  | error => "ERROR".toList
  | critical => "CRITICAL".toList

def ofName? (text : Text) : Option Level :=
  if text = "FATAL".toList then some critical
  else if text = "WARN".toList then some warning
  else [notSet, debug, info, warning, error, critical].find? (·.name = text)

/-- Without a level of its own a log shows warnings and worse. -/
def effective : Level → Level
  | notSet => warning
  | level => level

def keeps (level severity : Level) : Bool := level.effective.number ≤ severity.number

end Level

structure Record where
  severity : Level
  message : Text
  deriving DecidableEq, Repr

def Record.toText (r : Record) : Text := r.severity.name ++ ": ".toList ++ r.message ++ ['\n']

def render (records : List Record) : Text := records.flatMap Record.toText

/-- The level asked for, and the name that was given if it is no level's. -/
structure Setting where
  level : Level
  unknown : Option Text
  deriving DecidableEq, Repr

def variableName : Text := "COMMIT_GATE_LOG_LEVEL".toList

def unknownMessage (name : Text) : Text :=
  "unknown ".toList ++ variableName ++ " ".toList ++ Text.quoted name ++ "; using WARNING".toList

def Setting.ofVariable : Option Text → Setting
  | none => ⟨.warning, none⟩
  | some value =>
    let name := Text.upperCase value
    match Level.ofName? name with
    | some level => ⟨level, none⟩
    | none => ⟨.warning, some name⟩

end CommitGate.Log
