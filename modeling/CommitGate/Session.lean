import CommitGate.Command
import CommitGate.Fault
import CommitGate.FileTree.Directories
import CommitGate.Findings
import CommitGate.Log

/-!
A run in progress: the file tree, the commands run, the log and the findings. Steps of a run change
them and may stop at a fault; what changed before the fault stays changed.
-/

namespace CommitGate

/-- The level is that of the log, once the log is set up. -/
structure Session where
  tree : FileTree
  invocations : List Invocation
  level : Option Log.Level
  log : List Log.Record
  findings : Findings

abbrev Action := EStateM Fault Session

namespace Session

def commands (s : Session) : List Command := s.invocations.map (·.command)

/-- The log with one more record, if its level keeps that. A log that is not set up has no level of its
own. -/
def logged (s : Session) (severity : Log.Level) (message : Text) : List Log.Record :=
  if (s.level.getD .notSet).keeps severity then s.log ++ [⟨severity, message⟩] else s.log

def record (severity : Log.Level) (message : Text) : Action Unit :=
  modify fun s => { s with log := s.logged severity message }

def setUpLog (asked : Option Text) : Action Unit := do
  if (← get).level.isNone then
    let setting := Log.Setting.ofVariable asked
    modify fun s => { s with level := some setting.level }
    if let some name := setting.unknown then record .warning (Log.unknownMessage name)

def updateFindings (f : Findings → Findings) : Action Unit :=
  modify fun s => { s with findings := f s.findings }

def changeTree (change : FileTree.Change) : Action Unit := fun s =>
  match change s.tree with
  | .ok _ tree => .ok () { s with tree }
  | .error fault tree => .error (.file fault) { s with tree }

def answered (programs : Programs) (command : Command) (s : Session) : Response × Session :=
  let now : Invocation := ⟨command, s.tree⟩
  let answer := programs.answer s.invocations now
  (answer.response, { s with invocations := s.invocations ++ [now], tree := answer.tree })

/-- Runs a command. This never is a fault: what the response means is for the caller to say. -/
def invoke (programs : Programs) (command : Command) : Action Response := fun s =>
  let r := answered programs command s
  .ok r.1 r.2

/-- Does the second action after the first, however that ends. A fault of the second one wins. -/
def thenAlways (first : Action α) (second : Action Unit) : Action α := fun s =>
  match first s with
  | .ok a s' =>
    match second s' with
    | .ok _ s'' => .ok a s''
    | .error fault s'' => .error fault s''
  | .error fault s' =>
    match second s' with
    | .ok _ s'' => .error fault s''
    | .error fault' s'' => .error fault' s''

/-- Does an action and gives its git failure, if that is how it ends, as a value. -/
def attempt (action : Action α) : Action (Except GitFailure α) := fun s =>
  match action s with
  | .ok a s' => .ok (.ok a) s'
  | .error (.git failure) s' => .ok (.error failure) s'
  | .error fault s' => .error fault s'

end Session

end CommitGate
