import CommitGate.Command
import CommitGate.FileTree.Directories

/-!
Checkouts that put what they leave into place and do nothing else to the files. Such a checkout makes
the directories that are missing on the way; where a file is on the way, or a directory where the
file belongs, it does not start.
-/

namespace CommitGate

inductive Deposit where
  | nothing
  | file (content : Bytes)
  | directory
  deriving DecidableEq, Repr

/-- How a command ends, with what it leaves if it is a checkout. -/
inductive Reply where
  | notStarted (failure : StartFailure)
  | completed (c : Completion) (left : Deposit)
  deriving DecidableEq, Repr

namespace Reply

def response : Reply → Response
  | notStarted failure => .notStarted failure
  | completed c _ => .completed c

def left : Reply → Deposit
  | notStarted _ => .nothing
  | completed _ left => left

end Reply

def Command.leave (command : Command) (left : Deposit) : FileTree.Change :=
  match command.checkoutTarget?, left with
  | none, _ => fun t => .ok () t
  | some _, .nothing => fun t => .ok () t
  | some path, .file content => FileTree.deposit path content
  | some path, .directory => FileTree.makeDirectories false path

namespace Programs

/-- The answer to a command whose checkout, if it is one, can only put something into place. -/
def placed (now : Invocation) (reply : Reply) : Answer :=
  match reply with
  | .notStarted failure => ⟨.notStarted failure, now.tree⟩
  | .completed c left =>
    match now.command.leave left now.tree with
    | .ok _ tree => ⟨.completed c, tree⟩
    | .error fault tree => ⟨.notStarted ⟨.other, fault.message⟩, tree⟩

theorem tree_placed {now : Invocation} (h : now.command.checkoutTarget? = none) (reply : Reply) :
    (placed now reply).tree = now.tree := by
  cases reply with
  | notStarted failure => rfl
  | completed c left => simp [placed, Command.leave, h]

def placing (reply : List Invocation → Invocation → Reply) : Programs where
  answer past now := placed now (reply past now)
  keeps past now h := tree_placed h (reply past now)

end Programs

end CommitGate
