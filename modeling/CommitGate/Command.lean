import CommitGate.FileTree.Basic

/-!
Commands and what the programs behind them answer. A program is known by its answers alone: it sees
the commands run so far and the present one, each with the files that were there, and says how the
command ends and which files are there then. Of the files only a checkout changes any; what it does
to them is for the programs to say.
-/

namespace CommitGate

abbrev Command := List Text

inductive StartFailure.Kind where
  | notFound
  | notPermitted
  | other
  deriving DecidableEq, Repr

structure StartFailure where
  kind : StartFailure.Kind
  text : Text
  deriving DecidableEq, Repr

/-- A finished program. A negative status is the number of the signal that killed it. -/
structure Completion where
  status : Int
  output : Bytes
  errors : Bytes
  deriving DecidableEq, Repr

inductive Response where
  | notStarted (failure : StartFailure)
  | completed (c : Completion)
  deriving DecidableEq, Repr

namespace Command

def checkoutWord : Text := "checkout-index".toList
def placeWord : Text := "--prefix=".toList

/-- Where a checkout puts its file: the place it is told, and right behind it the path that comes
last. -/
def checkoutTarget? (command : Command) : Option Text :=
  if command[1]? = some checkoutWord then
    match command.find? placeWord.isPrefixOf, command.getLast? with
    | some place, some path => some (place.drop placeWord.length ++ path)
    | _, _ => none
  else none

end Command

structure Invocation where
  command : Command
  tree : FileTree

structure Answer where
  response : Response
  tree : FileTree

/-- The answer to an invocation after the ones before it. -/
structure Programs where
  answer : List Invocation → Invocation → Answer
  keeps : ∀ past now, now.command.checkoutTarget? = none → (answer past now).tree = now.tree

end CommitGate
