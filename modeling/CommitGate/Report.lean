import CommitGate.Fault
import CommitGate.Findings
import CommitGate.Text.Line

/-!
The report to the user: a block for each file with debug code or without a readable staged version,
then the linter's lines for the files with syntax errors, then what to do about it. A run that asks
for no abort has an empty report.
-/

namespace CommitGate.Report

def rule : Text := List.replicate 39 '-'

def debugBlock (context language path : Text) : Text :=
  Text.unlines ((if context.isEmpty then [] else [context]) ++
    [rule, "^ Found ".toList ++ language ++ " debug code in ".toList ++ path, rule])

def unreadableBlock (path : Text) : Text :=
  Text.unlines [rule, "^ Could not read the staged version of ".toList ++ path, rule]

/-- How the lines start that the linter prints for every file. -/
def lintBanners : List Text :=
  ["Errors parsing".toList, "No syntax errors detected".toList]

def isTelling (row : Text) : Bool :=
  !(Text.trim row).isEmpty && !lintBanners.any (·.isPrefixOf row)

/-- The telling rows of a lint output, with paths as they are in the repository. -/
def lintRows (scratch : Path) (output : Text) : List Text :=
  ((Text.rows output).filter isTelling).map (Text.remove (scratch.toText ++ [Path.slash]))

def lintRowsOf (f : Findings) (path : Text) : Except Fault (List Text) :=
  match f.lintOutput.lookup path with
  | some output => .ok (lintRows f.scratch output)
  | none => .error (.missingLintOutput path)

def syntaxSection (f : Findings) : Except Fault (List Text) :=
  if f.syntaxErrorFiles.isEmpty then .ok []
  else do
    let rows ← f.syntaxErrorFiles.mapM (lintRowsOf f)
    return [Text.unlines (["".toList, "The following syntax errors were found:".toList, rule] ++
      rows.flatten ++ [rule])]

def advice : Text :=
  Text.unlines (["",
    "Can't commit; fix errors first.",
    "(If you definitely need to commit this as-is, use the --no-verify option.)",
    "",
    "If the reported line numbers do not match, try stashing your unstaged changes:",
    "git stash push --keep-index"].map String.toList)

def render (f : Findings) : Except Fault Text :=
  if f.abortRequested then do
    let syntaxErrors ← syntaxSection f
    return Text.unlines (f.debugReports ++ syntaxErrors ++ [advice])
  else .ok []

end CommitGate.Report
