import CommitGate.Context
import CommitGate.Linter
import CommitGate.Php.Segment
import CommitGate.Report

/-!
The checks of a single staged copy. A copy that cannot be read is reported and not checked further.
A PHP file is searched for debug calls outside comments and linted; a script file is searched line
by line.
-/

namespace CommitGate.Check

open Session

def phpDebugFunctions : List Text :=
  ["var_dump", "dpq", "dpm", "dvm", "dsm", "dpr", "kpr", "dvr", "kprint_r", "dprint_r",
    "devel_render", "ddebug_backtrace", "debug_backtrace", "debug_print_backtrace"].map String.toList

def scriptDebugFunctions : List Text := ["console.log", "alert"].map String.toList

def lintLogName : Text := "lint.log".toList

/-- The text of a copy, or nothing after a report that it could not be read. -/
def readCopy (path : Text) (copy : Path) : Action (Option Text) := do
  match (← get).tree.read copy.toText with
  | .ok content => return some (Utf8.readLossy content)
  | .error fault =>
    record .warning ("cannot read staged copy of ".toList ++ path ++ ": ".toList ++ fault.message)
    updateFindings (·.addReport (Report.unreadableBlock path))
    return none

def reportCalls (names : List Text) (language path text : Text) : Action Unit :=
  updateFindings
    (·.addReport (Report.debugBlock (Context.ofCalls names (LineComment.strip text)) language path))

/-- Whether PHP code holds a debug call, going by the linter's reading of comments if there is one. -/
def hasDebugCall (stripped : Option Text) (text : Text) : Bool :=
  Calls.occurIn phpDebugFunctions (stripped.getD (Php.withoutComments text))

def takeLint (path : Text) (lint : LintResult) : Action Unit := do
  updateFindings (·.addLintOutput path lint.output)
  let log := (← get).findings.scratch.child lintLogName
  changeTree (.single (·.append log.toText (Utf8.encode lint.output)))
  if lint.isParseError then
    record .debug ("parse error in ".toList ++ path)
    updateFindings (·.addSyntaxError path)

def php (programs : Programs) (linter : Linter) (path : Text) (copy : Path) : Action Unit := do
  match ← readCopy path copy with
  | none => return
  | some text =>
    let stripped ← linter.strip? programs copy
    if hasDebugCall stripped text then
      reportCalls phpDebugFunctions "PHP".toList path text
    takeLint path (← linter.check programs copy)

def script (path : Text) (copy : Path) : Action Unit := do
  match ← readCopy path copy with
  | none => return
  | some text =>
    if !(Calls.find scriptDebugFunctions (LineComment.strip text)).isEmpty then
      reportCalls scriptDebugFunctions "Javascript".toList path text

end CommitGate.Check
