import CommitGate.Check
import CommitGate.Staged.Copy

/-!
The gate: every PHP file of a list is checked, then every script file, each on a copy of its staged
version, and the findings are collected. Other files are let through.
-/

namespace CommitGate.Gate

open Session

def phpExtensions : List Text := [".php", ".module", ".install", ".inc"].map String.toList

def scriptExtensions : List Text := [".js", ".coffee"].map String.toList

def hasExtension (extensions : List Text) (path : Text) : Bool :=
  extensions.any (·.isSuffixOf path)

def checkEach (programs : Programs) (scratch : Path) (extensions : List Text)
    (check : Text → Path → Action Unit) : List Text → Action Unit
  | [] => return
  | path :: rest => do
    if hasExtension extensions path then
      record .debug ("checking ".toList ++ path)
      Staged.withCopy programs scratch path (check path)
    checkEach programs scratch extensions check rest

def prepare (scratch : Path) : Action Unit := do
  changeTree (FileTree.ensureDirectory scratch)
  changeTree (.single (·.write (scratch.child Check.lintLogName).toText []))

def run (programs : Programs) (linter : Linter) (scratch : Path) (files : List Text) :
    Action Findings := do
  prepare scratch
  updateFindings fun _ => Findings.fresh scratch
  checkEach programs scratch phpExtensions (Check.php programs linter) files
  checkEach programs scratch scriptExtensions Check.script files
  return (← get).findings

end CommitGate.Gate
