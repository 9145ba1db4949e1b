import CommitGate.Gate
import CommitGate.Staged.Listing

/-!
The whole hook: the staged files are listed and put through the gate, and the commit may go on only
if nothing was found. A git failure aborts the commit too.
-/

namespace CommitGate.Hook

open Session

def scratchDirectory : Text := ".validate_pre_commit".toList

def abortStatus : Nat := 1

structure Environment where
  php : Option Text
  logLevel : Option Text
  deriving DecidableEq, Repr

structure Verdict where
  status : Nat
  output : Text
  deriving DecidableEq, Repr

def gitTrouble (failure : GitFailure) (notice : Text) : Action Verdict := do
  record .error failure.message
  return ⟨abortStatus, notice ++ ['\n']⟩

def verdict (findings : Findings) : Action Verdict :=
  match Report.render findings with
  | .error fault => throw fault
  | .ok report =>
    return ⟨if findings.abortRequested then abortStatus else 0,
      if report.isEmpty then [] else report ++ ['\n']⟩

/-- The run once the log is set up. -/
def judge (programs : Programs) (php : Option Text) : Action Verdict := do
  match ← attempt (Staged.list programs) with
  | .error failure =>
    gitTrouble failure "Error getting list of changed files in pre-commit hook".toList
  | .ok files =>
    let linter := Linter.ofSettings none php
    match ← attempt (Gate.run programs linter (Path.ofText scratchDirectory) files) with
    | .error failure =>
      gitTrouble failure "Error checking out staged files in pre-commit hook".toList
    | .ok findings => verdict findings

def run (programs : Programs) (environment : Environment) : Action Verdict := do
  setUpLog environment.logLevel
  judge programs environment.php

end CommitGate.Hook
