import CommitGate.Calls
import CommitGate.Check
import CommitGate.Command
import CommitGate.Context
import CommitGate.Dialogue
import CommitGate.Fault
import CommitGate.FileFault
import CommitGate.FileTree.Basic
import CommitGate.FileTree.Directories
import CommitGate.FileTree.Operation
import CommitGate.Findings
import CommitGate.Gate
import CommitGate.Git
import CommitGate.Hook
import CommitGate.Linter
import CommitGate.Log
import CommitGate.Main
import CommitGate.Path
import CommitGate.Php.Heredoc
import CommitGate.Php.Quote
import CommitGate.Php.Segment
import CommitGate.Report
import CommitGate.Session
import CommitGate.Staged.Copy
import CommitGate.Staged.Listing
import CommitGate.Text.Basic
import CommitGate.Text.Line
import CommitGate.Text.Quoted
import CommitGate.Text.UpperCase
import CommitGate.Text.Utf8
import CommitGate.Text.Word
import CommitGate.WrittenPath
import CommitGate.Proofs.Php.Grammar
import CommitGate.Proofs.Php.Scan
import CommitGate.Proofs.Php.Heredoc
import CommitGate.Proofs.Php.Document
import CommitGate.Proofs.Php.Copied
import CommitGate.Proofs.Php.Aligned
import CommitGate.Proofs.Php.Boundary
import CommitGate.Proofs.Php.Quote
import CommitGate.Proofs.Php.ClosingLine
import CommitGate.Proofs.Answers
import CommitGate.Proofs.CallLines
import CommitGate.Proofs.CalledParenthesis
import CommitGate.Proofs.Calls
import CommitGate.Proofs.Check
import CommitGate.Proofs.Clean
import CommitGate.Proofs.Complete
import CommitGate.Proofs.Copy
import CommitGate.Proofs.Gate
import CommitGate.Proofs.Kept
import CommitGate.Proofs.Lines
import CommitGate.Proofs.LineStart
import CommitGate.Proofs.Listing
import CommitGate.Proofs.LiveCall
import CommitGate.Proofs.Location
import CommitGate.Proofs.Report
import CommitGate.Proofs.Session
import CommitGate.Proofs.Tolerance
import CommitGate.Proofs.Verdict
import CommitGate.Proofs.Cleanup
import CommitGate.Proofs.Bookkeeping
import CommitGate.Proofs.Reported
import CommitGate.Proofs.Deposit
import CommitGate.Proofs.Merge
import CommitGate.Proofs.Scratch
import CommitGate.Proofs.Independence
import CommitGate.Proofs.Utf8
import CommitGate.Proofs.Newline
import CommitGate.Proofs.Records
import CommitGate.Proofs.StagedPath
import CommitGate.Proofs.SyntaxRows
import CommitGate.Proofs.Context
import CommitGate.Proofs.ContextRows
import CommitGate.Proofs.Fallback
import CommitGate.Proofs.LineNumber
import CommitGate.Proofs.LintRecords
import CommitGate.Proofs.Walk
import CommitGate.Proofs.Inspection
import CommitGate.Proofs.ListingRun
import CommitGate.Proofs.Trace
import CommitGate.Proofs.Plan
import CommitGate.Proofs.GitFailure
import CommitGate.Proofs.LastLine
import CommitGate.Proofs.Leftover
import CommitGate.Proofs.Unreadable
import CommitGate.Proofs.LogLevel
import CommitGate.Proofs.Prepared
import CommitGate.Proofs.Settled
import CommitGate.Proofs.Turn
import CommitGate.Proofs.Repeat
