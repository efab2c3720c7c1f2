import DefUse.Main
import DefUse.Proofs.Overlap
import DefUse.Proofs.Graph.DeadCode
import DefUse.Proofs.Graph.Removed
import DefUse.Proofs.Graph.LeastOrder
import DefUse.Proofs.Typing.Settling
import DefUse.Proofs.Typing.Groups
import DefUse.Proofs.Lift.Unit
import DefUse.Proofs.Run
import DefUse.Proofs.ProgramOrder
import DefUse.Proofs.Lift.Counting
import DefUse.Proofs.Threads
import DefUse.Proofs.Program.Characters
import DefUse.Proofs.Program.Scanning
import DefUse.Proofs.Program.Reading
import DefUse.Proofs.Program.Parsing
import DefUse.Proofs.Program.Printing
import DefUse.Proofs.Rejection
import DefUse.Proofs.Lift.Pending
import DefUse.Proofs.Lift.WrittenBack
import DefUse.Proofs.Graph.Refused
import DefUse.Proofs.Graph.Detached
import DefUse.Proofs.Program.Comments
import DefUse.Proofs.Program.Lines
import DefUse.Proofs.Graph.Edits
import DefUse.Proofs.Graph.Slice
import DefUse.Proofs.Graph.Taint
import DefUse.Proofs.Graph.Relink
import DefUse.Proofs.Graph.Untainted
import DefUse.Proofs.TaintKept
import DefUse.Proofs.Lift.Outputs
import DefUse.Proofs.Matching
import DefUse.Proofs.Balance
import DefUse.Proofs.Lift.Canonical
import DefUse.Proofs.Graph.Counters
import DefUse.Proofs.RegisterNames
import DefUse.Proofs.Lift.Tracked
import DefUse.Proofs.Snapshot
import DefUse.Proofs.Lift.Checked
import DefUse.Proofs.Lift.CallSites
