import RefFlow.FlowGraph.Reach
import RefFlow.Liveness.WellFormed
import RefFlow.Proofs.Accounts
import RefFlow.Proofs.Agreement
import RefFlow.Proofs.Closure
import RefFlow.Proofs.Collecting
import RefFlow.Proofs.Counts
import RefFlow.Proofs.Covering
import RefFlow.Proofs.Directory
import RefFlow.Proofs.Entering
import RefFlow.Proofs.Exactness
import RefFlow.Proofs.FlowGraph
import RefFlow.Proofs.ForeignMoves
import RefFlow.Proofs.GraphHistory
import RefFlow.Proofs.InRange
import RefFlow.Proofs.IndexPass
import RefFlow.Proofs.Influence
import RefFlow.Proofs.Intake
import RefFlow.Proofs.Journal
import RefFlow.Proofs.KeyEncoding
import RefFlow.Proofs.Lookup
import RefFlow.Proofs.Marks
import RefFlow.Proofs.Messages
import RefFlow.Proofs.OrderTest
import RefFlow.Proofs.Partition
import RefFlow.Proofs.Permutation
import RefFlow.Proofs.PlainScan
import RefFlow.Proofs.PrintedGraph
import RefFlow.Proofs.RangeHistory
import RefFlow.Proofs.RangeKey
import RefFlow.Proofs.Relabelling
import RefFlow.Proofs.Requests
import RefFlow.Proofs.RowMarks
import RefFlow.Proofs.Safety
import RefFlow.Proofs.SameSegments
import RefFlow.Proofs.SearchOrder
import RefFlow.Proofs.SearchWork
import RefFlow.Proofs.Seeding
import RefFlow.Proofs.SharedNumbers
import RefFlow.Proofs.StagedClosure
import RefFlow.Proofs.Stages
import RefFlow.Proofs.SuccessiveIntakes
import RefFlow.Proofs.SuccessiveRuns
import RefFlow.Proofs.Survey
import RefFlow.Proofs.Verdict
import RefFlow.Proofs.VouchedSegments
import RefFlow.Proofs.WellFormed
import RefFlow.Proofs.Words
import RefFlow.Session.Basic
