import ProbeCoverage.Analysis
import ProbeCoverage.Bytecode.Recorder
import ProbeCoverage.Flow.Edit
import ProbeCoverage.Json.Event
import ProbeCoverage.Json.Options
import ProbeCoverage.Json.Parser
import ProbeCoverage.Json.Printer
import ProbeCoverage.Json.Report
import ProbeCoverage.Proofs.BranchCredit
import ProbeCoverage.Proofs.LostLines
import ProbeCoverage.Proofs.Outcome
import ProbeCoverage.Proofs.SingleLinks
import ProbeCoverage.Proofs.Propagation
import ProbeCoverage.Proofs.BranchBound
import ProbeCoverage.Proofs.Withdrawal
import ProbeCoverage.Proofs.MissedBranches
import ProbeCoverage.Proofs.Account
import ProbeCoverage.Proofs.MergeEffect
import ProbeCoverage.Proofs.RowCredits
import ProbeCoverage.Proofs.Folding
import ProbeCoverage.Proofs.Unexecuted
import ProbeCoverage.Proofs.Lossless
import ProbeCoverage.Proofs.Unaligned
import ProbeCoverage.Proofs.RenamedCopies
import ProbeCoverage.Proofs.LabelKinds
import ProbeCoverage.Proofs.CommonPrefix
import ProbeCoverage.Proofs.Resolving
import ProbeCoverage.Proofs.CopyEntries
import ProbeCoverage.Proofs.HandlerSpans
import ProbeCoverage.Proofs.EndOrder
import ProbeCoverage.Proofs.NearestReported
import ProbeCoverage.Proofs.CounterSums
