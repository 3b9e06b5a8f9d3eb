import FlowCheck.Report
import FlowCheck.Proofs.Template
import FlowCheck.Proofs.Permutation
import FlowCheck.Proofs.Validation
import FlowCheck.Proofs.Acceptance
import FlowCheck.Proofs.Undefined
import FlowCheck.Proofs.Workflow.Linking
import FlowCheck.Proofs.Workflow.Resolution
import FlowCheck.Proofs.Workflow.Scoping
import FlowCheck.Proofs.Workflow.Canonical
import FlowCheck.Proofs.RoundTrip
import FlowCheck.Proofs.Reachability
import FlowCheck.Proofs.Flow.Segments
import FlowCheck.Proofs.Flow.Branches
import FlowCheck.Proofs.Flow.Suppression
import FlowCheck.Proofs.Flow.LineBreaks
import FlowCheck.Proofs.Atomicity
import FlowCheck.Proofs.Flow.Tiling
import FlowCheck.Proofs.Flow.Spelling
import FlowCheck.Proofs.MarkerSearch
import FlowCheck.Proofs.Lines
import FlowCheck.Proofs.Flow.Bounds
