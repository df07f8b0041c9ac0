import RenderPlan.Main
import RenderPlan.Graph.Show
import RenderPlan.Queue.Params
import RenderPlan.Scenario.Contexts
import RenderPlan.Proofs.Render.SerialOrder
import RenderPlan.Proofs.Optimize.WellFormed
import RenderPlan.Proofs.Optimize.Conduct
import RenderPlan.Proofs.Optimize.Fixpoint
import RenderPlan.Proofs.Optimize.Growth
import RenderPlan.Proofs.Queue.Progress
import RenderPlan.Proofs.Optimize.Turns
import RenderPlan.Proofs.Graph.Dump
import RenderPlan.Proofs.Optimize.Descent
import RenderPlan.Proofs.Optimize.Faults
import RenderPlan.Proofs.Optimize.Termination
import RenderPlan.Proofs.Optimize.Digging
import RenderPlan.Proofs.Queue.Wakeups
import RenderPlan.Proofs.Queue.Dismissal
import RenderPlan.Proofs.Queue.Shutdown
import RenderPlan.Proofs.Queue.Custody
import RenderPlan.Proofs.Render.Failures
import RenderPlan.Proofs.Graph.Lookups
import RenderPlan.Proofs.Hazard.Reduction
import RenderPlan.Proofs.Optimize.Lineage
import RenderPlan.Proofs.Optimize.Threshold
import RenderPlan.Proofs.Optimize.Splicing
import RenderPlan.Proofs.Optimize.Insistence
import RenderPlan.Proofs.Optimize.Truncation
import RenderPlan.Proofs.Optimize.Inertness
import RenderPlan.Proofs.Rule.Registrations
import RenderPlan.Proofs.Render.Ownership
import RenderPlan.Proofs.Optimize.QuietRun
import RenderPlan.Proofs.Bench.Rendering
import RenderPlan.Proofs.Bench.Linearization
import RenderPlan.Proofs.Bench.Coverage
import RenderPlan.Proofs.Options.Survival
import RenderPlan.Proofs.Json.Exactness
