/-
# RenderPlan.Render.Renderer -- from a list of tasks to a report

A run has three parts. The trees are checked, the rules transform a copy of the graph, and the edges
of the optimized list are planned: that is `Renderer.prepare`, which touches no pool. Then the
tasks are submitted as one batch of jobs, each waiting for the jobs of its edges. When the batch is
over, its outcome and the counters make the report.

The caller's graph is never changed, since a graph is a value and optimizing makes a new one. What a
task answers when it runs is a parameter here (`Verdict`).
-/
import RenderPlan.Graph.Check
import RenderPlan.Hazard.Plan
import RenderPlan.Optimize.Sweep
import RenderPlan.Queue.Pump

namespace RenderPlan

/-- How an operation ends without a result. -/
inductive Failure where
  /-- It was refused. -/
  | error (e : Error)
  /-- It met a fault. -/
  | fault (f : Fault)
  deriving DecidableEq, Repr

/-- Which pool a renderer works on. -/
structure QueueId where
  index : Nat
  deriving DecidableEq, Repr

/-- A renderer: its identity, the pool it is bound to, and its settings. -/
structure Renderer where
  serial : Nat
  queue : QueueId
  options : RenderOptions
  deriving DecidableEq, Repr

/-- Outcome and counters of a run. -/
structure RunReport where
  /-- No task failed. -/
  success : Bool
  /-- Entries of the submitted list. -/
  inputTasks : Nat
  /-- Entries of the optimized list, which is the number of jobs. -/
  optimizedTasks : Nat
  dependencyEdges : Nat
  optimizerSteps : Nat
  optimizerRestarts : Nat
  deriving DecidableEq, Repr

/-- A list that is ready to be submitted. -/
structure Prepared where
  graph : Graph
  order : List TaskId
  plan : HazardPlan
  stats : OptimizeStats

/-- What preparing leaves behind, completed or not. -/
structure Preparation (σ : Type) where
  result : Except Failure Prepared
  user : σ
  log : List String

/-- What a task answers, given the parameters of the run and whether all that it waited for
succeeded. -/
abbrev Verdict (π : Type) := Graph → TaskId → π → Bool → Bool

namespace Stop

/-- How a stopped optimization appears to the caller. -/
def toFailure (maxSteps : Nat) : Stop → Failure
  | exhausted => .error (.noFixpoint maxSteps)
  | fault f => .fault f
  | visitLimit => .fault .endless

end Stop

namespace Prepared

/-- The identity of the job at a position. -/
def jobId (firstId : Nat) (position : Nat) : JobId := ⟨firstId + position⟩

/-- The job of the task at a position: it waits for the jobs of its edges, on the lane of the
task. -/
def job (p : Prepared) (firstId : Nat) (position : Nat) (task : TaskId) : Job TaskId :=
  ⟨jobId firstId position, (p.plan.depsOf position).map (jobId firstId),
    match p.graph.get? task with
    | some n => n.lane
    | none => .shared,
    task⟩

/-- One job for each entry, in list order. -/
def jobs (p : Prepared) (firstId : Nat) : List (Job TaskId) :=
  p.order.mapIdx (p.job firstId)

/-- The identity of the barrier behind the jobs. -/
def barrier (p : Prepared) (firstId : Nat) : JobId := jobId firstId p.order.length

/-- The report of a run of a list of `inputTasks` entries. -/
def report (p : Prepared) (inputTasks : Nat) (success : Bool) : RunReport :=
  ⟨success, inputTasks, p.order.length, p.plan.edges, p.stats.steps, p.stats.restarts⟩

end Prepared

namespace Renderer

variable {σ π : Type}

/-- Rules and limits of the renderer. -/
def setup (r : Renderer) (rules : RuleId → Rule σ) (registry : Registry) : Setup σ :=
  ⟨rules, registry, r.options.optimizer.maxSteps.toNat, r.options.optimizer.logSteps,
    Setup.defaultVisitLimit⟩

/-- The lines of a dump, if lists are to be logged. -/
def listing (r : Renderer) (g : Graph) (list : List (Option TaskId)) (title : String) :
    Except Fault (List String) :=
  if r.options.logTaskLists then g.dump list title else .ok []

/-- Plans the optimized list. -/
def planned (g : Graph) (list : List (Option TaskId)) (stats : OptimizeStats) :
    Except Fault Prepared := do
  let order := list.filterMap id
  let plan ← HazardPlan.ofList g order
  return ⟨g, order, plan, stats⟩

/-- What the optimization leads to: the lines of the optimized list, and the plan. -/
def afterOptimizing (r : Renderer) (maxSteps : Nat) (o : Optimized σ) :
    List String × Except Failure Prepared :=
  match o.result with
  | .error stop => ([], .error (stop.toFailure maxSteps))
  | .ok stats =>
    match r.listing o.graph o.list "optimized list" with
    | .error f => ([], .error (.fault f))
    | .ok lines => (lines, (planned o.graph o.list stats).mapError .fault)

/-- Checks the trees, optimizes them and plans the optimized list. -/
def prepare (r : Renderer) (rules : RuleId → Rule σ) (registry : Registry) (user : σ)
    (graph : Graph) (list : List TaskId) : Preparation σ :=
  match graph.check list with
  | .error e => ⟨.error (.error e), user, []⟩
  | .ok () =>
    let entries := list.map some
    match r.listing graph entries "list" with
    | .error f => ⟨.error (.fault f), user, []⟩
    | .ok before =>
      let setup := r.setup rules registry
      let o := setup.optimize user graph entries
      let (after, result) := r.afterOptimizing setup.maxSteps o
      ⟨result, o.user, before ++ o.journal.lines ++ after⟩

/-- The jobs of a batch answer by their verdict and do nothing else. -/
def body (verdict : Verdict π) (g : Graph) : Body TaskId π Unit :=
  fun task job ps => (ps, verdict g task job.params job.sound)

/-- Submits a prepared list and runs it to its end. Without tasks nothing is submitted, so that
even a stopped pool will do. -/
def execute (verdict : Verdict π) (p : Prepared) (params : π) (firstId : Nat)
    (pool : Pool TaskId π) : Except Error Bool × Pool TaskId π :=
  if p.order.isEmpty then (.ok true, pool)
  else match pool.runBatch (p.jobs firstId) params (p.barrier firstId) with
    | .error e => (.error e, pool)
    | .ok pool =>
      let count := p.order.length + 1
      let pool := (Pool.pump (body verdict p.graph) count Pool.bothLanes count (pool, ())).1
      match pool.outcome? (p.barrier firstId) with
      | some (.completed ok) => (.ok ok, pool)
      | _ => (.error .batchAbandoned, pool)

/-- The lines that the end of a run leaves in the event log. -/
def closing (r : Renderer) (report : RunReport) : List String :=
  (if r.options.measure then
    ["INFO render measure tasks=" ++ toString report.optimizedTasks] else []) ++
  (if report.success then [] else ["DEBUG render batch finished with failed tasks"])

/-- What a run leaves behind. -/
structure Ran (σ π : Type) where
  result : Except Failure RunReport
  user : σ
  /-- The graph that the jobs ran on, if it came to that. -/
  graph : Graph
  pool : Pool TaskId π
  /-- The first number that is free for the identity of a job. -/
  nextId : Nat
  log : List String

/-- Renders a list. -/
def run (r : Renderer) (verdict : Verdict π) (rules : RuleId → Rule σ) (registry : Registry)
    (user : σ) (graph : Graph) (list : List TaskId) (params : π) (firstId : Nat)
    (pool : Pool TaskId π) : Ran σ π :=
  let preparation := r.prepare rules registry user graph list
  match preparation.result with
  | .error f => ⟨.error f, preparation.user, graph, pool, firstId, preparation.log⟩
  | .ok p =>
    let nextId := firstId + p.order.length + 1
    match execute verdict p params firstId pool with
    | (.error e, pool) =>
      ⟨.error (.error e), preparation.user, p.graph, pool, nextId, preparation.log⟩
    | (.ok success, pool) =>
      let report := p.report list.length success
      ⟨.ok report, preparation.user, p.graph, pool, nextId, preparation.log ++ r.closing report⟩

end Renderer

end RenderPlan
