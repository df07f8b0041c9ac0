/-
# RenderPlan.Scenario.Renders -- renderers, contexts and what their tasks saw

Tasks run by a scenario answer as their kind says, except that a run may name tasks that fail on
its behalf. A task looks up its sub-tasks when it runs, so one with a sub-task that does not exist
gives up before it leaves a record.

`Stage` holds everything that outlives a single operation: the pools, the renderers with their
registries, and the contexts by name. A pool outlives its context as long as a renderer is bound to
it; dropping the context stops it.
-/
import RenderPlan.Render.Context
import RenderPlan.Scenario.Rules
import RenderPlan.Scenario.Jobs

namespace RenderPlan.Scenario

/-! ## Tasks -/

/-- The parameters of a run: a value for every task to see, and the tasks that are to fail. -/
structure RenderParams where
  value : Json
  failing : List TaskId

/-- The names of the sub-tasks of a node, if all of them exist. -/
def subNames? (g : Graph) (n : Node) : Option (List String) := n.children.mapM g.name?

/-- What a task answers. -/
def verdict : Verdict RenderParams := fun g id params sound =>
  match g.get? id with
  | none => false
  | some n =>
    (subNames? g n).isSome && answers n.kind.conduct sound && !params.failing.contains id

/-- A task that was run, and what it saw. -/
structure RanTask where
  id : TaskId
  name : String
  sound : Bool
  value : Json
  subs : List String
  lane : Option Lane

/-- The run of a task that an event tells of. -/
def ranTaskOf? (g : Graph) (pool : Pool TaskId RenderParams) :
    JobEvent (Payload TaskId) RenderParams → Option RanTask
  | .began worker ⟨⟨_, _, _, .work id⟩, params, sound⟩ => do
    let n ← g.get? id
    let subs ← subNames? g n
    some ⟨id, n.name, sound, params.value, subs, pool.laneOf worker⟩
  | _ => none

/-! ## Pools, renderers and contexts -/

/-- A renderer and the rules registered with it. -/
structure Actor where
  renderer : Renderer
  registry : Registry

/-- All pools, renderers and contexts. -/
structure Stage where
  pools : List (Pool TaskId RenderParams)
  /-- The renderers by name. One whose name was given to another is no longer among them. -/
  actors : List (String × Actor)
  /-- How many renderers were made. -/
  made : Nat
  /-- The contexts that exist. -/
  contexts : List (String × Context)
  /-- The pool of the latest context of each name, also after the end of the context. -/
  latest : List (String × QueueId)
  ledger : Ledger
  nextId : Nat

namespace Stage

/-- Nothing exists. -/
def empty : Stage := ⟨[], [], 0, [], [], .empty, 0⟩

/-- The list with the value of a key replaced, or added. -/
def assign {α : Type} (key : String) (a : α) (list : List (String × α)) : List (String × α) :=
  (key, a) :: list.filter fun e => e.1 ≠ key

/-- Settings without a number of workers ask for two. -/
def withThreads (o : ContextOptions) : ContextOptions :=
  { o with queue := { o.queue with threads := some (o.queue.threads.getD 2) } }

/-- The pool of an id. -/
def pool? (s : Stage) (id : QueueId) : Option (Pool TaskId RenderParams) := s.pools[id.index]?

/-- Changes a pool. -/
def modifyPool (s : Stage) (id : QueueId)
    (f : Pool TaskId RenderParams → Pool TaskId RenderParams) : Stage :=
  { s with pools := s.pools.modify id.index f }

/-- The actor with a name. -/
def actor? (s : Stage) (name : String) : Option Actor := s.actors.lookup name

/-- The name that stands for a renderer. There is none once another was made under its name. -/
def nameOf (s : Stage) (r : Renderer) : Option String :=
  (s.actors.find? fun e => e.2.renderer.serial = r.serial).map Prod.fst

/-- Ends a context: its names go, and its pool stops. -/
def dropContext (s : Stage) (name : String) : Stage :=
  match s.contexts.lookup name with
  | none => s
  | some c =>
    { s with contexts := s.contexts.filter fun e => e.1 ≠ name }.modifyPool c.queue Pool.stop

/-- Opens a context under a name; an older one of that name ends. -/
def openContext (s : Stage) (name : String) (o : ContextOptions) :
    Except Error (Pool TaskId RenderParams × Stage) := do
  let pool ← Pool.create 2 (withThreads o).queue
  let id : QueueId := ⟨s.pools.length⟩
  let s := { s with pools := s.pools ++ [pool] }.dropContext name
  return (pool, { s with
    contexts := assign name (.ofQueue id) s.contexts
    latest := assign name id s.latest })

/-- Makes a renderer on the pool of a context, and gives it a name. An older renderer of that name
goes on without a name. -/
def createRenderer (s : Stage) (context : Context) (name : String) (o : RenderOptions)
    (registry : Registry) : Stage :=
  let r := context.createRenderer s.made o
  { s with actors := assign name ⟨r, registry⟩ s.actors, made := s.made + 1 }

/-- The outcome of a run, what its tasks saw, and what it logged. -/
structure Performance where
  result : Except Failure RunReport
  ran : List RanTask
  log : List String

/-- Runs an actor. -/
def perform (s : Stage) (a : Actor) (rules : RuleId → Rule Ledger) (graph : Graph)
    (list : List TaskId) (params : RenderParams) : Stage × Performance :=
  let pool := (s.pool? a.renderer.queue).getD (.ofLanes [])
  let r := a.renderer.run verdict rules a.registry s.ledger graph list params s.nextId pool
  let events := (r.pool.history.take (r.pool.history.length - pool.history.length)).reverse
  ({ s.modifyPool a.renderer.queue fun _ => r.pool with ledger := r.user, nextId := r.nextId },
    ⟨r.result, events.filterMap (ranTaskOf? r.graph r.pool), r.log⟩)

end Stage

/-! ## Rendering one list again and again -/

/-- What to render, and how often. -/
structure RenderPlay where
  graph : Graph
  list : List TaskId
  book : RuleBook
  context : ContextOptions
  options : RenderOptions
  params : RenderParams
  runs : Nat
  /-- Also run once without parameters. -/
  simple : Bool
  /-- Also run once for each task that ran at first, with only that task failing. -/
  taint : Bool

/-- What came of it. -/
structure RenderRecord where
  threads : Nat
  registered : List (Except Error Unit)
  runs : List Stage.Performance
  /-- What the rules remember after the runs. -/
  ledger : Ledger
  simple : Option (Except Failure Bool)
  /-- For each task the tasks that were not sound. -/
  taint : List (TaskId × List TaskId)

namespace RenderPlay

/-- The ids in increasing order, each once. -/
def distinct (ids : List TaskId) : List TaskId :=
  (ids.mergeSort fun a b => a.index ≤ b.index).eraseDups

/-- Parameters without a value, for runs in which some tasks are to fail. -/
def failing (ids : List TaskId) : RenderParams := ⟨.null, ids⟩

/-- Runs the same list several times. -/
def repeated (p : RenderPlay) (a : Actor) : Nat → Stage → Stage × List Stage.Performance
  | 0, s => (s, [])
  | n + 1, s =>
    let (s, first) := s.perform a p.book.ruleOf p.graph p.list p.params
    let (s, rest) := p.repeated a n s
    (s, first :: rest)

/-- Which tasks are not sound when a given task fails, for each given task. -/
def taints (p : RenderPlay) (a : Actor) : List TaskId → Stage → List (TaskId × List TaskId)
  | [], _ => []
  | id :: ids, s =>
    let (s, run) := s.perform a p.book.ruleOf p.graph p.list (failing [id])
    let unsound := (run.ran.filter fun r => !r.sound).map RanTask.id
    (id, unsound.mergeSort fun a b => a.index ≤ b.index) :: p.taints a ids s

/-- Renders as planned. -/
def play (p : RenderPlay) : Except Error RenderRecord := do
  let (pool, s) ← Stage.empty.openContext "main" p.context
  let (registry, registered) := p.book.registerAll
  let context := (s.contexts.lookup "main").getD (.ofQueue ⟨0⟩)
  let s := s.createRenderer context "main" p.options registry
  let a := (s.actor? "main").getD ⟨context.createRenderer 0 p.options, registry⟩
  let (s, runs) := p.repeated a p.runs s
  let ledger := s.ledger
  let (s, simple) :=
    if p.simple then
      let (s, run) := s.perform a p.book.ruleOf p.graph p.list (failing [])
      (s, some (run.result.map RunReport.success))
    else (s, none)
  let first := match runs with
    | [] => []
    | run :: _ => distinct (run.ran.map RanTask.id)
  return {
    threads := pool.threadCount
    registered, runs, ledger, simple
    taint := if p.taint then p.taints a first s else [] }

end RenderPlay

end RenderPlan.Scenario
