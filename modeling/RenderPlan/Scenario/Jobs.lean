/-
# RenderPlan.Scenario.Jobs -- a pool driven by named jobs

Jobs described by data are submitted to a pool, and the pool is pumped between the submissions. A
job is built by binding its name to an identity; dependencies name jobs, and a name that was never
bound stands for a job that does not exist. A running job first submits the jobs that it spawns,
with its own parameters, and answers after that.
-/
import RenderPlan.Queue.Pump
import RenderPlan.Json.Basic

namespace RenderPlan.Scenario

/-- A job described by data. -/
structure JobSpec where
  name : String
  /-- The lane that the job asks for, if it asks for any. -/
  ownLane : Option Lane
  /-- The job says so when it is abandoned. -/
  reportsAbandon : Bool
  conduct : Conduct
  deps : List String
  /-- Take the identity that this name is bound to. -/
  sameIdAs : Option String
  /-- Jobs to submit while running. -/
  spawn : List JobSpec

namespace JobSpec

mutual

/-- How many jobs can come of a job: itself, and what comes of those that it spawns. -/
def weight : JobSpec → Nat
  | ⟨_, _, _, _, _, _, spawn⟩ => 1 + totalWeight spawn

/-- How many jobs can come of a list of jobs. -/
def totalWeight : List JobSpec → Nat
  | [] => 0
  | j :: js => weight j + totalWeight js

end

end JobSpec

/-- Whether the conduct lets a task answer well. -/
def answers (c : Conduct) (sound : Bool) : Bool :=
  !c.panics && c.succeeds && (sound || !c.needsSound)

/-- The identities that names are bound to, the latest binding first, and the next free one. -/
structure Bindings where
  names : List (String × JobId)
  next : Nat

namespace Bindings

def fresh (b : Bindings) : JobId × Bindings := (⟨b.next⟩, { b with next := b.next + 1 })

/-- The identity of a name, a fresh one if the name is not bound. -/
def find (b : Bindings) (name : String) : JobId × Bindings :=
  match b.names.lookup name with
  | some id => (id, b)
  | none => b.fresh

/-- Gives a job its identity and binds its name to it. -/
def bind (b : Bindings) (j : JobSpec) : JobId × Bindings :=
  let (id, b) := match j.sameIdAs with
    | some name => b.find name
    | none => b.fresh
  (id, { b with names := (j.name, id) :: b.names })

/-- Looks up names in order. -/
def findAll (b : Bindings) : List String → List JobId × Bindings
  | [] => ([], b)
  | name :: names =>
    let (id, b) := b.find name
    let (ids, b) := b.findAll names
    (id :: ids, b)

/-- Gives jobs their identities in order. -/
def bindAll (b : Bindings) : List JobSpec → List (JobId × JobSpec) × Bindings
  | [] => ([], b)
  | j :: js =>
    let (id, b) := b.bind j
    let (rest, b) := b.bindAll js
    ((id, j) :: rest, b)

/-- Looks up the dependencies of jobs in order. -/
def link (b : Bindings) : List (JobId × JobSpec) → List (Job JobSpec) × Bindings
  | [] => ([], b)
  | (id, j) :: rest =>
    let (deps, b) := b.findAll j.deps
    let (jobs, b) := b.link rest
    (⟨id, deps, j.ownLane.getD .shared, j⟩ :: jobs, b)

/-- Builds jobs: all identities are given before any dependency is looked up. -/
def build (b : Bindings) (specs : List JobSpec) : List (Job JobSpec) × Bindings :=
  let (bound, b) := b.bindAll specs
  b.link bound

end Bindings

/-- A batch that somebody waits for. -/
structure Waiting where
  label : String
  barrier : JobId

/-- A pool, the names in use, and the batches that are waited for. -/
structure JobSession where
  pool : Pool JobSpec Json
  bindings : Bindings
  waiting : List Waiting

/-- A step of a scenario. -/
inductive JobStep where
  | enqueue (jobs : List JobSpec) (params : Json)
  /-- Submit the first of the jobs; all of them get names. -/
  | enqueueOne (jobs : List JobSpec) (params : Json)
  | runBatch (label : String) (jobs : List JobSpec) (params : Json)
  /-- Run what a lane can run, or what both can. -/
  | pump (lane : Option Lane)
  | clear
  | stop
  | info

/-- A job that was run: its name, whether it was sound, its parameters, and the lane of
the worker. -/
structure RanJob where
  name : String
  sound : Bool
  params : Json
  lane : Option Lane

/-- What a step answers, and what happened during it. -/
structure JobAnswer where
  result : Except Error Unit
  ran : List RanJob
  abandoned : List String
  /-- The batches that returned, by label. -/
  returned : List (String × Except Error Bool)
  pending : Nat
  running : Bool

namespace JobSession

/-- A session on a new pool. -/
def start (available : Nat) (o : QueueOptions) : Except Error JobSession :=
  (Pool.create available o).map fun pool => ⟨pool, ⟨[], 0⟩, []⟩

/-- What running a job does: it submits what it spawns. -/
def body : Body JobSpec Json Bindings := fun spec job (pool, bindings) =>
  let (jobs, bindings) := bindings.build spec.spawn
  let pool := match pool.enqueue jobs job.params with
    | .ok pool => pool
    | .error _ => pool
  ((pool, bindings), answers spec.conduct job.sound)

/-- How many jobs can still come of what is pending. -/
def workLeft (s : JobSession) : Nat :=
  (s.pool.queue.pending.map fun p => match p.payload with
    | .work j => j.weight
    | .barrier => 1).foldr (· + ·) 0

/-- Runs what can be run. -/
def pump (lane : Option Lane) (s : JobSession) : JobSession :=
  let jobs := s.workLeft
  let lanes := match lane with
    | some lane => [lane]
    | none => Pool.bothLanes
  let (pool, bindings) := Pool.pump body jobs lanes (jobs + 1) (s.pool, s.bindings)
  { s with pool, bindings }

/-- Submits jobs that were built. -/
def submit (jobs : List (Job JobSpec)) (params : Json) (s : JobSession) :
    JobSession × Except Error Unit :=
  match s.pool.enqueue jobs params with
  | .ok pool => ({ s with pool }, .ok ())
  | .error e => (s, .error e)

/-- Performs a step. A batch that is refused returns at once. -/
def perform (s : JobSession) : JobStep →
    JobSession × Except Error Unit × List (String × Except Error Bool)
  | .enqueue specs params =>
    let (jobs, bindings) := s.bindings.build specs
    let (s, result) := submit jobs params { s with bindings }
    (s, result, [])
  | .enqueueOne specs params =>
    let (jobs, bindings) := s.bindings.build specs
    let (s, result) := submit (jobs.take 1) params { s with bindings }
    (s, result, [])
  | .runBatch label specs params =>
    let (jobs, bindings) := s.bindings.build specs
    let (barrier, bindings) := bindings.fresh
    match s.pool.runBatch jobs params barrier with
    | .ok pool =>
      ({ s with pool, bindings, waiting := s.waiting ++ [⟨label, barrier⟩] }, .ok (), [])
    | .error e => ({ s with bindings }, .ok (), [(label, .error e)])
  | .pump lane => (s.pump lane, .ok (), [])
  | .clear => ({ s with pool := s.pool.clearAll }, .ok (), [])
  | .stop => ({ s with pool := s.pool.stop }, .ok (), [])
  | .info => (s, .ok (), [])

/-- The answer that a waiting batch returns, if it is over. -/
def returnOf? (pool : Pool JobSpec Json) (w : Waiting) : Option (String × Except Error Bool) :=
  (pool.outcome? w.barrier).map fun
    | .completed ok => (w.label, .ok ok)
    | .abandoned => (w.label, .error .batchAbandoned)

/-- The run that an event tells of. Barriers are not shown. -/
def ranOf? (pool : Pool JobSpec Json) : JobEvent (Payload JobSpec) Json → Option RanJob
  | .began worker ⟨⟨_, _, _, .work j⟩, params, sound⟩ =>
    some ⟨j.name, sound, params, pool.laneOf worker⟩
  | _ => none

/-- The name of the job that an event tells to be abandoned, if the job says so. -/
def abandonedOf? : JobEvent (Payload JobSpec) Json → Option String
  | .abandoned ⟨⟨_, _, _, .work j⟩, _, _⟩ => if j.reportsAbandon then some j.name else none
  | _ => none

/-- Performs a step and tells what happened during it. -/
def step (s : JobSession) (a : JobStep) : JobSession × JobAnswer :=
  let (after, result, refused) := s.perform a
  let events := (after.pool.history.take
    (after.pool.history.length - s.pool.history.length)).reverse
  let returned := refused ++ after.waiting.filterMap (returnOf? after.pool)
  let still := after.waiting.filter fun w => (after.pool.outcome? w.barrier).isNone
  ({ after with waiting := still },
    { result
      ran := events.filterMap (ranOf? after.pool)
      abandoned := events.filterMap abandonedOf?
      returned := returned.mergeSort fun a b => !decide (b.1 < a.1)
      pending := after.pool.pendingCount
      running := after.pool.isRunning })

end JobSession

end RenderPlan.Scenario
