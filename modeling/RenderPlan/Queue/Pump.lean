/-
# RenderPlan.Queue.Pump -- running the jobs of a pool one at a time

A pump lets one worker after the other do whatever it can, each job from its begin to its end
before the next is looked for. It is one particular sequence of the actions of a pool, the same
every time, with one worker for each lane. What a job does while it runs is given by its `Body`.

The lanes take turns in passes. A pass is over the jobs that were pending when it began, so a job
that spawns work for its own lane does not keep the other lane from its turn.
-/
import RenderPlan.Queue.Pool

namespace RenderPlan

/-- What running a job does to the pool and to a state of the caller, and what the job answers. A
barrier has no body. -/
abbrev Body (α π S : Type) := α → PendingJob (Payload α) π → Pool α π × S → (Pool α π × S) × Bool

namespace Pool

variable {α π S : Type}

/-- The job that a worker runs. -/
def running? (p : Pool α π) (worker : Nat) : Option (PendingJob (Payload α) π) :=
  match p.workers[worker]? with
  | some ⟨_, .running job⟩ => some job
  | _ => none

/-- Takes an action if it is possible now. -/
def act (a : Action α π) (p : Pool α π) : Pool α π := (p.step? a).getD p

/-- One pass of a worker: it checks, runs and reports jobs as long as one of the first `old` pending
jobs is ready for it, and at most `jobs` of them. A sleeper is woken first: it may have fallen
asleep before a job came that wakes nobody. Whatever is submitted during the pass comes behind the
old jobs and waits for the next pass. -/
def passOfWorker (body : Body α π S) (worker : Nat) : Nat → Nat → Pool α π × S → Pool α π × S
  | 0, _, ps => ps
  | jobs + 1, old, (p, s) =>
    if (p.queue.pending.take old).any (Queue.isReady (p.laneOf worker)) then
      let p := (p.act (.wake worker)).act (.check worker)
      match p.running? worker with
      | none => (p, s)
      | some job =>
        let ((p, s), ok) := match job.payload with
          | .work a => body a job (p, s)
          | .barrier => ((p, s), true)
        let left := (p.queue.pending.take (old - 1)).countP fun q => q.id ≠ job.id
        passOfWorker body worker jobs left ((p.act (.run worker ok)).act (.report worker), s)
    else (p, s)

/-- The worker that a pump uses for a lane. Where every worker serves every lane, the first one
does all the work, and does it as shared work. -/
def workerFor? (p : Pool α π) (lane : Lane) : Option Nat :=
  p.workers.findIdx? fun w => match w.lane with
    | some l => l = lane
    | none => lane = .shared

/-- One pass of the worker of a lane over the jobs that are pending now. -/
def pass (body : Body α π S) (jobs : Nat) (ps : Pool α π × S) (lane : Lane) : Pool α π × S :=
  match ps.1.workerFor? lane with
  | some worker => passOfWorker body worker jobs ps.1.pendingCount ps
  | none => ps

/-- Runs rounds until one runs nothing. A round is one pass of each of the lanes, in order. -/
def pump (body : Body α π S) (jobs : Nat) (lanes : List Lane) : Nat → Pool α π × S → Pool α π × S
  | 0, ps => ps
  | rounds + 1, ps =>
    let after := lanes.foldl (pass body jobs) ps
    if after.1.history.length = ps.1.history.length then after
    else pump body jobs lanes rounds after

/-- Both lanes take turns, the dedicated one first. -/
def bothLanes : List Lane := [.dedicated, .shared]

/-- Calls `stop`: closes the queue, lets every worker go, and abandons what is pending. -/
def stop (p : Pool α π) : Pool α π :=
  let call := p.shutdowns.length
  let p := p.act .close
  let p := (List.range p.threadCount).foldl (fun p worker => p.act (.check worker)) p
  let jobs := p.pendingCount
  (List.range jobs).foldl (fun p _ => p.act (.abandon call)) (p.act (.join call))

/-- Calls `clear`: takes the pending jobs out and abandons them. -/
def clearAll (p : Pool α π) : Pool α π :=
  let call := p.shutdowns.length
  let jobs := p.pendingCount
  (List.range jobs).foldl (fun p _ => p.act (.abandon call)) (p.act .clear)

end Pool

end RenderPlan
