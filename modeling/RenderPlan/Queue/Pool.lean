/-
# RenderPlan.Queue.Pool -- workers, batches and shutdown as one step machine

A pool is a queue with its workers, the calls of `stop` and `clear` that are under way, and the
batches that somebody waits for. Whatever clients and workers do is a sequence of actions, in any
order that `step?` admits; an action that cannot happen now has no successor. There are no hidden
transitions, so a statement about every interleaving is one about every sequence of actions.

* A worker that is awake checks for work. In one step it takes a job, leaves because the queue is
  stopped, or falls asleep. Submissions, completions that free a job, and `stop` wake all sleepers.
* A worker that took a job runs it, and then reports it done.
* The barrier of a batch is a job that waits for the whole batch. Running it releases the batch
  with whether all of it succeeded; abandoning it releases the batch without an answer. A batch is
  released once and keeps its outcome.
* `stop` closes the queue, waits until the workers are gone, and then abandons what is still
  pending, which stays in the queue. Only the first call of `stop` waits. `clear` takes the pending
  jobs out and abandons them.

The history lists what happened to jobs, the latest first.
-/
import RenderPlan.Queue.Basic
import RenderPlan.Options.Basic

namespace RenderPlan

/-- What a job of a pool does: work that a client supplied, or the release of a batch. -/
inductive Payload (α : Type) where
  | work (a : α)
  | barrier
  deriving DecidableEq, Repr

/-- How a batch ended. -/
inductive BatchOutcome where
  /-- The barrier ran; whether no job of the batch failed. -/
  | completed (ok : Bool)
  /-- The barrier will never run. -/
  | abandoned
  deriving DecidableEq, Repr

/-- What a worker is doing. -/
inductive Activity (α π : Type) where
  | awake
  | asleep
  /-- It has taken the job and runs it. -/
  | running (p : PendingJob α π)
  /-- The job has answered, and has not been reported yet. -/
  | ran (p : PendingJob α π) (ok : Bool)
  | gone

/-- A worker serves one lane, or every lane if it has none. -/
structure Worker (α π : Type) where
  lane : Option Lane
  activity : Activity α π

/-- A call of `stop` or `clear` under way. -/
inductive Shutdown (α π : Type) where
  /-- The queue is closed. `waits` tells whether the call waits for the workers. -/
  | joining (waits : Bool)
  /-- These jobs are still to be abandoned; the call is over when there are none. -/
  | abandoning (jobs : List (PendingJob α π))

/-- What happened to a job. -/
inductive JobEvent (α π : Type) where
  /-- A worker took the job and began to run it. -/
  | began (worker : Nat) (p : PendingJob α π)
  /-- The job was reported done. `answer` is what it said itself, whatever it waited for. -/
  | ended (worker : Nat) (p : PendingJob α π) (answer : Bool)
  /-- The job was told that it will never run. -/
  | abandoned (p : PendingJob α π)

/-- A queue and its workers. `α` is what clients submit, `π` are the parameters of a submission. -/
structure Pool (α π : Type) where
  queue : Queue (Payload α) π
  workers : List (Worker (Payload α) π)
  shutdowns : List (Shutdown (Payload α) π)
  /-- The outcomes of batches, by the identity of the barrier. -/
  outcomes : List (JobId × BatchOutcome)
  history : List (JobEvent (Payload α) π)

/-- What clients and workers can do. -/
inductive Action (α π : Type) where
  /-- Submit jobs. -/
  | enqueue (batch : List (Job α)) (params : π)
  /-- Submit jobs and a barrier behind them. -/
  | runBatch (batch : List (Job α)) (params : π) (barrier : JobId)
  /-- Worker: look for work. -/
  | check (worker : Nat)
  /-- Worker: the job answers. The answer of a barrier does not count. -/
  | run (worker : Nat) (ok : Bool)
  /-- Worker: report the job done. -/
  | report (worker : Nat)
  /-- A sleeper wakes for no reason. -/
  | wake (worker : Nat)
  /-- Begin a call of `stop`. -/
  | close
  /-- A call of `stop` has seen the workers go and turns to the pending jobs. -/
  | join (call : Nat)
  /-- Begin a call of `clear`. -/
  | clear
  /-- A call of `stop` or `clear` abandons its next job. -/
  | abandon (call : Nat)

namespace Activity

variable {α π : Type}

/-- What waking makes of a worker. -/
def woken : Activity α π → Activity α π
  | asleep => awake
  | a => a

def isGone : Activity α π → Bool
  | gone => true
  | _ => false

end Activity

namespace Pool

variable {α π : Type}

/-! ## Construction -/

/-- The lanes of a pool of `count` workers. -/
def lanes (dedicatedLane : Bool) (count : Nat) : List (Option Lane) :=
  (List.range count).map fun i =>
    if dedicatedLane then (if i = 0 then some .dedicated else some .shared) else none

/-- A pool with one worker per lane of the list. -/
def ofLanes (lanes : List (Option Lane)) : Pool α π :=
  ⟨.empty, lanes.map fun lane => ⟨lane, .awake⟩, [], [], []⟩

/-- The number of workers for these settings. `available` is how many the machine runs at once. -/
def workerCount (available : Nat) (o : QueueOptions) : Except Error Nat :=
  match o.threads with
  | some n => if n = 0 then .error .noThreads else .ok (max n.toNat 2)
  | none => .ok (max available 2)

/-- A pool for these settings. -/
def create (available : Nat) (o : QueueOptions) : Except Error (Pool α π) :=
  (workerCount available o).map fun count => ofLanes (lanes o.dedicatedLane count)

/-! ## Reading -/

def threadCount (p : Pool α π) : Nat := p.workers.length

/-- The lane that a worker serves; none for every lane, and for a worker that does not exist. -/
def laneOf (p : Pool α π) (worker : Nat) : Option Lane := p.workers[worker]?.bind Worker.lane

def isRunning (p : Pool α π) : Bool := p.queue.running

def pendingCount (p : Pool α π) : Nat := p.queue.pending.length

/-- How a batch ended, if it did. -/
def outcome? (p : Pool α π) (barrier : JobId) : Option BatchOutcome := p.outcomes.lookup barrier

/-! ## Parts of steps -/

/-- Puts a worker to something else. -/
def setActivity (p : Pool α π) (worker : Nat) (a : Activity (Payload α) π) : Pool α π :=
  { p with workers := p.workers.modify worker fun w => { w with activity := a } }

/-- Wakes all sleepers. -/
def wakeAll (p : Pool α π) : Pool α π :=
  { p with workers := p.workers.map fun w => { w with activity := w.activity.woken } }

def log (p : Pool α π) (e : JobEvent (Payload α) π) : Pool α π :=
  { p with history := e :: p.history }

/-- Releases a batch, unless it was released before. -/
def release (p : Pool α π) (barrier : JobId) (o : BatchOutcome) : Pool α π :=
  if (p.outcome? barrier).isSome then p else { p with outcomes := (barrier, o) :: p.outcomes }

/-- The job that does a client's work. -/
def workJob (j : Job α) : Job (Payload α) := { j with payload := .work j.payload }

/-- The barrier behind a batch. -/
def barrierJob (id : JobId) (batch : List (Job α)) : Job (Payload α) :=
  ⟨id, batch.map Job.id, .shared, .barrier⟩

/-- Submits jobs and wakes the workers. An empty submission does nothing. -/
def submit (p : Pool α π) (batch : List (Job (Payload α))) (params : π) :
    Except Error (Pool α π) :=
  if batch.isEmpty then .ok p
  else (p.queue.enqueue batch params).map fun q => { p with queue := q }.wakeAll

/-- Submits client work. -/
def enqueue (p : Pool α π) (batch : List (Job α)) (params : π) : Except Error (Pool α π) :=
  p.submit (batch.map workJob) params

/-- Submits client work and a barrier behind it. -/
def runBatch (p : Pool α π) (batch : List (Job α)) (params : π) (barrier : JobId) :
    Except Error (Pool α π) :=
  p.submit (batch.map workJob ++ [barrierJob barrier batch]) params

/-- A worker that is awake looks for work. -/
def check (p : Pool α π) (worker : Nat) (lane : Option Lane) : Pool α π :=
  if p.queue.running then
    match p.queue.take? lane with
    | some (job, q) =>
      ({ p with queue := q }.setActivity worker (.running job)).log (.began worker job)
    | none => p.setActivity worker .asleep
  else p.setActivity worker .gone

/-- The job of a worker answers. A barrier releases its batch and always succeeds. -/
def answer (p : Pool α π) (worker : Nat) (job : PendingJob (Payload α) π) (ok : Bool) :
    Pool α π :=
  match job.payload with
  | .work _ => p.setActivity worker (.ran job ok)
  | .barrier =>
    (p.release job.id (.completed job.sound)).setActivity worker (.ran job true)

/-- Some job waits for this one alone. -/
def frees (q : Queue (Payload α) π) (id : JobId) : Bool :=
  q.pending.any fun p => p.id ≠ id && p.deps.contains id && p.deps.all fun d => d = id

/-- A worker reports its job done and is free for the next. The job failed if it said so, or if
something that it waited for had failed. Sleepers are woken when a job became free. -/
def done (p : Pool α π) (worker : Nat) (job : PendingJob (Payload α) π) (answer : Bool) :
    Pool α π :=
  let after := { p with queue := p.queue.complete job.id (job.sound && answer) }
  let after := (after.setActivity worker .awake).log (.ended worker job answer)
  if frees p.queue job.id then after.wakeAll else after

/-- Tells a job that it will never run. -/
def abandonJob (p : Pool α π) (job : PendingJob (Payload α) π) : Pool α π :=
  let p := p.log (.abandoned job)
  match job.payload with
  | .work _ => p
  | .barrier => p.release job.id .abandoned

/-- Some call of `stop` has taken it upon itself to wait for the workers. -/
def isJoined (p : Pool α π) : Bool := !p.queue.running

/-! ## Steps -/

/-- The pool after an action; none if the action cannot happen now. A submission that is refused
leaves the pool as it is. -/
def step? (p : Pool α π) : Action α π → Option (Pool α π)
  | .enqueue batch params =>
    match p.enqueue batch params with
    | .ok p => some p
    | .error _ => some p
  | .runBatch batch params barrier =>
    match p.runBatch batch params barrier with
    | .ok p => some p
    | .error _ => some p
  | .check worker =>
    match p.workers[worker]? with
    | some ⟨lane, .awake⟩ => some (p.check worker lane)
    | _ => none
  | .run worker ok =>
    match p.workers[worker]? with
    | some ⟨_, .running job⟩ => some (p.answer worker job ok)
    | _ => none
  | .report worker =>
    match p.workers[worker]? with
    | some ⟨_, .ran job ok⟩ => some (p.done worker job ok)
    | _ => none
  | .wake worker =>
    match p.workers[worker]? with
    | some ⟨_, .asleep⟩ => some (p.setActivity worker .awake)
    | _ => none
  | .close =>
    some ({ p with
      queue := p.queue.close
      shutdowns := p.shutdowns ++ [Shutdown.joining (!p.isJoined)] }.wakeAll)
  | .join call =>
    match p.shutdowns[call]? with
    | some (.joining waits) =>
      if waits && !p.workers.all fun w => w.activity.isGone then none
      else some { p with shutdowns := p.shutdowns.set call (.abandoning p.queue.pending) }
    | _ => none
  | .clear =>
    some { p with
      queue := p.queue.clear
      shutdowns := p.shutdowns ++ [Shutdown.abandoning p.queue.pending] }
  | .abandon call =>
    match p.shutdowns[call]? with
    | some (.abandoning (job :: jobs)) =>
      some ({ p with shutdowns := p.shutdowns.set call (.abandoning jobs) }.abandonJob job)
    | _ => none

/-- The pool after a sequence of actions, each of which has to be possible in its turn. -/
def run? (p : Pool α π) : List (Action α π) → Option (Pool α π)
  | [] => some p
  | a :: as => (p.step? a).bind fun p => p.run? as

end Pool

end RenderPlan
