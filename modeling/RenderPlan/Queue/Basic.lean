/-
# RenderPlan.Queue.Basic -- pending jobs and what they wait for

The queue is a list of pending jobs in the order of submission. Each waits for the jobs in its
dependency set, and the set shrinks as those jobs are completed. Every operation here is one atomic
step: nobody sees the queue in the middle of it.
-/
import RenderPlan.Error

namespace RenderPlan

/-- The identity of a job. -/
structure JobId where
  index : Nat
  deriving DecidableEq, Repr

/-- A job as it is submitted. -/
structure Job (α : Type) where
  id : JobId
  /-- The jobs to wait for. -/
  deps : List JobId
  lane : Lane
  /-- What is to be done. -/
  payload : α

/-- A job that was submitted and not picked up yet. -/
structure PendingJob (α π : Type) extends Job α where
  /-- The parameters of the submission. -/
  params : π
  /-- No dependency has failed so far. -/
  sound : Bool

/-- The pending jobs, and whether the queue is still running. -/
structure Queue (α π : Type) where
  pending : List (PendingJob α π)
  running : Bool

namespace Queue

variable {α π : Type}

/-- A running queue without jobs. -/
def empty : Queue α π := ⟨[], true⟩

/-- The job is pending, or part of the batch. -/
def isKnown (q : Queue α π) (batch : List (Job α)) (id : JobId) : Bool :=
  q.pending.any (fun p => p.id = id) || batch.any (fun j => j.id = id)

/-- Adds a batch at the end. Dependencies on jobs that are neither pending nor in the batch are
dropped: such a job is done, or was never submitted. -/
def enqueue (q : Queue α π) (batch : List (Job α)) (params : π) : Except Error (Queue α π) :=
  if batch.isEmpty then .ok q
  else if q.running then
    .ok { q with pending := q.pending ++ batch.map fun j =>
      { j with deps := j.deps.filter (q.isKnown batch), params, sound := true } }
  else .error .queueStopped

/-- A worker of the lane may run the job now; a worker without a lane may run any. -/
def isReady (lane : Option Lane) (p : PendingJob α π) : Bool :=
  p.deps.isEmpty && (lane.isNone || lane = some p.lane)

/-- Takes out the first job that is ready for a worker of the lane. -/
def take? (q : Queue α π) (lane : Option Lane) : Option (PendingJob α π × Queue α π) :=
  match q.pending.span fun p => !isReady lane p with
  | (_, []) => none
  | (before, p :: after) => some (p, { q with pending := before ++ after })

/-- Takes a completed job out of a dependency set; if it failed, the job that waited is no longer
sound. -/
def release (id : JobId) (ok : Bool) (p : PendingJob α π) : PendingJob α π :=
  { p with
    deps := p.deps.filter fun d => d ≠ id
    sound := p.sound && (ok || !p.deps.contains id) }

/-- A job is completed. Other pending jobs of the same identity go with it. -/
def complete (q : Queue α π) (id : JobId) (ok : Bool) : Queue α π :=
  { q with pending := (q.pending.filter fun p => p.id ≠ id).map (release id ok) }

/-- The queue without its pending jobs. -/
def clear (q : Queue α π) : Queue α π := { q with pending := [] }

/-- The queue accepts nothing more. The pending jobs stay where they are. -/
def close (q : Queue α π) : Queue α π := { q with running := false }

end Queue

end RenderPlan
