/-
# RenderPlan.Proofs.Queue.Steps -- what an action can do to a pool

`Pool.step?` branches on the action, on the activity of a worker and on the queue. `Pool.Step` says
the same once, one rule for each thing that can happen, with everything that it presupposes
(`step?_eq_some_iff`); the other modules look at actions through it.

Most statements about jobs do not care which worker sleeps. For them `Change` sorts the rules by
what becomes of the pending jobs, of the jobs in workers' hands and of the history.
-/
import RenderPlan.Queue.Pool
import Mathlib.Data.List.Perm.Basic
import Mathlib.Data.List.TakeWhile
import Mathlib.Data.List.TakeDrop

namespace RenderPlan

variable {α π : Type}

/-! ## The queue -/

namespace Queue

/-- A submitted job as it becomes pending behind the jobs of the queue. -/
def stamp (q : Queue α π) (batch : List (Job α)) (params : π) (j : Job α) : PendingJob α π :=
  { j with deps := j.deps.filter (q.isKnown batch), params, sound := true }

theorem enqueue_eq_ok {q : Queue α π} {batch : List (Job α)} (params : π) (hb : batch ≠ [])
    (hr : q.running = true) :
    q.enqueue batch params =
      .ok { q with pending := q.pending ++ batch.map (q.stamp batch params) } := by
  have hempty : batch.isEmpty = false := by simpa using hb
  simp only [enqueue, hempty, Bool.false_eq_true, if_false, hr, if_true]
  rfl

theorem isReady_iff {lane : Option Lane} {p : PendingJob α π} :
    isReady lane p = true ↔ p.deps = [] ∧ (lane = none ∨ lane = some p.lane) := by
  simp [isReady]

/-- A worker takes the first job that is ready for its lane. -/
theorem take?_eq_some_iff {q q' : Queue α π} {lane : Option Lane} {job : PendingJob α π} :
    q.take? lane = some (job, q') ↔ ∃ before after, q.pending = before ++ job :: after ∧
      (∀ p ∈ before, isReady lane p = false) ∧ isReady lane job = true ∧
      q' = { q with pending := before ++ after } := by
  unfold take?
  rw [List.span_eq_takeWhile_dropWhile]
  constructor
  · intro h
    split at h
    · cases h
    · next before p after heq =>
        simp only [Prod.mk.injEq] at heq
        cases h
        refine ⟨before, after, ?_, ?_, ?_, rfl⟩
        · rw [← heq.1, ← heq.2, List.takeWhile_append_dropWhile]
        · intro b hb
          rw [← heq.1] at hb
          simpa using List.mem_takeWhile_imp hb
        · have hhead := List.head?_dropWhile_not (fun p => !isReady lane p) q.pending
          rw [heq.2] at hhead
          simpa using hhead
  · rintro ⟨before, after, hpending, hbefore, hready, rfl⟩
    -- the scan stops at the job, since none before it is ready
    have htake : before.takeWhile (fun p => !isReady lane p) = before :=
      List.takeWhile_eq_self_iff.mpr fun p hp => by simp [hbefore p hp]
    have hdrop : before.dropWhile (fun p => !isReady lane p) = [] :=
      List.dropWhile_eq_nil_iff.mpr fun p hp => by simp [hbefore p hp]
    rw [hpending, List.takeWhile_append, List.dropWhile_append, htake, hdrop]
    simp [hready]

theorem take?_eq_none_iff {q : Queue α π} {lane : Option Lane} :
    q.take? lane = none ↔ ∀ p ∈ q.pending, isReady lane p = false := by
  unfold take?
  rw [List.span_eq_takeWhile_dropWhile]
  constructor
  · intro h
    split at h
    · next heq =>
        simp only [Prod.mk.injEq] at heq
        simpa using List.dropWhile_eq_nil_iff.mp heq.2
    · cases h
  · intro h
    have hdrop : q.pending.dropWhile (fun p => !isReady lane p) = [] :=
      List.dropWhile_eq_nil_iff.mpr fun p hp => by simp [h p hp]
    rw [hdrop]

end Queue

/-! ## Workers -/

namespace Activity

/-- The job in the hands of a worker, until it is reported done. -/
def job? : Activity α π → Option (PendingJob α π)
  | running p => some p
  | ran p _ => some p
  | _ => none

@[simp] theorem job?_woken (b : Activity α π) : b.woken.job? = b.job? := by
  cases b <;> rfl

end Activity

/-- The job in the hands of the worker. -/
def Worker.job? (w : Worker α π) : Option (PendingJob α π) := w.activity.job?

/-! ## What is submitted -/

namespace Action

/-- What an action submits, a barrier included, and the parameters. -/
def submission? : Action α π → Option (List (Job (Payload α)) × π)
  | enqueue batch params => some (batch.map Pool.workJob, params)
  | runBatch batch params barrier =>
    some (batch.map Pool.workJob ++ [Pool.barrierJob barrier batch], params)
  | _ => none

/-- The jobs that an action submits. -/
def jobs (a : Action α π) : List (Job (Payload α)) :=
  match a.submission? with
  | some (jobs, _) => jobs
  | none => []

/-- The identities that an action uses up. -/
def ids (a : Action α π) : List JobId := a.jobs.map Job.id

/-- The identities that a sequence of actions uses up. -/
def idsOf (as : List (Action α π)) : List JobId := as.flatMap ids

theorem jobs_of_submission? {a : Action α π} {jobs : List (Job (Payload α))} {params : π}
    (h : a.submission? = some (jobs, params)) : a.jobs = jobs := by
  simp only [Action.jobs, h]

end Action

/-! ## The rules -/

namespace Pool

/-- The pool after accepting a submission. -/
def accept (p : Pool α π) (jobs : List (Job (Payload α))) (params : π) : Pool α π :=
  { p with queue := { p.queue with
      pending := p.queue.pending ++ jobs.map (p.queue.stamp jobs params) } }.wakeAll

/-- The pool after a worker took a job out of the queue and began to run it. -/
def start (p : Pool α π) (worker : Nat) (job : PendingJob (Payload α) π)
    (left : List (PendingJob (Payload α) π)) : Pool α π :=
  ({ p with queue := { p.queue with pending := left } }.setActivity worker (.running job)).log
    (.began worker job)

/-- What an action does to a pool, one rule for each thing that can happen. -/
inductive Step (p : Pool α π) : Action α π → Pool α π → Prop where
  | submit {a jobs params} (ha : a.submission? = some (jobs, params)) (hjobs : jobs ≠ [])
      (hr : p.queue.running = true) : Step p a (p.accept jobs params)
  /-- Nothing is submitted, or the queue is stopped. -/
  | refuse {a jobs params} (ha : a.submission? = some (jobs, params))
      (h : jobs = [] ∨ p.queue.running = false) : Step p a p
  | take {w lane job before after} (hw : p.workers[w]? = some ⟨lane, .awake⟩)
      (hr : p.queue.running = true) (hpending : p.queue.pending = before ++ job :: after)
      (hbefore : ∀ b ∈ before, Queue.isReady lane b = false)
      (hready : Queue.isReady lane job = true) :
      Step p (.check w) (p.start w job (before ++ after))
  | sleep {w lane} (hw : p.workers[w]? = some ⟨lane, .awake⟩) (hr : p.queue.running = true)
      (hidle : ∀ b ∈ p.queue.pending, Queue.isReady lane b = false) :
      Step p (.check w) (p.setActivity w .asleep)
  | leave {w lane} (hw : p.workers[w]? = some ⟨lane, .awake⟩) (hr : p.queue.running = false) :
      Step p (.check w) (p.setActivity w .gone)
  | answer {w lane job ok} (hw : p.workers[w]? = some ⟨lane, .running job⟩) :
      Step p (.run w ok) (p.answer w job ok)
  | report {w lane job ok} (hw : p.workers[w]? = some ⟨lane, .ran job ok⟩) :
      Step p (.report w) (p.done w job ok)
  | wake {w lane} (hw : p.workers[w]? = some ⟨lane, .asleep⟩) :
      Step p (.wake w) (p.setActivity w .awake)
  | close : Step p .close ({ p with
      queue := p.queue.close
      shutdowns := p.shutdowns ++ [Shutdown.joining (!p.isJoined)] }.wakeAll)
  | join {call waits} (hcall : p.shutdowns[call]? = some (.joining waits))
      (hgone : waits = true → ∀ w ∈ p.workers, w.activity.isGone = true) :
      Step p (.join call)
        { p with shutdowns := p.shutdowns.set call (.abandoning p.queue.pending) }
  | clear : Step p .clear { p with
      queue := p.queue.clear
      shutdowns := p.shutdowns ++ [Shutdown.abandoning p.queue.pending] }
  | abandon {call job jobs} (hcall : p.shutdowns[call]? = some (.abandoning (job :: jobs))) :
      Step p (.abandon call)
        ({ p with shutdowns := p.shutdowns.set call (.abandoning jobs) }.abandonJob job)

variable {p q : Pool α π} {a : Action α π}

theorem submit_eq_ok {jobs : List (Job (Payload α))} (params : π) (hjobs : jobs ≠ [])
    (hr : p.queue.running = true) : p.submit jobs params = .ok (p.accept jobs params) := by
  have hempty : jobs.isEmpty = false := by simpa using hjobs
  simp only [submit, hempty, Bool.false_eq_true, if_false, Queue.enqueue_eq_ok params hjobs hr]
  rfl

theorem submit_eq_error {jobs : List (Job (Payload α))} (params : π) (hjobs : jobs ≠ [])
    (hstopped : p.queue.running = false) : p.submit jobs params = .error .queueStopped := by
  have hempty : jobs.isEmpty = false := by simpa using hjobs
  simp only [submit, Queue.enqueue, hempty, Bool.false_eq_true, if_false, hstopped]
  rfl

theorem submit_refused {jobs : List (Job (Payload α))} (params : π)
    (h : jobs = [] ∨ p.queue.running = false) :
    p.submit jobs params = .ok p ∨ ∃ e, p.submit jobs params = .error e := by
  by_cases hjobs : jobs = []
  · subst hjobs
    exact Or.inl rfl
  · exact Or.inr ⟨_, submit_eq_error params hjobs (h.resolve_left hjobs)⟩

/-- The two ways to submit are one. -/
theorem step?_of_submission? {jobs : List (Job (Payload α))} {params : π}
    (ha : a.submission? = some (jobs, params)) :
    p.step? a = match p.submit jobs params with
      | .ok q => some q
      | .error _ => some p := by
  cases a with
  | enqueue batch params => cases ha; rfl
  | runBatch batch params barrier => cases ha; rfl
  | _ => cases ha

theorem step_of_submission? {jobs : List (Job (Payload α))} {params : π}
    (ha : a.submission? = some (jobs, params)) (h : p.step? a = some q) : p.Step a q := by
  rw [step?_of_submission? ha] at h
  by_cases hjobs : jobs = [] ∨ p.queue.running = false
  · have hq : q = p := by
      rcases submit_refused (p := p) params hjobs with hs | ⟨e, hs⟩
      · rw [hs] at h
        exact (Option.some.inj h).symm
      · rw [hs] at h
        exact (Option.some.inj h).symm
    rw [hq]
    exact .refuse ha hjobs
  · obtain ⟨hjobs, hr⟩ := not_or.mp hjobs
    rw [Bool.not_eq_false] at hr
    rw [submit_eq_ok params hjobs hr] at h
    cases h
    exact .submit ha hjobs hr

/-- Every action that is possible is one of the rules. -/
theorem Step.of_step? (h : p.step? a = some q) : p.Step a q := by
  cases a with
  | enqueue batch params => exact step_of_submission? rfl h
  | runBatch batch params barrier => exact step_of_submission? rfl h
  | check w =>
      simp only [step?] at h
      split at h
      · next lane hw =>
          cases h
          unfold check
          split
          · next hr =>
              split
              · next job q' htake =>
                  obtain ⟨before, after, hpending, hbefore, hready, rfl⟩ :=
                    Queue.take?_eq_some_iff.mp htake
                  exact .take hw hr hpending hbefore hready
              · next htake => exact .sleep hw hr (Queue.take?_eq_none_iff.mp htake)
          · next hr => exact .leave hw (Bool.not_eq_true _ ▸ hr)
      · cases h
  | run w ok =>
      simp only [step?] at h
      split at h
      · next lane job hw =>
          cases h
          exact .answer hw
      · cases h
  | report w =>
      simp only [step?] at h
      split at h
      · next lane job ok hw =>
          cases h
          exact .report hw
      · cases h
  | wake w =>
      simp only [step?] at h
      split at h
      · next lane hw =>
          cases h
          exact .wake hw
      · cases h
  | close =>
      cases h
      exact .close
  | join call =>
      simp only [step?] at h
      split at h
      · next waits hcall =>
          split at h
          · cases h
          · next hgone =>
              cases h
              exact .join hcall fun hwaits => by simpa [hwaits] using hgone
      · cases h
  | clear =>
      cases h
      exact .clear
  | abandon call =>
      simp only [step?] at h
      split at h
      · next job jobs hcall =>
          cases h
          exact .abandon hcall
      · cases h

/-- The rules are possible actions, and the action leads where the rule says. -/
theorem Step.step?_eq (h : p.Step a q) : p.step? a = some q := by
  cases h with
  | submit ha hjobs hr => rw [step?_of_submission? ha, submit_eq_ok _ hjobs hr]
  | @refuse _ jobs params ha h =>
      rw [step?_of_submission? ha]
      rcases submit_refused (p := p) params h with hs | ⟨e, hs⟩ <;> rw [hs]
  | take hw hr hpending hbefore hready =>
      have htake := Queue.take?_eq_some_iff.mpr ⟨_, _, hpending, hbefore, hready, rfl⟩
      simp only [step?, hw, check, hr, if_true, htake, start]
  | sleep hw hr hidle =>
      simp only [step?, hw, check, hr, if_true, Queue.take?_eq_none_iff.mpr hidle]
  | leave hw hr => simp only [step?, hw, check, hr, Bool.false_eq_true, if_false]
  | answer hw => simp only [step?, hw]
  | report hw => simp only [step?, hw]
  | wake hw => simp only [step?, hw]
  | close => rfl
  | @join call waits hcall hgone =>
      -- a call that does not wait has nothing to check
      have hall : (waits && !p.workers.all fun w => w.activity.isGone) = false := by
        cases waits with
        | false => rfl
        | true => simpa using hgone rfl
      simp only [step?, hcall, hall, Bool.false_eq_true, if_false]
  | clear => rfl
  | abandon hcall => simp only [step?, hcall]

theorem step?_eq_some_iff : p.step? a = some q ↔ p.Step a q := ⟨Step.of_step?, Step.step?_eq⟩

/-! ## Jobs in workers' hands -/

/-- The jobs that workers have taken and not reported yet. -/
def held (p : Pool α π) : List (PendingJob (Payload α) π) := p.workers.filterMap Worker.job?

/-- Giving a worker something else to do leaves the other workers alone. -/
theorem workers_setActivity {w : Nat} {x : Worker (Payload α) π} (hw : p.workers[w]? = some x)
    (b : Activity (Payload α) π) :
    ∃ before after, p.workers = before ++ x :: after ∧
      (p.setActivity w b).workers = before ++ { x with activity := b } :: after := by
  obtain ⟨hlt, rfl⟩ := List.getElem?_eq_some_iff.mp hw
  refine ⟨p.workers.take w, p.workers.drop (w + 1), ?_, ?_⟩
  · rw [List.getElem_cons_drop, List.take_append_drop]
  · simp only [setActivity]
    rw [List.modify_eq_take_cons_drop hlt]

/-- The worker's job is exchanged, and the others keep theirs. -/
theorem held_setActivity {w : Nat} {x : Worker (Payload α) π} (hw : p.workers[w]? = some x)
    (b : Activity (Payload α) π) :
    ∃ others, p.held.Perm (x.activity.job?.toList ++ others) ∧
      (p.setActivity w b).held.Perm (b.job?.toList ++ others) := by
  obtain ⟨before, after, hp, hq⟩ := workers_setActivity hw b
  -- whatever the worker in the middle has in hand comes to the front
  have hmove : ∀ y : Worker (Payload α) π, ((before ++ y :: after).filterMap Worker.job?).Perm
      (y.activity.job?.toList ++ (before.filterMap Worker.job? ++ after.filterMap Worker.job?)) := by
    intro y
    have hcons : (y :: after).filterMap Worker.job? =
        y.activity.job?.toList ++ after.filterMap Worker.job? := by
      cases hy : y.activity.job? with
      | none => simp [Worker.job?, hy]
      | some j => simp [Worker.job?, hy]
    rw [List.filterMap_append, hcons]
    exact List.perm_append_comm_assoc _ _ _
  refine ⟨before.filterMap Worker.job? ++ after.filterMap Worker.job?, ?_, ?_⟩
  · rw [held, hp]
    exact hmove x
  · rw [held, hq]
    exact hmove { x with activity := b }

@[simp] theorem held_wakeAll (p : Pool α π) : p.wakeAll.held = p.held := by
  simp only [held, wakeAll, List.filterMap_map]
  congr 1
  funext w
  simp [Worker.job?]

@[simp] theorem queue_release (p : Pool α π) (barrier : JobId) (o : BatchOutcome) :
    (p.release barrier o).queue = p.queue := by
  unfold release
  split <;> rfl

@[simp] theorem workers_release (p : Pool α π) (barrier : JobId) (o : BatchOutcome) :
    (p.release barrier o).workers = p.workers := by
  unfold release
  split <;> rfl

@[simp] theorem history_release (p : Pool α π) (barrier : JobId) (o : BatchOutcome) :
    (p.release barrier o).history = p.history := by
  unfold release
  split <;> rfl

theorem queue_answer (p : Pool α π) (w : Nat) (job : PendingJob (Payload α) π) (ok : Bool) :
    (p.answer w job ok).queue = p.queue := by
  unfold Pool.answer
  cases job.payload with
  | work _ => rfl
  | barrier => exact queue_release _ _ _

theorem history_answer (p : Pool α π) (w : Nat) (job : PendingJob (Payload α) π) (ok : Bool) :
    (p.answer w job ok).history = p.history := by
  unfold Pool.answer
  cases job.payload with
  | work _ => rfl
  | barrier => exact history_release _ _ _

/-- Abandoning a job shows in the history, and may release a batch. -/
theorem abandonJob_fields (p : Pool α π) (job : PendingJob (Payload α) π) :
    (p.abandonJob job).queue = p.queue ∧ (p.abandonJob job).workers = p.workers ∧
      (p.abandonJob job).history = .abandoned job :: p.history := by
  unfold abandonJob
  cases job.payload with
  | work _ => exact ⟨rfl, rfl, rfl⟩
  | barrier => simp [log]

/-- Reporting a job frees the worker, takes the job out of the queue and shows in the history. -/
theorem done_fields (p : Pool α π) (w : Nat) (job : PendingJob (Payload α) π) (answer : Bool) :
    (p.done w job answer).queue = p.queue.complete job.id (job.sound && answer) ∧
      (p.done w job answer).held = (p.setActivity w .awake).held ∧
      (p.done w job answer).history = .ended w job answer :: p.history := by
  unfold done
  split
  · exact ⟨rfl, held_wakeAll _, rfl⟩
  · exact ⟨rfl, rfl, rfl⟩

/-- A queue that was stopped stays so. -/
theorem Step.running_of_running (hs : p.Step a q) (h : q.queue.running = true) :
    p.queue.running = true := by
  cases hs with
  | answer _ => rwa [queue_answer] at h
  | @report w _ job ok _ => rwa [(done_fields p w job ok).1] at h
  | abandon _ => rwa [(abandonJob_fields _ _).1] at h
  | close => cases h
  | _ => exact h

/-! ## What workers do -/

theorem forall_setActivity {P : Activity (Payload α) π → Prop}
    (h : ∀ x ∈ p.workers, P x.activity) (w : Nat) {b : Activity (Payload α) π} (hb : P b) :
    ∀ x ∈ (p.setActivity w b).workers, P x.activity := by
  intro x hx
  obtain ⟨v, hv⟩ := List.getElem?_of_mem hx
  rw [setActivity, List.getElem?_modify] at hv
  obtain ⟨y, hy, rfl⟩ := Option.map_eq_some_iff.mp hv
  split
  · exact hb
  · exact h y (List.mem_of_getElem? hy)

theorem forall_wakeAll {P : Activity (Payload α) π → Prop} (h : ∀ x ∈ p.workers, P x.activity)
    (hawake : P .awake) : ∀ x ∈ p.wakeAll.workers, P x.activity := by
  intro x hx
  obtain ⟨y, hy, rfl⟩ := List.mem_map.mp hx
  have hPy := h y hy
  cases hact : y.activity <;> rw [hact] at hPy
  case asleep => exact hawake
  all_goals exact hPy

/-- What every worker does keeps a property, if the activities that a step can lead to have it. -/
theorem Step.forall_activity {P : Activity (Payload α) π → Prop} (hs : p.Step a q)
    (h : ∀ x ∈ p.workers, P x.activity) (hawake : P .awake) (hasleep : P .asleep)
    (hgone : p.queue.running = false → P .gone)
    (hrunning : ∀ job ∈ p.queue.pending, P (.running job))
    (hran : ∀ {w lane job ok}, p.workers[w]? = some ⟨lane, .running job⟩ →
      q = p.answer w job ok → ∀ answer, P (.ran job answer)) :
    ∀ x ∈ q.workers, P x.activity := by
  cases hs with
  | submit _ _ _ => exact forall_wakeAll (p := { p with queue := _ }) h hawake
  | refuse _ _ => exact h
  | @take w _ job before after _ _ hpending _ _ =>
      have hjob := hrunning job (by rw [hpending]; simp)
      exact forall_setActivity (p := { p with queue := _ }) h w hjob
  | sleep _ _ _ => exact forall_setActivity h _ hasleep
  | leave _ hr => exact forall_setActivity h _ (hgone hr)
  | @answer w _ job ok hw =>
      have hanswer := hran hw rfl
      unfold Pool.answer
      cases job.payload with
      | work _ => exact forall_setActivity h _ (hanswer _)
      | barrier =>
          refine forall_setActivity ?_ _ (hanswer _)
          rwa [workers_release]
  | @report w _ job ok _ =>
      have hset := forall_setActivity h w hawake
      unfold Pool.done
      split
      · exact forall_wakeAll (p := (Pool.setActivity { p with queue := _ } w .awake).log _)
          hset hawake
      · exact hset
  | wake _ => exact forall_setActivity h _ hawake
  | close => exact forall_wakeAll (p := { p with queue := _, shutdowns := _ }) h hawake
  | join _ _ => exact h
  | clear => exact h
  | @abandon call job jobs _ =>
      rw [(abandonJob_fields _ job).2.1]
      exact h

theorem map_lane_setActivity (p : Pool α π) (w : Nat) (b : Activity (Payload α) π) :
    (p.setActivity w b).workers.map Worker.lane = p.workers.map Worker.lane := by
  apply List.ext_getElem?
  intro i
  simp only [setActivity, List.getElem?_map, List.getElem?_modify]
  cases p.workers[i]? with
  | none => rfl
  | some x =>
      show some (if w = i then ({ x with activity := b } : Worker (Payload α) π) else x).lane = _
      split <;> rfl

theorem map_lane_wakeAll (p : Pool α π) :
    p.wakeAll.workers.map Worker.lane = p.workers.map Worker.lane := by
  rw [wakeAll, List.map_map]
  rfl

/-- Every worker keeps its lane. -/
theorem Step.map_lane (hs : p.Step a q) :
    q.workers.map Worker.lane = p.workers.map Worker.lane := by
  cases hs with
  | submit _ _ _ => exact map_lane_wakeAll { p with queue := _ }
  | refuse _ _ => rfl
  | take _ _ _ _ _ => exact map_lane_setActivity { p with queue := _ } _ _
  | sleep _ _ _ | leave _ _ | wake _ => exact map_lane_setActivity p _ _
  | @answer w _ job ok _ =>
      unfold Pool.answer
      cases job.payload with
      | work _ => exact map_lane_setActivity p _ _
      | barrier => rw [map_lane_setActivity, workers_release]
  | @report w _ job ok _ =>
      have hset := map_lane_setActivity { p with queue := p.queue.complete job.id (job.sound && ok) }
        w .awake
      unfold Pool.done
      split
      · rw [map_lane_wakeAll]
        exact hset
      · exact hset
  | close => exact map_lane_wakeAll { p with queue := _, shutdowns := _ }
  | join _ _ => rfl
  | clear => rfl
  | @abandon call job jobs _ => rw [(abandonJob_fields _ job).2.1]

theorem Step.length_workers (hs : p.Step a q) : q.workers.length = p.workers.length := by
  rw [← List.length_map (f := Worker.lane), hs.map_lane, List.length_map]

/-! ## What becomes of jobs -/

/-- What an action does to the pending jobs, to those in workers' hands and to the history. -/
inductive Change (p : Pool α π) (a : Action α π) (q : Pool α π) : Prop where
  /-- No job moves. Some job may be told that it will never run. -/
  | quiet (hpending : q.queue.pending = p.queue.pending) (hheld : q.held.Perm p.held)
      (hhistory : q.history = p.history ∨ ∃ job, q.history = .abandoned job :: p.history)
      (hnone : p.queue.running = true → a.jobs = []) (ha : a ≠ .clear)
  | accepted {jobs params} (ha : a.submission? = some (jobs, params))
      (hpending : q.queue.pending = p.queue.pending ++ jobs.map (p.queue.stamp jobs params))
      (hheld : q.held = p.held) (hhistory : q.history = p.history)
      (hr : p.queue.running = true)
  | began {w job before after} (hready : job.deps = [])
      (hpending : p.queue.pending = before ++ job :: after)
      (hleft : q.queue.pending = before ++ after) (hheld : q.held.Perm (job :: p.held))
      (hhistory : q.history = .began w job :: p.history) (hr : p.queue.running = true)
      (ha : a = .check w)
  | ended {w job answer} (hheld : p.held.Perm (job :: q.held))
      (hpending : q.queue.pending = (p.queue.complete job.id (job.sound && answer)).pending)
      (hhistory : q.history = .ended w job answer :: p.history) (ha : a = .report w)
  | cleared (hpending : q.queue.pending = []) (hheld : q.held = p.held)
      (hhistory : q.history = p.history) (ha : a = .clear)

theorem Step.change (h : p.Step a q) : p.Change a q := by
  cases h with
  | submit ha hjobs hr => exact .accepted ha rfl (held_wakeAll _) rfl hr
  | @refuse _ jobs params ha h =>
      refine .quiet rfl (.refl _) (.inl rfl) (fun hr => ?_) ?_
      · rw [Action.jobs_of_submission? ha]
        rcases h with hjobs | hstopped
        · exact hjobs
        · rw [hr] at hstopped
          cases hstopped
      · rintro rfl
        cases ha
  | @take w lane job before after hw hr hpending hbefore hready =>
      obtain ⟨others, hp, hq⟩ := held_setActivity hw (.running job)
      refine .began (Queue.isReady_iff.mp hready).1 hpending rfl ?_ rfl hr rfl
      exact hq.trans (List.Perm.cons job hp.symm)
  | sleep hw hr hidle =>
      obtain ⟨others, hp, hq⟩ := held_setActivity hw .asleep
      exact .quiet rfl (hq.trans hp.symm) (.inl rfl) (fun _ => rfl) nofun
  | leave hw hr =>
      obtain ⟨others, hp, hq⟩ := held_setActivity hw .gone
      exact .quiet rfl (hq.trans hp.symm) (.inl rfl) (fun _ => rfl) nofun
  | @answer w lane job ok hw =>
      unfold Pool.answer
      cases job.payload with
      | work _ =>
          obtain ⟨others, hp, hq⟩ := held_setActivity hw (.ran job ok)
          exact .quiet rfl (hq.trans hp.symm) (.inl rfl) (fun _ => rfl) nofun
      | barrier =>
          -- the release of the batch touches no worker
          have hw' : (p.release job.id (.completed job.sound)).workers[w]? =
              some ⟨lane, .running job⟩ := by
            rw [workers_release, hw]
          obtain ⟨others, hp, hq⟩ := held_setActivity hw' (.ran job true)
          have hheld : (p.release job.id (.completed job.sound)).held = p.held := by
            rw [held, held, workers_release]
          refine .quiet ?_ (hq.trans (hheld ▸ hp.symm)) (.inl ?_) (fun _ => rfl) nofun
          · exact congrArg Queue.pending (queue_release p _ _)
          · exact history_release p _ _
  | @report w lane job ok hw =>
      obtain ⟨hqueue, hdone, hhistory⟩ := done_fields p w job ok
      obtain ⟨others, hp, hq⟩ := held_setActivity hw .awake
      refine .ended ?_ (congrArg Queue.pending hqueue) hhistory rfl
      rw [hdone]
      exact hp.trans (List.Perm.cons job hq.symm)
  | wake hw =>
      obtain ⟨others, hp, hq⟩ := held_setActivity hw .awake
      exact .quiet rfl (hq.trans hp.symm) (.inl rfl) (fun _ => rfl) nofun
  | close => exact .quiet rfl (.of_eq (held_wakeAll _)) (.inl rfl) (fun _ => rfl) nofun
  | join hcall hgone => exact .quiet rfl (.refl _) (.inl rfl) (fun _ => rfl) nofun
  | clear => exact .cleared rfl rfl rfl rfl
  | @abandon call job jobs hcall =>
      obtain ⟨hqueue, hworkers, hhistory⟩ :=
        abandonJob_fields { p with shutdowns := p.shutdowns.set call (.abandoning jobs) } job
      refine .quiet (congrArg Queue.pending hqueue) ?_ (.inr ⟨job, hhistory⟩) (fun _ => rfl) nofun
      rw [held, held, hworkers]

end Pool

end RenderPlan
