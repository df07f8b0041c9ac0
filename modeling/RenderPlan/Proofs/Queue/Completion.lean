/-
# RenderPlan.Proofs.Queue.Completion -- a batch on a running queue comes to its end

A pool rests if nobody has a job in hand and nobody could take one (`Resting`); so it is when all
workers have fallen asleep. If the queue still runs then, every batch without circles that was
submitted to it has come to its end, whatever else the clients submitted (`Reached.completed`): of the
jobs that have not ended the first one would wait for nothing, and somebody could take it.

A pump runs jobs, one after the other, until the pool rests (`pumped_pump`). It is one of the ways in
which a batch comes to its end.
-/
import RenderPlan.Proofs.Queue.Custody
import RenderPlan.Proofs.Queue.Pump
import RenderPlan.Proofs.Queue.Shutdown
import RenderPlan.Proofs.Queue.Wakeups

namespace RenderPlan

/-- Where a job of a client ended, it answered what the verdict on it is. -/
def JobEvent.AnswersAs {α π : Type} (verdict : α → PendingJob (Payload α) π → Bool) :
    JobEvent (Payload α) π → Prop
  | ended _ job answer => ∀ a, job.payload = .work a → answer = verdict a job
  | _ => True

namespace Pool

variable {α π : Type} {p q pool : Pool α π} {a : Action α π} {as before after : List (Action α π)}
  {jobs : List (Job (Payload α))} {params : π}

/-! ## Pools at rest -/

/-- Nobody has a job in hand, and nobody could take one. -/
structure Resting (p : Pool α π) : Prop where
  held : p.held = []
  idle : ∀ x ∈ p.workers, ∀ j ∈ p.queue.pending, Queue.isReady x.lane j = false

/-- Where all sleep, there is nothing to do. -/
theorem Leads.resting_of_asleep (h : pool.Leads as p)
    (hasleep : ∀ x ∈ p.workers, x.activity = .asleep) : p.Resting where
  held := by
    refine List.filterMap_eq_nil_iff.mpr fun x hx => ?_
    rw [Worker.job?, hasleep x hx]
    rfl
  idle x hx := (h.alert x hx (hasleep x hx)).2

/-! ## Batches come to their end -/

/-- What was submitted to a queue that is neither stopped nor cleared stays in the pool. -/
theorem Reached.mem_ids_of_submitted (h : pool.Reached (before ++ a :: after) q)
    (hrunning : q.queue.running = true) (hclear : .clear ∉ after) {i : JobId} (hi : i ∈ a.ids) :
    i ∈ q.ids := by
  obtain ⟨p, hp, hfresh, hrun⟩ := h.split
  obtain ⟨r, hstep, hrest⟩ := run?_cons_eq_some hrun
  have hopen : p.queue.running = true := by
    rw [← Bool.not_eq_false, hp.leads.stopped_iff]
    intro hclose
    have hstopped := h.leads.stopped_iff.mpr (List.mem_append_left _ hclose)
    rw [hrunning] at hstopped
    cases hstopped
  refine run_invariant (I := fun s => i ∈ s.ids) (hfresh.step hstep) hrest ?_
    (List.mem_append_left _ (List.mem_append_left _ (hstep.mem_pendingIds_of_mem_ids hopen hi)))
  intro s b t hb hnodup hs hmem
  have hcount := List.nodup_iff_count_le_one.mp hnodup.of_append_left i
  refine (hs.change.mem_ids hcount hmem).resolve_right ?_
  rintro ⟨-, rfl⟩
  exact hclear hb

/-- On a running queue at rest all jobs of a submission without circles have ended. -/
theorem Reached.mem_endedIds_of_resting (h : pool.Reached (before ++ a :: after) q)
    (ha : a.submission? = some (jobs, params)) (hclosed : Closed jobs) (hacyclic : Acyclic jobs)
    (hrunning : q.queue.running = true) (hclear : .clear ∉ after) (hrest : q.Resting)
    {j : Job (Payload α)} (hj : j ∈ jobs) : j.id ∈ endedIds q.history := by
  have hids : a.ids = jobs.map Job.id := by rw [Action.ids, Action.jobs_of_submission? ha]
  generalize hid : j.id = i
  induction i using hacyclic.wellFounded.induction generalizing j with
  | _ i ih =>
    have hmem := h.mem_ids_of_submitted hrunning hclear (hids ▸ List.mem_map_of_mem (f := Job.id) hj)
    rw [ids, heldIds, hrest.held, List.map_nil, List.append_nil, List.mem_append, hid] at hmem
    refine hmem.resolve_left fun hpending => ?_
    obtain ⟨k, hk, hkid⟩ := List.mem_map.mp hpending
    -- all that the job waits for has ended
    obtain ⟨p, hp, -⟩ := h.split
    have htracked := (h.tracks hp ha hj).pending k hk (hkid.trans hid.symm)
    have hended : ∀ d ∈ j.deps, d ∈ endedIds q.history := by
      intro d hd
      obtain ⟨l, hl, hlid⟩ := List.mem_map.mp (hclosed j hj d hd)
      exact ih d ⟨j, hj, hid, hd⟩ hl hlid
    have hfree : k.deps = [] := by
      rw [htracked]
      refine List.filter_eq_nil_iff.mpr fun d hd => ?_
      have hdeps := (mem_stamp_deps.mp hd).1
      simpa using hended d hdeps
    obtain ⟨_, hlane, hserves⟩ := h.serves k.lane
    obtain ⟨x, hx, rfl⟩ := List.mem_map.mp hlane
    have hready := Queue.isReady_iff.mpr ⟨hfree, hserves⟩
    rw [hrest.idle x hx k hk] at hready
    cases hready

/-- **A batch on a running queue comes to its end.** Submit a closed batch without circles, among
whatever clients and workers do, but do not stop or clear the queue from then on. When the pool rests,
the batch is answered. -/
theorem Reached.completed {batch : List (Job α)} {barrier : JobId}
    (h : pool.Reached (before ++ .runBatch batch params barrier :: after) q)
    (hclosed : Closed batch) (hacyclic : Acyclic batch) (hbarrier : barrier ∉ batch.map Job.id)
    (hrunning : q.queue.running = true) (hclear : .clear ∉ after) (hrest : q.Resting) :
    ∃ ok, q.outcome? barrier = some (.completed ok) := by
  have hall : Closed (batch.map workJob ++ [barrierJob barrier batch]) := by
    intro j hj d hd
    rw [ids_runBatch]
    refine List.mem_append_left _ ?_
    rcases List.mem_append.mp hj with hj | hj
    · obtain ⟨k, hk, rfl⟩ := List.mem_map.mp hj
      exact hclosed k hk d hd
    · obtain rfl := List.mem_singleton.mp hj
      exact hd
  have hinside : ∀ j ∈ batch, barrier ∉ j.deps := fun j hj hd => hbarrier (hclosed j hj _ hd)
  have hended : barrier ∈ endedIds q.history :=
    h.mem_endedIds_of_resting rfl hall (acyclic_runBatch hacyclic hbarrier hinside) hrunning hclear
      hrest (j := barrierJob barrier batch) (List.mem_append_right _ (List.mem_singleton_self _))
  obtain ⟨o, ho⟩ := Option.isSome_iff_exists.mp (h.isSome_outcome? (Or.inr hended))
  cases o with
  | completed ok => exact ⟨ok, ho⟩
  | abandoned =>
      -- who is told that it will never run has not ended
      have htold := h.leads.told_of_abandoned ho
      have hcount := List.nodup_iff_count_le_one.mp h.distinct barrier
      have hdismissed : barrier ∈ q.dismissedIds :=
        ((List.sublist_append_left _ _).map _).subset htold
      exact absurd hended (h.leads.dismissed_apart hcount hdismissed).2.1

/-! ## One job after the other -/

/-- The queue runs, and nobody has a job in hand. -/
structure Poised (p : Pool α π) : Prop where
  running : p.queue.running = true
  held : p.held = []
  staffed : p.Staffed
  nodup : p.ids.Nodup

theorem held_eq_nil_iff : p.held = [] ↔ ∀ w, p.jobOf w = none := by
  constructor
  · intro h w
    rw [← Option.not_isSome_iff_eq_none]
    intro hsome
    obtain ⟨job, hjob⟩ := Option.isSome_iff_exists.mp hsome
    have hmem := mem_held_of_jobOf hjob
    rw [h] at hmem
    cases hmem
  · intro h
    refine List.eq_nil_iff_forall_not_mem.mpr fun job hjob => ?_
    obtain ⟨w, hw⟩ := exists_jobOf_of_mem_held hjob
    rw [h w] at hw
    cases hw

/-- Steps of workers give out no identities. -/
theorem nodup_ids_of_run {w : Nat} (has : ∀ a ∈ as, a.IsOf w) (hrun : p.run? as = some q)
    (h : p.ids.Nodup) : q.ids.Nodup := by
  refine run_keeps (I := fun s => s.ids.Nodup) hrun (fun {r a s} ha hs hnodup => ?_) h
  refine hs.nodup_ids ?_
  rw [(has a ha).ids_eq_nil, List.append_nil]
  exact hnodup

/-- Steps of a worker that come to a point where it has no job in hand. -/
theorem Poised.of_run {w : Nat} (h : p.Poised) (has : ∀ a ∈ as, a.IsOf w) (hrun : p.run? as = some q)
    (hw : q.jobOf w = none) : q.Poised := by
  have hopen : ∀ a ∈ as, a ≠ .close := by
    rintro _ ha rfl
    exact (has _ ha).elim
  refine ⟨?_, held_eq_nil_iff.mpr fun v => ?_, ?_, nodup_ids_of_run has hrun h.nodup⟩
  · exact run_keeps (I := fun s => s.queue.running = true) hrun
      (fun ha hs hr => (hs.running_eq (hopen _ ha)).trans hr) h.running
  · by_cases hvw : v = w
    · rw [hvw, hw]
    · rw [jobOf_of_run has hvw hrun]
      exact held_eq_nil_iff.mp h.held v
  · exact run_keeps (I := Staffed) hrun (fun _ hs => hs.staffed) h.staffed

theorem act_eq_of_step (h : p.Step a q) : act a p = q := by
  rw [act, h.step?_eq]
  rfl

/-- A worker without a job that stays is awake, or it is once it was woken. -/
theorem Poised.wake {w : Nat} {x : Worker (Payload α) π} (h : p.Poised)
    (hw : p.workers[w]? = some x) :
    ∃ bs q, act (.wake w) p = q ∧ (∀ b ∈ bs, b.IsOf w) ∧ p.run? bs = some q ∧
      q.workers[w]? = some ⟨x.lane, .awake⟩ ∧ q.queue = p.queue ∧ q.history = p.history := by
  obtain ⟨lane, activity⟩ := x
  have hpresent := h.staffed.present h.running _ (List.mem_of_getElem? hw)
  have hempty : Worker.job? ⟨lane, activity⟩ = none := by
    have hnone := held_eq_nil_iff.mp h.held w
    rwa [jobOf, hw] at hnone
  cases activity with
  | awake =>
      have hnone : p.step? (.wake w) = none := by rw [step?, hw]
      exact ⟨[], p, by rw [act, hnone]; rfl, List.forall_mem_nil _, rfl, hw, rfl, rfl⟩
  | asleep =>
      have hstep : p.Step (.wake w) _ := .wake hw
      refine ⟨[.wake w], _, act_eq_of_step hstep, List.forall_mem_singleton.mpr rfl, ?_,
        workers_setActivity_self hw .awake, rfl, rfl⟩
      rw [run?, hstep.step?_eq]
      rfl
  | running job | ran job ok => cases hempty
  | gone => cases hpresent

/-- A worker that is awake takes a job if one is ready for it. -/
theorem exists_take {w : Nat} {lane : Option Lane} (hr : p.queue.running = true)
    (hnodup : p.ids.Nodup) (hw : p.workers[w]? = some ⟨lane, .awake⟩)
    (hready : p.queue.pending.any (Queue.isReady lane) = true) :
    ∃ job q, p.Step (.check w) q ∧ q.workers[w]? = some ⟨lane, .running job⟩ ∧
      job.id ∉ q.pendingIds ∧ q.pendingCount + 1 = p.pendingCount ∧
      q.history = .began w job :: p.history := by
  obtain ⟨⟨job, Q⟩, htake⟩ : ∃ taken, p.queue.take? lane = some taken := by
    rw [← Option.isSome_iff_exists, Option.isSome_iff_ne_none]
    intro hnone
    obtain ⟨j, hj, hjready⟩ := List.any_eq_true.mp hready
    rw [Queue.take?_eq_none_iff.mp hnone j hj] at hjready
    cases hjready
  obtain ⟨before, after, hpending, hbefore, hjob, -⟩ := Queue.take?_eq_some_iff.mp htake
  refine ⟨job, p.start w job (before ++ after), .take hw hr hpending hbefore hjob,
    workers_setActivity_self (p := { p with queue := _ }) hw _, ?_, ?_, rfl⟩
  · have hids : (p.queue.pending.map fun j => j.id).Nodup := hnodup.of_append_left.of_append_left
    rw [hpending, List.map_append, List.map_cons] at hids
    show job.id ∉ (before ++ after).map fun j => j.id
    rw [List.map_append]
    exact (List.nodup_middle.mp hids).notMem
  · rw [pendingCount, pendingCount, hpending]
    show (before ++ after).length + 1 = _
    rw [List.length_append, List.length_append, List.length_cons]
    omega

/-- A worker runs the job in its hand and reports it. -/
theorem exists_report {w : Nat} {lane : Option Lane} {job : PendingJob (Payload α) π} {ok : Bool}
    (hw : p.workers[w]? = some ⟨lane, .running job⟩) (hnew : job.id ∉ p.pendingIds)
    (hbarrier : job.payload = .barrier → ok = true) :
    ∃ q r, p.Step (.run w ok) q ∧ q.Step (.report w) r ∧ r.jobOf w = none ∧
      r.pendingCount = p.pendingCount ∧ r.history = .ended w job ok :: p.history := by
  have hran := workers_answer hw job hbarrier
  obtain ⟨hdone, -, hended⟩ := done_fields (p.answer w job ok) w job ok
  refine ⟨_, _, .answer hw, .report hran, ?_, ?_, ?_⟩
  · rw [jobOf, workers_done hran job ok]
    rfl
  · -- no other pending job has the identity of the one that is done
    rw [pendingCount, hdone, queue_answer, Queue.complete, List.length_map,
      List.filter_eq_self.mpr]
    · rfl
    · intro j hj
      exact decide_eq_true fun heq => hnew (heq ▸ List.mem_map_of_mem (f := fun j => j.id) hj)
  · rw [hended, history_answer]

/-- A worker takes a job, runs it and reports it. -/
theorem Poised.serve {w : Nat} {x : Worker (Payload α) π} (h : p.Poised)
    (hw : p.workers[w]? = some x) (hready : p.queue.pending.any (Queue.isReady x.lane) = true) :
    ∃ job q, act (.check w) (act (.wake w) p) = q ∧ q.running? w = some job ∧
      job.id ∉ q.pendingIds ∧ q.pendingCount + 1 = p.pendingCount ∧
      ∀ ok, (job.payload = .barrier → ok = true) →
        ∃ r, act (.report w) (act (.run w ok) q) = r ∧ r.Poised ∧
          r.workers.map Worker.lane = p.workers.map Worker.lane ∧
          r.pendingCount = q.pendingCount ∧
          r.history = .ended w job ok :: .began w job :: p.history := by
  obtain ⟨bs, p', hwake, hbs, hrun, hw', hqueue, hhistory⟩ := h.wake hw
  obtain ⟨job, q, hcheck, hheld, hnew, hcount, hbegan⟩ := exists_take (hqueue ▸ h.running)
    (nodup_ids_of_run hbs hrun h.nodup) hw' (hqueue ▸ hready)
  refine ⟨job, q, by rw [hwake, act_eq_of_step hcheck], by rw [running?, hheld], hnew, ?_, ?_⟩
  · rw [hcount, pendingCount, hqueue]
    rfl
  · intro ok hbarrier
    obtain ⟨q', r, hanswer, hreport, hfree, hleft, hended⟩ := exists_report hheld hnew hbarrier
    have hrun' : p.run? (bs ++ [.check w, .run w ok, .report w]) = some r := by
      rw [run?_append, hrun]
      simp only [Option.bind_some, run?, hcheck.step?_eq, hanswer.step?_eq, hreport.step?_eq]
    have hsteps : ∀ b ∈ bs ++ [.check w, .run w ok, .report w], b.IsOf w := by
      simp only [List.forall_mem_append, List.forall_mem_cons]
      exact ⟨hbs, rfl, rfl, rfl, List.forall_mem_nil _⟩
    refine ⟨r, by rw [act_eq_of_step hanswer, act_eq_of_step hreport], h.of_run hsteps hrun' hfree,
      map_lane_of_run hrun', hleft, ?_⟩
    rw [hended, hbegan, hhistory]

/-! ## The pump -/

section Pumping

variable {S : Type} {r : Pool α π} {verdict : α → PendingJob (Payload α) π → Bool} {w : Nat}
  {x : Worker (Payload α) π}

/-- A body that answers and does nothing else. -/
def answering (verdict : α → PendingJob (Payload α) π → Bool) : Body α π S :=
  fun a job ps => (ps, verdict a job)

/-- What a job answers. A barrier never says no. -/
def answerOf (verdict : α → PendingJob (Payload α) π → Bool) (job : PendingJob (Payload α) π) : Bool :=
  match job.payload with
  | .work a => verdict a job
  | .barrier => true

/-- Jobs were run from their beginning to their end, and nothing else happened. -/
structure Pumped (verdict : α → PendingJob (Payload α) π → Bool) (p r : Pool α π) : Prop where
  poised : r.Poised
  lanes : r.workers.map Worker.lane = p.workers.map Worker.lane
  /-- Each job that was run leaves two events behind and is pending no more. -/
  history : ∃ events, r.history = events ++ p.history ∧ (∀ e ∈ events, e.AnswersAs verdict) ∧
    events.length + 2 * r.pendingCount = 2 * p.pendingCount
  same : r.history.length = p.history.length → r = p

theorem Pumped.refl (h : p.Poised) : Pumped verdict p p :=
  ⟨h, rfl, ⟨[], rfl, nofun, by simp⟩, fun _ => rfl⟩

theorem Pumped.trans (hq : Pumped verdict p q) (hr : Pumped verdict q r) : Pumped verdict p r := by
  obtain ⟨early, hearly, hsaid, hcount⟩ := hq.history
  obtain ⟨late, hlate, hsaid', hcount'⟩ := hr.history
  refine ⟨hr.poised, hr.lanes.trans hq.lanes, ⟨late ++ early, ?_, ?_, ?_⟩, ?_⟩
  · rw [hlate, hearly, List.append_assoc]
  · exact List.forall_mem_append.mpr ⟨hsaid', hsaid⟩
  · rw [List.length_append]
    omega
  · intro hlength
    have hlong := congrArg List.length hearly
    have hlong' := congrArg List.length hlate
    rw [List.length_append] at hlong hlong'
    rw [hr.same (by omega), hq.same (by omega)]

theorem Pumped.pendingCount_le (h : Pumped verdict p r) : r.pendingCount ≤ p.pendingCount := by
  obtain ⟨events, -, -, hcount⟩ := h.history
  omega

/-- Where something happened, there is less left to do. -/
theorem Pumped.pendingCount_lt (h : Pumped verdict p r) (hne : r.history.length ≠ p.history.length) :
    r.pendingCount < p.pendingCount := by
  obtain ⟨events, hevents, -, hcount⟩ := h.history
  have hlength := congrArg List.length hevents
  rw [List.length_append] at hlength
  omega

theorem Pumped.serve (hr : r.Poised) (hlanes : r.workers.map Worker.lane = p.workers.map Worker.lane)
    {job : PendingJob (Payload α) π}
    (hcount : r.pendingCount + 1 = p.pendingCount)
    (hhistory : r.history = .ended w job (answerOf verdict job) :: .began w job :: p.history) :
    Pumped verdict p r := by
  refine ⟨hr, hlanes,
    ⟨[.ended w job (answerOf verdict job), .began w job], hhistory, ?_, ?_⟩, ?_⟩
  · refine List.forall_mem_cons.mpr ⟨fun a ha => ?_, List.forall_mem_singleton.mpr trivial⟩
    rw [answerOf, ha]
  · rw [List.length_cons, List.length_singleton]
    omega
  · intro hlength
    rw [hhistory, List.length_cons, List.length_cons] at hlength
    omega

theorem passOfWorker_of_ready {jobs old : Nat} {s : S} {job : PendingJob (Payload α) π}
    (hready : (p.queue.pending.take old).any (Queue.isReady (p.laneOf w)) = true)
    (hq : act (.check w) (act (.wake w) p) = q) (hrunning : q.running? w = some job) :
    passOfWorker (answering verdict) w (jobs + 1) old (p, s) =
      passOfWorker (answering verdict) w jobs
        ((q.queue.pending.take (old - 1)).countP fun j => j.id ≠ job.id)
        (act (.report w) (act (.run w (answerOf verdict job)) q), s) := by
  rw [passOfWorker, if_pos hready]
  dsimp only
  rw [hq, hrunning]
  dsimp only [answerOf, answering]
  cases job.payload <;> rfl

variable (verdict)

/-- A pass of a worker runs jobs until none is ready for it. -/
theorem pumped_passOfWorker {jobs : Nat} (h : p.Poised) (hw : p.workers[w]? = some x)
    (hjobs : p.pendingCount ≤ jobs) (s : S) :
    Pumped verdict p (passOfWorker (answering verdict) w jobs p.pendingCount (p, s)).1 ∧
      (passOfWorker (answering verdict) w jobs p.pendingCount (p, s)).1.queue.pending.any
        (Queue.isReady x.lane) = false := by
  have hlane : p.laneOf w = x.lane := by rw [laneOf, hw, Option.bind_some]
  induction jobs generalizing p x with
  | zero =>
      have hempty : p.queue.pending = [] := List.length_eq_zero_iff.mp (Nat.le_zero.mp hjobs)
      refine ⟨.refl h, ?_⟩
      rw [passOfWorker, hempty]
      rfl
  | succ jobs ih =>
      have hall : p.queue.pending.take p.pendingCount = p.queue.pending := List.take_length
      cases hready : p.queue.pending.any (Queue.isReady x.lane) with
      | false =>
          rw [passOfWorker, hall, hlane, hready, if_neg Bool.false_ne_true]
          exact ⟨.refl h, hready⟩
      | true =>
          obtain ⟨job, q, hq, hrunning, hnew, hcount, hserve⟩ := h.serve hw hready
          have hbarrier : job.payload = .barrier → answerOf verdict job = true := by
            intro hpayload
            rw [answerOf, hpayload]
          obtain ⟨r, hr, hpoised, hlanes, hleft, hhistory⟩ := hserve _ hbarrier
          have hserved : Pumped verdict p r := .serve hpoised hlanes (by omega) hhistory
          rw [passOfWorker_of_ready (by rwa [hall, hlane]) hq hrunning, hr]
          -- the jobs that were old before are those that are pending now
          have hold : ((q.queue.pending.take (p.pendingCount - 1)).countP fun j => j.id ≠ job.id) =
              r.pendingCount := by
            have htake : q.queue.pending.take (p.pendingCount - 1) = q.queue.pending :=
              List.take_of_length_le (show q.pendingCount ≤ _ by omega)
            rw [htake, hleft]
            refine List.countP_eq_length.mpr fun j hj => decide_eq_true fun heq => hnew ?_
            exact heq ▸ List.mem_map_of_mem (f := fun j => j.id) hj
          obtain ⟨y, hy, hylane⟩ : ∃ y, r.workers[w]? = some y ∧ y.lane = x.lane := by
            have hsame : (r.workers.map Worker.lane)[w]? = some x.lane := by
              rw [hlanes, List.getElem?_map, hw, Option.map_some]
            rw [List.getElem?_map] at hsame
            exact Option.map_eq_some_iff.mp hsame
          rw [hold, ← hylane]
          obtain ⟨hrest, hdone⟩ := ih hpoised hy (by omega) (by rw [laneOf, hy, Option.bind_some])
          exact ⟨hserved.trans hrest, hdone⟩

/-! ## The pump comes to rest -/

/-- Either every worker serves all lanes, or each of them serves one. -/
def Uniform (lanes : List (Option Lane)) : Prop := (∀ l ∈ lanes, l = none) ∨ ∀ l ∈ lanes, l ≠ none

theorem uniform_lanes (dedicatedLane : Bool) (count : Nat) : Uniform (lanes dedicatedLane count) := by
  cases dedicatedLane with
  | false =>
      refine Or.inl fun l hl => ?_
      obtain ⟨i, -, rfl⟩ := List.mem_map.mp hl
      rfl
  | true =>
      refine Or.inr fun l hl => ?_
      obtain ⟨i, -, rfl⟩ := List.mem_map.mp hl
      rw [if_pos rfl]
      split <;> nofun

/-- Workers keep their lanes. -/
theorem Reached.uniform (h : pool.Reached as p) : Uniform (p.workers.map Worker.lane) := by
  obtain ⟨available, o, hcreate⟩ := h.created
  obtain ⟨count, -, rfl⟩ := exists_count_of_create hcreate
  have hlanes : (ofLanes (lanes o.dedicatedLane count) : Pool α π).workers.map Worker.lane =
      lanes o.dedicatedLane count := by
    simp [ofLanes, Function.comp_def]
  rw [map_lane_of_run h.run, hlanes]
  exact uniform_lanes _ _

/-- A pump uses, for the lane of a worker, exactly the workers of the same kind. -/
theorem usable_iff (hlanes : Uniform (p.workers.map Worker.lane)) (hx : x ∈ p.workers)
    {y : Worker (Payload α) π} (hy : y ∈ p.workers) :
    (match y.lane with
      | some l => decide (l = x.lane.getD .shared)
      | none => decide (x.lane.getD .shared = .shared)) = true ↔ y.lane = x.lane := by
  have hmem := List.mem_map_of_mem (f := Worker.lane) hx
  have hmem' := List.mem_map_of_mem (f := Worker.lane) hy
  rcases hlanes with hnone | hsome
  · rw [hnone _ hmem, hnone _ hmem']
    simp
  · obtain ⟨l, hl⟩ := Option.ne_none_iff_exists'.mp (hsome _ hmem)
    obtain ⟨l', hl'⟩ := Option.ne_none_iff_exists'.mp (hsome _ hmem')
    rw [hl, hl']
    simp

/-- Every worker has a lane for which a pump uses a worker of the same kind. -/
theorem exists_workerFor? (hlanes : Uniform (p.workers.map Worker.lane)) (hx : x ∈ p.workers) :
    ∃ w y, p.workerFor? (x.lane.getD .shared) = some w ∧ p.workers[w]? = some y ∧
      y.lane = x.lane := by
  cases hfind : p.workerFor? (x.lane.getD .shared) with
  | none =>
      have hnone := List.findIdx?_eq_none_iff.mp hfind x hx
      exact absurd (hnone.symm.trans ((usable_iff hlanes hx hx).mpr rfl)) Bool.false_ne_true
  | some w =>
      obtain ⟨hlt, hw, -⟩ := List.findIdx?_eq_some_iff_getElem.mp hfind
      exact ⟨w, _, rfl, List.getElem?_eq_getElem hlt,
        (usable_iff hlanes hx (List.getElem_mem hlt)).mp hw⟩

/-- A pass of a lane. If it finds nothing to do, no job is ready for the worker of the lane. -/
theorem pumped_pass {jobs : Nat} (h : p.Poised) (hjobs : p.pendingCount ≤ jobs) (lane : Lane) (s : S) :
    Pumped verdict p (pass (answering verdict) jobs (p, s) lane).1 ∧
      ((pass (answering verdict) jobs (p, s) lane).1.history.length = p.history.length →
        ∀ w y, p.workerFor? lane = some w → p.workers[w]? = some y →
          p.queue.pending.any (Queue.isReady y.lane) = false) := by
  unfold pass
  dsimp only
  cases hworker : p.workerFor? lane with
  | none => exact ⟨.refl h, fun _ w y hw => by cases hw⟩
  | some w =>
      obtain ⟨hlt, -⟩ := List.findIdx?_eq_some_iff_getElem.mp hworker
      obtain ⟨hpumped, hdone⟩ :=
        pumped_passOfWorker verdict h (List.getElem?_eq_getElem hlt) hjobs s
      refine ⟨hpumped, fun hlength w' y hw' hy => ?_⟩
      obtain rfl := Option.some.inj hw'
      obtain rfl := Option.some.inj ((List.getElem?_eq_getElem hlt).symm.trans hy)
      rwa [hpumped.same hlength] at hdone

/-- A round of passes. If it finds nothing to do, no job is ready for the workers of its lanes. -/
theorem pumped_round {jobs : Nat} (ls : List Lane) (h : p.Poised) (hjobs : p.pendingCount ≤ jobs)
    (s : S) :
    Pumped verdict p (ls.foldl (pass (answering verdict) jobs) (p, s)).1 ∧
      ((ls.foldl (pass (answering verdict) jobs) (p, s)).1.history.length = p.history.length →
        ∀ lane ∈ ls, ∀ w y, p.workerFor? lane = some w → p.workers[w]? = some y →
          p.queue.pending.any (Queue.isReady y.lane) = false) := by
  induction ls generalizing p s with
  | nil => exact ⟨.refl h, fun _ => nofun⟩
  | cons lane ls ih =>
      obtain ⟨hfirst, hidle⟩ := pumped_pass verdict h hjobs lane s
      rw [List.foldl_cons]
      generalize pass (answering verdict) jobs (p, s) lane = ps at hfirst hidle
      obtain ⟨q, s'⟩ := ps
      have hless := hfirst.pendingCount_le
      obtain ⟨hrest, hidle'⟩ := ih hfirst.poised (by dsimp only at hless ⊢; omega) s'
      refine ⟨hfirst.trans hrest, fun hlength => ?_⟩
      -- nothing happened in the first pass, and nothing in the others
      obtain ⟨early, hearly, -⟩ := hfirst.history
      obtain ⟨late, hlate, -⟩ := hrest.history
      have hlong := congrArg List.length hearly
      have hlong' := congrArg List.length hlate
      rw [List.length_append] at hlong hlong'
      have hquiet : q.history.length = p.history.length := by dsimp only at hlong hlong'; omega
      obtain rfl : q = p := hfirst.same hquiet
      exact List.forall_mem_cons.mpr ⟨hidle hquiet, hidle' (by dsimp only; omega)⟩

/-- **A pump comes to rest**, if it is allowed as many rounds as there are jobs. -/
theorem pumped_pump {jobs rounds : Nat} (h : p.Poised) (hlanes : Uniform (p.workers.map Worker.lane))
    (hjobs : p.pendingCount ≤ jobs) (hrounds : p.pendingCount ≤ rounds) (s : S) :
    Pumped verdict p (pump (answering verdict) jobs bothLanes rounds (p, s)).1 ∧
      (pump (answering verdict) jobs bothLanes rounds (p, s)).1.Resting := by
  induction rounds generalizing p s with
  | zero =>
      have hempty : p.queue.pending = [] := List.length_eq_zero_iff.mp (Nat.le_zero.mp hrounds)
      refine ⟨.refl h, h.held, fun x _ j hj => ?_⟩
      change j ∈ p.queue.pending at hj
      rw [hempty] at hj
      cases hj
  | succ rounds ih =>
      obtain ⟨hround, hidle⟩ := pumped_round verdict bothLanes h hjobs s
      unfold pump
      dsimp only
      generalize bothLanes.foldl (pass (answering verdict) jobs) (p, s) = ps at hround hidle
      obtain ⟨q, s'⟩ := ps
      dsimp only at hround hidle ⊢
      split
      · next hlength =>
          obtain rfl := hround.same hlength
          refine ⟨hround, h.held, fun x hx j hj => ?_⟩
          obtain ⟨w, y, hw, hy, hlane⟩ := exists_workerFor? hlanes hx
          have hboth : x.lane.getD .shared ∈ bothLanes := by
            cases x.lane.getD .shared <;> decide
          have hnone := hidle hlength _ hboth w y hw hy
          rw [hlane] at hnone
          exact Bool.eq_false_iff.mpr (List.any_eq_false.mp hnone j hj)
      · next hlength =>
          have hless := hround.pendingCount_lt hlength
          obtain ⟨hrest, hrests⟩ :=
            ih hround.poised (hround.lanes.symm ▸ hlanes) (by omega) (by omega) s'
          exact ⟨hround.trans hrest, hrests⟩

end Pumping

end Pool

end RenderPlan
