/-
# RenderPlan.Proofs.Render.Success -- a render of willing tasks succeeds

The tasks of a list are willing if each of them says yes as long as it is told of no failure. Then no
task fails at all: the first one to fail would have been told of an earlier failure. And since a render
has no circles, its batch comes to its end, whatever order the workers take. So every schedule of the
render is a success (`succeeds`), also the one that takes one task after the other (`run_eq_ok`).
-/
import RenderPlan.Proofs.Queue.Exhaustion
import RenderPlan.Proofs.Render.Failures

namespace RenderPlan

open Relation (TransGen)

variable {σ π : Type}

namespace Pool

/-- The queue runs, and there is nothing in it and in the hands of workers. -/
structure Idle {α : Type} (p : Pool α π) : Prop where
  running : p.queue.running = true
  held : p.held = []
  pending : p.queue.pending = []

/-- A new pool is idle. -/
theorem idle_of_create {α : Type} {p : Pool α π} {available : Nat} {o : QueueOptions}
    (h : create available o = .ok p) : p.Idle := by
  obtain ⟨lanes, -, rfl⟩ := create_eq_ok h
  exact ⟨rfl, held_ofLanes lanes, rfl⟩

end Pool

namespace Prepared

variable {p : Prepared} {firstId i k : Nat} {params : π} {pool q : Pool TaskId π}
  {before after : List (Action TaskId π)} {verdict : Verdict π}

/-! ## A render has no circles -/

/-- Chains of conflicts lead forwards. -/
theorem lt_of_transGen (h : TransGen (p.graph.ConflictsBefore p.order) k i) : k < i := by
  induction h with
  | single hconf => exact hconf.1
  | tail _ hconf ih => exact ih.trans hconf.1

theorem acyclic_jobs (hp : p.IsPlanned) : Acyclic (p.jobs firstId) := by
  refine acyclic_of_rank JobId.index fun j hj d hd => ?_
  obtain ⟨i, task, -, rfl⟩ := mem_jobs.mp hj
  obtain ⟨k, hk, rfl⟩ := List.mem_map.mp hd
  exact Nat.add_lt_add_left (hp.conflict_of_edge (i := i) hk).1 firstId

theorem barrier_notMem (p : Prepared) (firstId : Nat) :
    p.barrier firstId ∉ (p.jobs firstId).map Job.id := by
  intro h
  obtain ⟨i, hi, hid⟩ := mem_ids_jobs.mp h
  exact hi.ne (jobId_injective firstId hid)

/-! ## No task fails -/

/-- Each task says yes as long as it is told of no failure. -/
def Willing (p : Prepared) (verdict : Verdict π) : Prop :=
  ∀ task ∈ p.order, ∀ params, verdict p.graph task params true = true

/-- What a task of the batch may answer is what the verdict on it is. Other clients' jobs are
free. -/
def Allowed (p : Prepared) (verdict : Verdict π) (firstId : Nat) (task : TaskId)
    (job : PendingJob (Payload TaskId) π) (answer : Bool) : Prop :=
  job.id ∈ (p.jobs firstId).map Job.id → answer = verdict p.graph task job.params job.sound

/-- The first task to fail would have been told of a failure before it. -/
theorem not_failed (hp : p.IsPlanned)
    (h : pool.Reached (before ++ .runBatch (p.jobs firstId) params (p.barrier firstId) :: after) q)
    (hwilling : p.Willing verdict) (hobeys : q.Obeys (p.Allowed verdict firstId))
    (hi : i < p.order.length) : ¬ Failed firstId q i := by
  induction i using Nat.strong_induction_on with
  | _ i ih =>
    intro hfailed
    obtain ⟨w, job, hended, hid⟩ := mem_brokenIds.mp hfailed
    obtain ⟨w', hbegan⟩ := h.coherent.began_of_ended hended
    have htask : p.order[i]? = some p.order[i] := List.getElem?_eq_getElem hi
    obtain ⟨hpayload, -⟩ := h.began_fields rfl (j := Pool.workJob (p.job firstId i p.order[i]))
      (List.mem_append_left _ (List.mem_map_of_mem (mem_jobs.mpr ⟨i, _, htask, rfl⟩))) hbegan hid
    have hsound : job.sound = true := by
      rw [← Bool.not_eq_false, sound_eq_false_iff_failed hp h hi hbegan hid]
      rintro ⟨k, hk, hearlier⟩
      have hlt : k < i := lt_of_transGen hk
      exact ih k hlt (hlt.trans hi) hearlier
    have hno : false = verdict p.graph p.order[i] job.params job.sound :=
      hobeys.ended w job false hended _ hpayload (hid ▸ mem_ids_jobs.mpr ⟨i, hi, rfl⟩)
    rw [hsound, hwilling _ (List.getElem_mem hi)] at hno
    cases hno

/-- A batch of willing tasks only answers that all went well. -/
theorem answer_eq_true (hp : p.IsPlanned)
    (h : pool.Reached (before ++ .runBatch (p.jobs firstId) params (p.barrier firstId) :: after) q)
    (hwilling : p.Willing verdict) (hobeys : q.Obeys (p.Allowed verdict firstId)) {ok : Bool}
    (hout : q.outcome? (p.barrier firstId) = some (.completed ok)) : ok = true :=
  (answer_iff_not_failed hp h hout).mpr fun _ hi => not_failed hp h hwilling hobeys hi

/-- When the pool rests, the batch has succeeded. -/
theorem succeeded_of_resting (hp : p.IsPlanned)
    (h : pool.Reached (before ++ .runBatch (p.jobs firstId) params (p.barrier firstId) :: after) q)
    (hwilling : p.Willing verdict) (hobeys : q.Obeys (p.Allowed verdict firstId))
    (hrunning : q.queue.running = true) (hclear : .clear ∉ after) (hrest : q.Resting) :
    q.outcome? (p.barrier firstId) = some (.completed true) := by
  obtain ⟨ok, hout⟩ := h.completed (closed_jobs hp) (acyclic_jobs hp) (p.barrier_notMem firstId)
    hrunning hclear hrest
  rw [hout, answer_eq_true hp h hwilling hobeys hout]

/-! ## Every schedule -/

/-- The pool after the batch was submitted to it. -/
def submitted (p : Prepared) (firstId : Nat) (params : π) (q : Pool TaskId π) : Pool TaskId π :=
  q.accept ((p.jobs firstId).map Pool.workJob ++
    [Pool.barrierJob (p.barrier firstId) (p.jobs firstId)]) params

variable {as : List (Action TaskId π)}

theorem runBatch_eq_ok (p : Prepared) (firstId : Nat) (params : π) (hr : q.queue.running = true) :
    q.runBatch (p.jobs firstId) params (p.barrier firstId) =
      .ok (p.submitted firstId params q) :=
  Pool.submit_eq_ok params (List.concat_ne_nil _ _) hr

theorem reached_submitted (p : Prepared) (params : π) (h : pool.Reached as q)
    (hfree : Free firstId as) (hr : q.queue.running = true) :
    pool.Reached (as ++ [.runBatch (p.jobs firstId) params (p.barrier firstId)])
      (p.submitted firstId params q) := by
  refine h.extend (nodup_idsOf_submit h hfree) ?_
  simp only [Pool.run?, Pool.step?, runBatch_eq_ok p firstId params hr, Option.bind_some]

/-- No job in the pool is of a batch whose identities are still free. -/
theorem obeys_of_free (h : pool.Reached as q) (hfree : Free firstId as) :
    q.Obeys (p.Allowed verdict firstId) := by
  have hforeign : ∀ job : PendingJob (Payload TaskId) π, job.id ∈ q.ids →
      job.id ∉ (p.jobs firstId).map Job.id := by
    intro job hused hid
    obtain ⟨i, -, hi⟩ := mem_ids_jobs.mp hid
    have hlt := hfree _ (h.leads.mem_idsOf hused)
    rw [← hi] at hlt
    exact absurd hlt (Nat.not_lt_of_le (Nat.le_add_right firstId i))
  constructor
  · intro w job answer hended _ _ hid
    have hused := mem_endedIds.mpr ⟨w, job, answer, hended, rfl⟩
    exact absurd hid (hforeign job (List.mem_append_right _ hused))
  · intro x hx job answer hran _ _ hid
    have hheld : job ∈ q.held := List.mem_filterMap.mpr ⟨x, hx, by rw [Worker.job?, hran]; rfl⟩
    have hused := List.mem_map_of_mem (f := fun j => j.id) hheld
    exact absurd hid (hforeign job (List.mem_append_left _ (List.mem_append_right _ hused)))

theorem obeys_submitted (h : pool.Reached as q) (hfree : Free firstId as) :
    (p.submitted firstId params q).Obeys (p.Allowed verdict firstId) := by
  obtain ⟨hended, hran⟩ : q.Obeys (p.Allowed verdict firstId) := obeys_of_free h hfree
  exact ⟨hended, Pool.forall_wakeAll (p := { q with queue := _ }) hran nofun⟩

/-- Renders of the list succeed in every schedule: whatever else clients and workers do, before the
batch is submitted, at the same time and afterwards. -/
structure Succeeds (p : Prepared) (verdict : Verdict π) : Prop where
  /-- A running queue accepts the batch. -/
  accepted : ∀ {firstId : Nat} {params : π} {pool q : Pool TaskId π}
    {as : List (Action TaskId π)}, pool.Reached as q → Free firstId as → q.queue.running = true →
      ∃ r, q.runBatch (p.jobs firstId) params (p.barrier firstId) = .ok r ∧
        r.queue.running = true ∧ r.Obeys (p.Allowed verdict firstId)
  /-- It never answers that a task failed. -/
  answer : ∀ {firstId : Nat} {params : π} {pool q : Pool TaskId π}
    {before after : List (Action TaskId π)} {ok : Bool},
    pool.Reached (before ++ .runBatch (p.jobs firstId) params (p.barrier firstId) :: after) q →
      q.Obeys (p.Allowed verdict firstId) →
        q.outcome? (p.barrier firstId) = some (.completed ok) → ok = true
  /-- As long as the queue is neither stopped nor cleared, it is inevitable that it answers. -/
  comes : ∀ {firstId : Nat} {params : π} {pool q : Pool TaskId π}
    {before after : List (Action TaskId π)},
    pool.Reached (before ++ .runBatch (p.jobs firstId) params (p.barrier firstId) :: after) q →
      q.Obeys (p.Allowed verdict firstId) → q.queue.running = true → .clear ∉ after →
        Inevitable (Pool.Labors (p.Allowed verdict firstId))
          (fun s => s.outcome? (p.barrier firstId) = some (.completed true)) q

/-- **A batch of willing tasks succeeds in every schedule.** -/
theorem succeeds (hp : p.IsPlanned) (hwilling : p.Willing verdict) : p.Succeeds verdict where
  accepted h hfree hr := ⟨_, runBatch_eq_ok p _ _ hr, hr, obeys_submitted h hfree⟩
  answer h hobeys hout := answer_eq_true hp h hwilling hobeys hout
  comes h hobeys hrunning hclear := by
    refine h.inevitable hrunning hobeys (fun task job => ⟨_, fun _ => rfl⟩) ?_
    intro bs s hbs hs hr hobeys hrest
    rw [List.append_assoc] at hs
    refine succeeded_of_resting hp hs hwilling hobeys hr (fun hmem => ?_) hrest
    exact (List.mem_append.mp hmem).elim hclear fun hmem => hbs _ hmem

/-! ## One task after the other -/

theorem poised_submitted (p : Prepared) (params : π) (h : pool.Reached as q)
    (hfree : Free firstId as) (hidle : q.Idle) : (p.submitted firstId params q).Poised := by
  have hreached := reached_submitted p params h hfree hidle.running
  exact ⟨hidle.running, (Pool.held_wakeAll _).trans hidle.held, hreached.staffed,
    hreached.nodup_ids⟩

theorem pendingCount_submitted (p : Prepared) (firstId : Nat) (params : π) (hidle : q.Idle) :
    (p.submitted firstId params q).pendingCount = p.order.length + 1 := by
  show (q.queue.pending ++ _).length = _
  simp [hidle.pending, jobs]

/-- What a task answers when the pump runs it. -/
def answers (p : Prepared) (verdict : Verdict π) (task : TaskId)
    (job : PendingJob (Payload TaskId) π) : Bool :=
  verdict p.graph task job.params job.sound

theorem obeys_of_pumped {r : Pool TaskId π} (h : pool.Reached as q) (hfree : Free firstId as)
    (hpumped : Pool.Pumped (p.answers verdict) (p.submitted firstId params q) r) :
    r.Obeys (p.Allowed verdict firstId) := by
  constructor
  · intro w job answer hended
    obtain ⟨events, hhistory, hanswers, -⟩ := hpumped.history
    rw [hhistory] at hended
    rcases List.mem_append.mp hended with hnew | hold
    · exact fun task htask _ => hanswers _ hnew task htask
    · exact (obeys_of_free h hfree).ended w job answer hold
  · -- nobody has a job in hand
    intro x hx job answer hran
    have hheld : job ∈ r.held := List.mem_filterMap.mpr ⟨x, hx, by rw [Worker.job?, hran]; rfl⟩
    rw [hpumped.poised.held] at hheld
    cases hheld

/-- On an idle pool, the tasks are run one after the other, and the batch succeeds. -/
theorem execute_eq_ok (hp : p.IsPlanned) (hwilling : p.Willing verdict) (h : pool.Reached as q)
    (hfree : Free firstId as) (hidle : q.Idle) :
    (Renderer.execute verdict p params firstId q).1 = .ok true := by
  unfold Renderer.execute
  split
  · rfl
  · have hreached := reached_submitted p params h hfree hidle.running
    have hcount := pendingCount_submitted p firstId params hidle
    obtain ⟨hpumped, hrest⟩ := Pool.pumped_pump (p.answers verdict)
      (poised_submitted p params h hfree hidle) hreached.uniform hcount.le hcount.le ()
    have hbody : ∀ task job ps, (Pool.answering (S := Unit) (p.answers verdict) task job ps).1 = ps :=
      fun _ _ _ => rfl
    have hworks := Pool.works_pump hbody (p.order.length + 1) Pool.bothLanes (p.order.length + 1)
      (p.submitted firstId params q, ())
    obtain ⟨bs, hbs, hfinal⟩ := hreached.works hworks
    rw [List.append_assoc] at hfinal
    have hclear : .clear ∉ bs := by
      intro hmem
      obtain ⟨w, hw⟩ := hbs _ hmem
      exact hw.elim
    have hout := succeeded_of_resting hp hfinal hwilling (obeys_of_pumped h hfree hpumped)
      hpumped.poised.running hclear hrest
    rw [runBatch_eq_ok p firstId params hidle.running]
    dsimp only
    split
    · next ok hok =>
        cases hok.symm.trans hout
        rfl
    · next hnone => exact absurd hout (hnone true)

end Prepared

namespace Renderer

open Prepared

variable {r : Renderer} {rules : RuleId → Rule σ} {registry : Registry} {user : σ} {graph : Graph}
  {list : List TaskId} {p : Prepared} {params : π} {firstId : Nat} {pool q : Pool TaskId π}
  {as : List (Action TaskId π)} {verdict : Verdict π}

/-- **A render of willing tasks on an idle pool succeeds.** -/
theorem run_eq_ok (hprepared : (r.prepare rules registry user graph list).result = .ok p)
    (hwilling : p.Willing verdict) (h : pool.Reached as q) (hfree : Free firstId as)
    (hidle : q.Idle) :
    (r.run verdict rules registry user graph list params firstId q).result =
      .ok (p.report list.length true) := by
  have hp : p.IsPlanned := HazardPlan.orders_of_ofList (prepares hprepared).plan_eq
  have hexecute : (execute verdict p params firstId q).1 = .ok true :=
    execute_eq_ok hp hwilling h hfree hidle
  unfold run
  dsimp only
  rw [hprepared]
  dsimp only
  rcases hexecuted : execute verdict p params firstId q with ⟨outcome, q'⟩
  rw [hexecuted] at hexecute
  obtain rfl : outcome = .ok true := hexecute
  rfl

end Renderer

end RenderPlan
