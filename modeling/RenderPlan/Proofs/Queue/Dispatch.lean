/-
# RenderPlan.Proofs.Queue.Dispatch -- which dependencies a submission can rely on

A submission keeps a dependency on a job that is pending or part of the submission itself, and drops
every other one. What it keeps is honoured, whatever happens afterwards (`guards_of_known`).

A job in a worker's hands is not pending any more and has not ended yet. A dependency on it is
dropped all the same, and some continuation shows it: another worker goes through the jobs that are
ready for it until it takes the one that should have waited (`exists_run_began`). So a dependency on
an unfinished job is honoured in every continuation exactly if the job is still pending.
-/
import RenderPlan.Proofs.Queue.Ledger
import Mathlib.Data.Fintype.EquivFin

namespace RenderPlan

variable {α π : Type}

@[simp] theorem Activity.isGone_woken (b : Activity α π) : b.woken.isGone = b.isGone := by
  cases b <;> rfl

namespace Action

/-- A step of this worker. -/
def IsOf (w : Nat) : Action α π → Prop
  | check v => v = w
  | run v _ => v = w
  | report v => v = w
  | wake v => v = w
  | _ => False

theorem IsOf.submission?_eq_none {a : Action α π} {w : Nat} (h : a.IsOf w) :
    a.submission? = none := by
  cases a <;> first | rfl | exact h.elim

theorem IsOf.ids_eq_nil {a : Action α π} {w : Nat} (h : a.IsOf w) : a.ids = [] := by
  rw [Action.ids, Action.jobs, h.submission?_eq_none]
  rfl

theorem exists_submission?_of_mem_jobs {a : Action α π} {j : Job (Payload α)} (h : j ∈ a.jobs) :
    ∃ params, a.submission? = some (a.jobs, params) := by
  cases a with
  | enqueue batch params => exact ⟨params, rfl⟩
  | runBatch batch params barrier => exact ⟨params, rfl⟩
  | _ => cases h

end Action

namespace Pool

variable {p q pool : Pool α π} {a : Action α π}

/-! ## Workers one by one -/

/-- The job in the hands of this worker. -/
def jobOf (p : Pool α π) (w : Nat) : Option (PendingJob (Payload α) π) :=
  p.workers[w]?.bind Worker.job?

theorem exists_jobOf_of_mem_held {job : PendingJob (Payload α) π} (h : job ∈ p.held) :
    ∃ w, p.jobOf w = some job := by
  obtain ⟨x, hx, hjob⟩ := List.mem_filterMap.mp h
  obtain ⟨w, hw⟩ := List.getElem?_of_mem hx
  exact ⟨w, by rw [jobOf, hw]; exact hjob⟩

theorem mem_held_of_jobOf {w : Nat} {job : PendingJob (Payload α) π}
    (h : p.jobOf w = some job) : job ∈ p.held := by
  obtain ⟨x, hx, hjob⟩ := Option.bind_eq_some_iff.mp h
  exact List.mem_filterMap.mpr ⟨x, List.mem_of_getElem? hx, hjob⟩

theorem mem_heldIds_of_jobOf {w : Nat} {job : PendingJob (Payload α) π}
    (h : p.jobOf w = some job) : job.id ∈ p.heldIds :=
  List.mem_map_of_mem (mem_held_of_jobOf h)

theorem workers_setActivity_self {w : Nat} {x : Worker (Payload α) π}
    (hw : p.workers[w]? = some x) (b : Activity (Payload α) π) :
    (p.setActivity w b).workers[w]? = some { x with activity := b } := by
  simp only [setActivity, List.getElem?_modify_eq, hw]
  rfl

theorem jobOf_setActivity_of_ne {v w : Nat} (hvw : v ≠ w) (b : Activity (Payload α) π) :
    (p.setActivity w b).jobOf v = p.jobOf v := by
  simp only [jobOf, setActivity, List.getElem?_modify_ne _ _ hvw.symm]

theorem workers_wakeAll {w : Nat} {x : Worker (Payload α) π} (hw : p.workers[w]? = some x) :
    p.wakeAll.workers[w]? = some { x with activity := x.activity.woken } := by
  simp only [wakeAll, List.getElem?_map, hw]
  rfl

theorem jobOf_wakeAll (v : Nat) : p.wakeAll.jobOf v = p.jobOf v := by
  simp only [jobOf, wakeAll, List.getElem?_map]
  cases p.workers[v]? with
  | none => rfl
  | some x => simp [Worker.job?]

theorem workers_done {w : Nat} {x : Worker (Payload α) π} (hw : p.workers[w]? = some x)
    (job : PendingJob (Payload α) π) (answer : Bool) :
    (p.done w job answer).workers[w]? = some { x with activity := .awake } := by
  unfold done
  split
  · exact workers_wakeAll (workers_setActivity_self hw .awake)
  · exact workers_setActivity_self hw .awake

/-- What a barrier answers does not count, and is kept as success. -/
theorem workers_answer {w : Nat} {x : Worker (Payload α) π} (hw : p.workers[w]? = some x)
    (job : PendingJob (Payload α) π) {ok : Bool} (hok : job.payload = .barrier → ok = true) :
    (p.answer w job ok).workers[w]? = some { x with activity := .ran job ok } := by
  unfold Pool.answer
  cases hpayload : job.payload with
  | work _ => exact workers_setActivity_self hw _
  | barrier =>
      rw [hok hpayload]
      exact workers_setActivity_self (by rwa [workers_release]) _

/-- A step of a worker leaves the others with what they have in hand. -/
theorem Step.jobOf_of_ne (hs : p.Step a q) {v w : Nat} (ha : a.IsOf w) (hvw : v ≠ w) :
    q.jobOf v = p.jobOf v := by
  cases hs with
  | take _ _ _ _ _ => cases ha; exact jobOf_setActivity_of_ne hvw _
  | sleep _ _ _ => cases ha; exact jobOf_setActivity_of_ne hvw _
  | leave _ _ => cases ha; exact jobOf_setActivity_of_ne hvw _
  | wake _ => cases ha; exact jobOf_setActivity_of_ne hvw _
  | @answer _ _ job ok _ =>
      cases ha
      unfold Pool.answer
      cases job.payload with
      | work _ => exact jobOf_setActivity_of_ne hvw _
      | barrier =>
          rw [jobOf_setActivity_of_ne hvw, jobOf, jobOf, workers_release]
  | @report _ _ job ok _ =>
      cases ha
      unfold done
      split
      · rw [jobOf_wakeAll]
        exact jobOf_setActivity_of_ne hvw _
      · exact jobOf_setActivity_of_ne hvw _
  | submit hsub _ _ =>
      rw [ha.submission?_eq_none] at hsub
      cases hsub
  | refuse hsub _ => rfl
  | _ => exact ha.elim

theorem jobOf_of_run {as : List (Action α π)} {v w : Nat} (has : ∀ a ∈ as, a.IsOf w)
    (hvw : v ≠ w) (hrun : p.run? as = some q) : q.jobOf v = p.jobOf v := by
  refine run_keeps (I := fun r => r.jobOf v = p.jobOf v) hrun ?_ rfl
  intro r a s ha hs hr
  rw [hs.jobOf_of_ne (has a ha) hvw, hr]

/-! ## A worker gets to every ready job -/

/-- While the queue runs no worker has left, and there are two of them at least. -/
structure Staffed (p : Pool α π) : Prop where
  two_le : 2 ≤ p.workers.length
  present : p.queue.running = true → ∀ x ∈ p.workers, x.activity.isGone = false

theorem Step.staffed (hs : p.Step a q) (h : p.Staffed) : q.Staffed where
  two_le := hs.length_workers ▸ h.two_le
  present hq := by
    have hr := hs.running_of_running hq
    refine hs.forall_activity (P := fun b => b.isGone = false) (h.present hr) rfl rfl ?_
      (fun _ _ => rfl) fun _ _ _ => rfl
    intro hstopped
    rw [hr] at hstopped
    cases hstopped

theorem Reached.staffed {as : List (Action α π)} (h : pool.Reached as p) : p.Staffed := by
  refine h.invariant (I := Staffed) ?_ fun _ _ hs => hs.staffed
  intro ls hls
  refine ⟨by simpa only [ofLanes, List.length_map] using hls, ?_⟩
  intro _ x hx
  obtain ⟨lane, _, rfl⟩ := List.mem_map.mp hx
  rfl

/-- The steps of a worker until it looks for work. -/
def effort : Activity (Payload α) π → Nat
  | .running _ => 2
  | .ran _ _ => 1
  | .asleep => 1
  | _ => 0

/-- How far a worker is from the last of the pending jobs. -/
def distance (p : Pool α π) (b : Activity (Payload α) π) : Nat :=
  4 * p.queue.pending.length + effort b

/-- A job without dependencies is not changed when another one ends. -/
theorem mem_complete {Q : Queue (Payload α) π} {j : PendingJob (Payload α) π} {id : JobId}
    (hj : j ∈ Q.pending) (hdeps : j.deps = []) (hid : j.id ≠ id) (ok : Bool) :
    j ∈ (Q.complete id ok).pending := by
  refine List.mem_map.mpr ⟨j, List.mem_filter.mpr ⟨hj, decide_eq_true hid⟩, ?_⟩
  obtain ⟨⟨id', deps, lane, payload⟩, params, sound⟩ := j
  cases hdeps
  simp [Queue.release]

/-- **A worker gets to every ready job.** As long as it has not left, some steps of the worker alone
lead to the beginning of a job that is ready for its lane. -/
theorem exists_run_began {w : Nat} {x : Worker (Payload α) π} {j : PendingJob (Payload α) π}
    (hnodup : p.ids.Nodup) (hr : p.queue.running = true) (hw : p.workers[w]? = some x)
    (hx : x.activity.isGone = false) (hj : j ∈ p.queue.pending)
    (hready : Queue.isReady x.lane j = true) :
    ∃ as q earlier, (∀ a ∈ as, a.IsOf w) ∧ p.run? as = some q ∧
      q.history = .began w j :: earlier := by
  obtain ⟨n, hn⟩ : ∃ n, p.distance x.activity = n := ⟨_, rfl⟩
  induction n using Nat.strongRecOn generalizing p x with
  | _ n ih =>
    -- one step of the worker that brings it nearer, and the rest by induction
    have hstep : ∀ {a : Action α π} {q : Pool α π} {y : Worker (Payload α) π}, a.IsOf w →
        p.Step a q → q.queue.running = true → q.workers[w]? = some y →
        y.activity.isGone = false → y.lane = x.lane → j ∈ q.queue.pending →
        q.distance y.activity < n →
        ∃ as q earlier, (∀ a ∈ as, a.IsOf w) ∧ p.run? as = some q ∧
          q.history = .began w j :: earlier := by
      intro a q y ha hs hq hy hgone hlane hjq hlt
      have hids : (p.ids ++ a.ids).Nodup := by rwa [ha.ids_eq_nil, List.append_nil]
      obtain ⟨as, r, earlier, has, hrun, hhistory⟩ :=
        ih _ hlt (hs.nodup_ids hids) hq hy hgone hjq (hlane ▸ hready) rfl
      refine ⟨a :: as, r, earlier, List.forall_mem_cons.mpr ⟨ha, has⟩, ?_, hhistory⟩
      rw [run?, hs.step?_eq]
      exact hrun
    obtain ⟨lane, b⟩ := x
    cases b with
    | gone => cases hx
    | asleep =>
        refine hstep (a := .wake w) rfl (.wake hw) hr (workers_setActivity_self hw .awake) rfl rfl hj ?_
        rw [← hn]
        show 4 * p.queue.pending.length + 0 < 4 * p.queue.pending.length + 1
        omega
    | running job =>
        have hqueue := queue_answer p w job true
        refine hstep (a := .run w true) rfl (.answer hw) (by rwa [hqueue]) (workers_answer hw job fun _ => rfl)
          rfl rfl (by rwa [hqueue]) ?_
        rw [← hn, distance, distance, hqueue]
        show 4 * p.queue.pending.length + 1 < 4 * p.queue.pending.length + 2
        omega
    | ran job ok =>
        obtain ⟨hqueue, _, _⟩ := done_fields p w job ok
        have hheld : job.id ∈ p.heldIds := mem_heldIds_of_jobOf (w := w) (by rw [jobOf, hw]; rfl)
        -- the report takes no other job out of the queue
        have hid : j.id ≠ job.id := fun hid =>
          List.disjoint_of_nodup_append hnodup.of_append_left (mem_pendingIds_of_mem hj) (hid ▸ hheld)
        refine hstep (a := .report w) rfl (.report hw) (by rw [hqueue]; exact hr)
          (workers_done hw job ok) rfl rfl ?_ ?_
        · rw [hqueue]
          exact mem_complete hj (Queue.isReady_iff.mp hready).1 hid _
        · have hlen : (p.queue.complete job.id (job.sound && ok)).pending.length ≤
              p.queue.pending.length := by
            rw [Queue.complete, List.length_map]
            exact List.length_filter_le _ _
          rw [← hn, distance, distance, hqueue]
          show 4 * (p.queue.complete job.id _).pending.length + 0 < 4 * p.queue.pending.length + 1
          omega
    | awake =>
        cases htake : p.queue.take? lane with
        | none =>
            have hidle := Queue.take?_eq_none_iff.mp htake j hj
            rw [hready] at hidle
            cases hidle
        | some taken =>
            obtain ⟨job, Q⟩ := taken
            obtain ⟨before, after, hpending, hbefore, hjob, _⟩ := Queue.take?_eq_some_iff.mp htake
            have htakes := Step.take hw hr hpending hbefore hjob
            -- it takes the first ready job, which is this one or one before it
            by_cases heq : job = j
            · refine ⟨[.check w], p.start w job (before ++ after), p.history, ?_, ?_, heq ▸ rfl⟩
              · exact List.forall_mem_singleton.mpr rfl
              · rw [run?, htakes.step?_eq]
                rfl
            · refine hstep (a := .check w) rfl htakes hr
                (workers_setActivity_self (p := { p with queue := _ }) hw _) rfl rfl ?_ ?_
              · rw [hpending, List.mem_append, List.mem_cons] at hj
                rcases hj with hj | rfl | hj
                · exact List.mem_append_left _ hj
                · exact absurd rfl heq
                · exact List.mem_append_right _ hj
              · rw [← hn, distance, distance, hpending]
                show 4 * (before ++ after).length + 2 < 4 * (before ++ job :: after).length + 0
                rw [List.length_append, List.length_append, List.length_cons]
                omega

/-! ## Dependencies that are honoured -/

/-- Whatever follows, a job that this action submits with a dependency on `d` begins only after `d`
has ended, and is told if `d` failed. -/
def Guards (pool : Pool α π) (before : List (Action α π)) (a : Action α π) (d : JobId) : Prop :=
  ∀ after q, pool.Reached (before ++ a :: after) q → ∀ j ∈ a.jobs, d ∈ j.deps →
    ∀ w job earlier, .began w job :: earlier <:+ q.history → job.id = j.id →
      d ∈ endedIds earlier ∧ (d ∈ failedIds earlier → job.sound = false)

variable {before : List (Action α π)} {d : JobId}

theorem guards_of_known (hp : pool.Reached before p) (hd : d ∈ a.ids ∨ d ∈ p.pendingIds) :
    pool.Guards before a d := by
  intro after q hq j hj hdj w job earlier hs hid
  obtain ⟨params, ha⟩ := Action.exists_submission?_of_mem_jobs hj
  obtain ⟨hended, hsound⟩ := hq.began_iff hp ha hj hs hid
  refine ⟨hended d hdj hd.symm, fun hfailed => ?_⟩
  rw [← Bool.not_eq_true]
  exact fun htrue => hsound.mp htrue d hdj hd.symm hfailed

/-- There is always another identity. -/
theorem exists_new_id (ids : List JobId) : ∃ id, id ∉ ids := by
  have hinj : Function.Injective JobId.mk := fun _ _ h => JobId.mk.inj h
  have : Infinite JobId := Infinite.of_injective _ hinj
  obtain ⟨id, hid⟩ := Infinite.exists_notMem_finset ids.toFinset
  exact ⟨id, fun h => hid (List.mem_toFinset.mpr h)⟩

/-- Somebody submits a job that depends on one in a worker's hands, and another worker begins it
before that one ends. -/
theorem exists_not_guards [Inhabited α] (hp : pool.Reached before p)
    (hr : p.queue.running = true) (hd : d ∈ p.heldIds) : ∃ a, ¬ pool.Guards before a d := by
  obtain ⟨job, hjob, rfl⟩ := List.mem_map.mp hd
  obtain ⟨v, hv⟩ := exists_jobOf_of_mem_held hjob
  -- a second worker
  obtain ⟨w, hwv, hlt⟩ : ∃ w, v ≠ w ∧ w < p.workers.length := by
    have htwo := hp.staffed.two_le
    by_cases hzero : v = 0
    · exact ⟨1, by omega, by omega⟩
    · exact ⟨0, hzero, by omega⟩
  have hw : p.workers[w]? = some p.workers[w] := List.getElem?_eq_getElem hlt
  -- a job for its lane, of a new identity
  obtain ⟨id, hid⟩ := exists_new_id (p.ids ++ Action.idsOf before)
  obtain ⟨hidp, hidbefore⟩ := not_or.mp (hid ∘ List.mem_append.mpr)
  have hjobids : job.id ∈ p.ids := List.mem_append_left _ (List.mem_append_right _ hd)
  let lane := p.workers[w].lane
  let j : Job α := ⟨id, [job.id], lane.getD .shared, default⟩
  let late := p.queue.stamp [workJob j] job.params (workJob j)
  have hdeps : late.deps = [] := by
    apply List.eq_nil_iff_forall_not_mem.mpr
    intro d hdl
    obtain ⟨hdj, hknown⟩ := mem_stamp_deps.mp hdl
    rw [List.mem_singleton.mp hdj] at hknown
    rcases hknown with hpending | hnew
    · exact List.disjoint_of_nodup_append hp.nodup_ids.of_append_left hpending hd
    · have heq : job.id = id := List.mem_singleton.mp hnew
      exact hidp (heq ▸ hjobids)
  have hready : Queue.isReady lane late = true := by
    refine Queue.isReady_iff.mpr ⟨hdeps, ?_⟩
    cases hlane : lane with
    | none => exact Or.inl rfl
    | some l => exact Or.inr (by simp only [late, Queue.stamp, workJob, j, hlane, Option.getD_some])
  -- it is accepted, and the second worker gets to it
  have hs : p.Step (.enqueue [j] job.params) (p.accept [workJob j] job.params) :=
    .submit rfl (List.cons_ne_nil _ _) hr
  have hpresent := hp.staffed.present hr _ (List.getElem_mem hlt)
  have hdistinct : ∀ {l : List JobId}, id ∉ l → l.Nodup → (l ++ [id]).Nodup := fun hnew hl =>
    hl.append (List.nodup_singleton id) (List.disjoint_singleton.mpr hnew)
  obtain ⟨as, q, earlier, has, hrun, hhistory⟩ := exists_run_began
    (hs.nodup_ids (hdistinct hidp hp.nodup_ids)) hr
    (workers_wakeAll hw) (by rwa [Activity.isGone_woken])
    (List.mem_append_right _ (List.mem_map_of_mem (List.mem_singleton_self _))) hready
  have hq : pool.Reached (before ++ .enqueue [j] job.params :: as) q := by
    refine hp.extend ?_ ?_
    · have hlater : Action.idsOf as = [] :=
        List.flatMap_eq_nil_iff.mpr fun a ha => (has a ha).ids_eq_nil
      have hnew := hdistinct hidbefore hp.distinct
      rw [Action.idsOf, List.flatMap_append, List.flatMap_cons]
      rw [Action.idsOf] at hlater hnew
      rw [hlater, List.append_nil]
      exact hnew
    · rw [run?, hs.step?_eq]
      exact hrun
  refine ⟨.enqueue [j] job.params, fun hguards => ?_⟩
  obtain ⟨hended, _⟩ := hguards as q hq (workJob j) (List.mem_singleton_self _)
    (List.mem_singleton_self _) w late earlier (hhistory ▸ List.suffix_rfl) rfl
  -- but the first worker still has the job in hand
  have hstill : q.jobOf v = some job := by
    rw [jobOf_of_run has hwv hrun, ← hv]
    exact jobOf_wakeAll v
  have hendedq : job.id ∈ endedIds q.history := by rw [hhistory]; exact hended
  exact List.disjoint_of_nodup_append hq.nodup_ids
    (List.mem_append_right _ (mem_heldIds_of_jobOf hstill)) hendedq

/-- **Which dependencies are honoured.** A dependency on a job of the same submission, or on one that
is pending at the submission, is honoured however clients and workers go on. While the queue runs
these are all the unfinished jobs with that property: a dependency on a job that was accepted and has
not ended is honoured by every submission if and only if no worker has taken the job yet. -/
theorem guards_iff_pending [Inhabited α] (hp : pool.Reached before p) (d : JobId) :
    (∀ a, d ∈ a.ids ∨ d ∈ p.pendingIds → pool.Guards before a d) ∧
      (p.queue.running = true → d ∈ p.pendingIds ∨ d ∈ p.heldIds →
        ((∀ a, pool.Guards before a d) ↔ d ∈ p.pendingIds)) := by
  refine ⟨fun a => guards_of_known hp, ?_⟩
  intro hr hunfinished
  constructor
  · intro hall
    rcases hunfinished with hpending | hheld
    · exact hpending
    · obtain ⟨a, ha⟩ := exists_not_guards hp hr hheld
      exact absurd (hall a) ha
  · intro hpending a
    exact guards_of_known hp (Or.inr hpending)

/-! ### A job that fails while its dependent is on the way

The first job is submitted, and a second one that depends on it. If the first one is pending when
the second comes, the second waits. If a worker has the first in hand, the second begins at once, and
does not hear of the failure. -/

/-- Two workers, each for both lanes. -/
def pair : Pool α π := ofLanes [none, none]

theorem exists_create_pair : ∃ available o, create available o = .ok (pair : Pool α π) :=
  ⟨2, { threads := some 2, dedicatedLane := false }, rfl⟩

/-- A job of this number that waits for the job of the other number. -/
def unitJob (n : Nat) (dep : Option Nat) : Job Unit :=
  ⟨⟨n⟩, (dep.map JobId.mk).toList, .shared, ()⟩

theorem guards_iff_pending_pair :
    ∃ p, pair.Reached [.enqueue [unitJob 0 none] ()] p ∧ p.queue.running = true ∧
      ⟨0⟩ ∈ p.pendingIds ∧
      ∀ a, pair.Guards [.enqueue [unitJob 0 none] ()] a ⟨0⟩ := by
  have hp : pair.Reached [.enqueue [unitJob 0 none] ()]
      (pair.accept [workJob (unitJob 0 none)] ()) :=
    ⟨exists_create_pair, by decide, rfl⟩
  have hpending : ⟨0⟩ ∈ (pair.accept [workJob (unitJob 0 none)] ()).pendingIds := by decide
  exact ⟨_, hp, rfl, hpending,
    ((guards_iff_pending hp ⟨0⟩).2 rfl (Or.inl hpending)).mpr hpending⟩

theorem not_guards_of_held_pair :
    ∃ p, pair.Reached [.enqueue [unitJob 0 none] (), .check 0] p ∧ ⟨0⟩ ∈ p.heldIds ∧
      ¬ pair.Guards [.enqueue [unitJob 0 none] (), .check 0] (.enqueue [unitJob 1 (some 0)] ())
        ⟨0⟩ := by
  refine ⟨_, ⟨exists_create_pair, by decide, rfl⟩, by decide, fun hguards => ?_⟩
  -- the second worker begins, and then the first one reports its failure
  have hq : pair.Reached ([.enqueue [unitJob 0 none] (), .check 0] ++
      .enqueue [unitJob 1 (some 0)] () :: [.check 1, .run 0 false, .report 0]) _ :=
    ⟨exists_create_pair, by decide, rfl⟩
  obtain ⟨hended, _⟩ := hguards _ _ hq (workJob (unitJob 1 (some 0))) (List.mem_singleton_self _)
    (List.mem_singleton_self _) 1 ⟨⟨⟨1⟩, [], .shared, .work ()⟩, (), true⟩ _
    (List.suffix_cons _ _) rfl
  exact absurd hended (by decide)

end Pool

end RenderPlan
