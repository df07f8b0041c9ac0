/-
# RenderPlan.Proofs.Queue.Shutdown -- a stopped queue begins nothing and keeps nobody waiting

From the step on in which a call of `stop` closes the queue, submissions are refused and no job
begins. Whoever waits for a batch that was accepted gets an answer all the same. The barrier of the
batch is in the pool or was found by a call of `stop` or `clear` (`Leads.mem_ids_or_dismissed`); when
the workers have left it is in nobody's hand; if it is still pending on the closed queue, it was found
(`Leads.attended`). Running it and telling it both leave an outcome, and an outcome stays.

What clients do with the identities of their own jobs does not matter here. All that is asked is that
the identity of a barrier is issued for nothing else.
-/
import RenderPlan.Proofs.Queue.Dismissal
import RenderPlan.Proofs.Queue.Outcomes

namespace RenderPlan

variable {α π : Type}

namespace Action

/-- The identity of the barrier of a batch that somebody waits for. -/
def barrier? : Action α π → Option JobId
  | runBatch _ _ barrier => some barrier
  | _ => none

end Action

namespace Pool

variable {p q r pool : Pool α π} {a : Action α π} {as bs done before after : List (Action α π)}
  {i b : JobId}

/-- The identities of barriers are issued for nothing else. A fresh one is made for every barrier, and
no client gets to see it. -/
def PrivateBarriers (as : List (Action α π)) : Prop :=
  ∀ b ∈ as.filterMap Action.barrier?, (Action.idsOf as).count b ≤ 1

instance (as : List (Action α π)) : Decidable (PrivateBarriers as) :=
  inferInstanceAs (Decidable (∀ b ∈ as.filterMap Action.barrier?, (Action.idsOf as).count b ≤ 1))

/-! ## Outcomes stay -/

/-- An outcome is never changed. -/
theorem Step.outcome?_eq (hs : p.Step a q) {o : BatchOutcome} (ho : p.outcome? b = some o) :
    q.outcome? b = some o := by
  have hrelease : ∀ {r : Pool α π} {c : JobId} {new : BatchOutcome}, r.outcome? b = some o →
      (r.release c new).outcome? b = some o := by
    intro r c new hr
    rw [outcome?_release]
    split
    · next hbc =>
        rw [← hbc, hr]
        rfl
    · exact hr
  cases hs with
  | @answer w _ job ok _ =>
      unfold Pool.answer
      cases job.payload with
      | work _ => exact ho
      | barrier => exact hrelease (r := p) ho
  | report _ =>
      unfold Pool.done
      split <;> exact ho
  | abandon _ =>
      unfold Pool.abandonJob
      split
      · exact ho
      · exact hrelease ho
  | _ => exact ho

theorem outcome?_of_run (hrun : p.run? bs = some q) {o : BatchOutcome}
    (ho : p.outcome? b = some o) : q.outcome? b = some o := by
  refine run_keeps (I := fun r => r.outcome? b = some o) hrun ?_ ho
  intro r a s _ hs hr
  exact hs.outcome?_eq hr

/-- A batch is given up by telling its barrier. -/
theorem Step.outcome?_abandoned (hs : p.Step a q) (ho : q.outcome? b = some .abandoned) :
    p.outcome? b = some .abandoned ∨ b ∈ toldIds q.history := by
  cases hs with
  | @answer w _ job ok _ =>
      unfold Pool.answer at ho
      cases hpayload : job.payload with
      | work _ =>
          rw [hpayload] at ho
          exact Or.inl ho
      | barrier =>
          rw [hpayload] at ho
          change (p.release job.id (.completed job.sound)).outcome? b = _ at ho
          rcases outcome?_release_cases p job.id (.completed job.sound) b with hsame | ⟨_, hnew⟩
          · exact Or.inl (hsame ▸ ho)
          · rw [hnew] at ho
            cases ho
  | report _ =>
      unfold Pool.done at ho
      split at ho <;> exact Or.inl ho
  | @abandon call job jobs _ =>
      have hhistory := (abandonJob_fields
        { p with shutdowns := p.shutdowns.set call (.abandoning jobs) } job).2.2
      rw [hhistory]
      unfold Pool.abandonJob at ho
      cases hpayload : job.payload with
      | work _ =>
          rw [hpayload] at ho
          exact Or.inl ho
      | barrier =>
          rw [hpayload] at ho
          let r := Pool.log { p with shutdowns := p.shutdowns.set call (.abandoning jobs) }
            (.abandoned job)
          rcases outcome?_release_cases r job.id .abandoned b with hsame | ⟨hid, _⟩
          · exact Or.inl (hsame ▸ ho)
          · exact Or.inr (hid ▸ List.mem_cons_self ..)
  | _ => exact Or.inl ho

/-- A barrier that is told gives its batch up, if nothing has answered it. -/
theorem Step.told_barrier (hs : p.Step a q)
    (hp : ∀ job ∈ jobsTold p.history, job.payload = .barrier → (p.outcome? job.id).isSome) :
    ∀ job ∈ jobsTold q.history, job.payload = .barrier → (q.outcome? job.id).isSome := by
  intro job hjob hpayload
  have hold : jobsTold q.history = jobsTold p.history → (q.outcome? job.id).isSome := fun heq =>
    hs.isSome_outcome? (hp job (heq ▸ hjob) hpayload)
  cases hs with
  | answer _ => exact hold (congrArg jobsTold (history_answer _ _ _ _))
  | report _ => exact hold (by rw [(done_fields _ _ _ _).2.2]; rfl)
  | @abandon call job' jobs _ =>
      rw [(abandonJob_fields _ job').2.2] at hjob
      rcases List.mem_cons.mp hjob with rfl | hjob
      · -- telling the barrier releases the batch
        have hout := outcome?_release (Pool.log
          { p with shutdowns := p.shutdowns.set call (.abandoning jobs) } (.abandoned job))
          job.id .abandoned job.id
        rw [if_pos rfl] at hout
        simp only [Pool.abandonJob, hpayload]
        exact Option.isSome_of_eq_some hout
      · exact Step.isSome_outcome? (.abandon ‹_›) (hp job hjob hpayload)
  | _ => exact hold rfl

/-! ## Barriers keep their identity to themselves -/

theorem mem_idsOf_of_barrier (hb : b ∈ as.filterMap Action.barrier?) :
    ∃ batch, barrierJob b batch ∈ as.flatMap Action.jobs := by
  obtain ⟨a, ha, hab⟩ := List.mem_filterMap.mp hb
  cases a with
  | runBatch batch params barrier =>
      cases hab
      exact ⟨batch, List.mem_flatMap.mpr
        ⟨_, ha, List.mem_append_right _ (List.mem_singleton_self _)⟩⟩
  | _ => cases hab

/-- A job with the identity of a barrier is that barrier. -/
theorem PrivateBarriers.payload (h : PrivateBarriers as) (hb : b ∈ as.filterMap Action.barrier?)
    (ha : a ∈ as) {j : Job (Payload α)} (hj : j ∈ a.jobs) (hid : j.id = b) :
    j.payload = .barrier := by
  obtain ⟨batch, hmem⟩ := mem_idsOf_of_barrier hb
  have hids : (as.flatMap Action.jobs).map Job.id = Action.idsOf as := List.map_flatMap
  have hcount := h b hb
  rw [← hids] at hcount
  have heq : barrierJob b batch = j :=
    eq_of_count_map_le_one (f := Job.id) hcount hmem (List.mem_flatMap.mpr ⟨a, ha, hj⟩) hid.symm
  rw [← heq]
  rfl

/-- The jobs that the pool has, had or gave up. -/
def everyJob (p : Pool α π) : List (PendingJob (Payload α) π) :=
  p.queue.pending ++ p.held ++ jobsEnded p.history ++ p.dismissed

theorem mem_everyJob {job : PendingJob (Payload α) π} : job ∈ p.everyJob ↔
    job ∈ p.queue.pending ∨ job ∈ p.held ∨ job ∈ jobsEnded p.history ∨ job ∈ p.dismissed := by
  simp only [everyJob, List.mem_append, or_assoc]

/-- What every submitted job has, and keeps while it waits, every job of the pool has. -/
theorem Step.forall_everyJob {P : PendingJob (Payload α) π → Prop} (hs : p.Step a q)
    (hp : ∀ job ∈ p.everyJob, P job)
    (hnew : ∀ jobs params, a.submission? = some (jobs, params) →
      ∀ j ∈ jobs, P (p.queue.stamp jobs params j))
    (hrelease : ∀ id ok job, P job → P (Queue.release id ok job)) : ∀ job ∈ q.everyJob, P job := by
  have hdismissed : ∀ job ∈ q.dismissed, P job := by
    intro job hjob
    rcases List.mem_append.mp (hs.perm_dismissed.mem_iff.mp hjob) with hjob | hjob
    · exact hp job (mem_everyJob.mpr (Or.inr (Or.inr (Or.inr hjob))))
    · unfold found at hjob
      split at hjob
      · exact hp job (mem_everyJob.mpr (Or.inl hjob))
      · cases hjob
  have hpending : ∀ job ∈ p.queue.pending, P job := fun job hjob =>
    hp job (mem_everyJob.mpr (Or.inl hjob))
  have hheld : ∀ job ∈ p.held, P job := fun job hjob =>
    hp job (mem_everyJob.mpr (Or.inr (Or.inl hjob)))
  have hended : ∀ job ∈ jobsEnded p.history, P job := fun job hjob =>
    hp job (mem_everyJob.mpr (Or.inr (Or.inr (Or.inl hjob))))
  suffices hrest : (∀ job ∈ q.queue.pending, P job) ∧ (∀ job ∈ q.held, P job) ∧
      ∀ job ∈ jobsEnded q.history, P job by
    intro job hjob
    rcases mem_everyJob.mp hjob with hjob | hjob | hjob | hjob
    · exact hrest.1 job hjob
    · exact hrest.2.1 job hjob
    · exact hrest.2.2 job hjob
    · exact hdismissed job hjob
  cases hs.change with
  | quiet hqpending hqheld hhistory =>
      rw [hqpending]
      refine ⟨hpending, fun job hjob => hheld job (hqheld.mem_iff.mp hjob), ?_⟩
      rcases hhistory with hh | ⟨job, hh⟩ <;> rw [hh] <;> exact hended
  | accepted ha hqpending hqheld hhistory =>
      rw [hqpending, hqheld, hhistory]
      refine ⟨fun job hjob => ?_, hheld, hended⟩
      rcases List.mem_append.mp hjob with hjob | hjob
      · exact hpending job hjob
      · obtain ⟨j, hj, rfl⟩ := List.mem_map.mp hjob
        exact hnew _ _ ha j hj
  | @began w job before after _ hqpending hleft hqheld hhistory =>
      rw [hqpending] at hpending
      rw [hleft, hhistory]
      refine ⟨fun k hk => hpending k ?_, fun k hk => ?_, hended⟩
      · exact ((List.sublist_cons_self job after).append_left before).subset hk
      · rcases List.mem_cons.mp (hqheld.mem_iff.mp hk) with rfl | hk
        · exact hpending k (List.mem_append_right _ (List.mem_cons_self ..))
        · exact hheld k hk
  | @ended w job answer hqheld hqpending hhistory =>
      rw [hqpending, hhistory]
      refine ⟨fun k hk => ?_, fun k hk => hheld k (hqheld.mem_iff.mpr (List.mem_cons_of_mem _ hk)),
        fun k hk => ?_⟩
      · obtain ⟨k', hk', rfl⟩ := List.mem_map.mp hk
        exact hrelease _ _ k' (hpending k' (List.mem_filter.mp hk').1)
      · rcases List.mem_cons.mp hk with rfl | hk
        · exact hheld k (hqheld.mem_iff.mpr (List.mem_cons_self ..))
        · exact hended k hk
  | cleared hqpending hqheld hhistory =>
      rw [hqpending, hqheld, hhistory]
      exact ⟨nofun, hheld, hended⟩

namespace Leads

theorem payload (h : pool.Leads as p) (hprivate : PrivateBarriers as)
    (hb : b ∈ as.filterMap Action.barrier?) :
    ∀ job ∈ p.everyJob, job.id = b → job.payload = .barrier := by
  refine h.invariant (I := fun r => ∀ job ∈ r.everyJob, job.id = b → job.payload = .barrier) ?_ ?_
  · intro ls _ job hjob
    rw [everyJob, held_ofLanes] at hjob
    cases hjob
  · intro r a s ha hs hr
    refine hs.forall_everyJob (P := fun job => job.id = b → job.payload = .barrier) hr ?_
      fun _ _ _ hjob => hjob
    intro jobs params hsub j hj hid
    have hmem : j ∈ a.jobs := by rwa [Action.jobs_of_submission? hsub]
    exact hprivate.payload hb ha (j := j) hmem hid

theorem told_barrier (h : pool.Leads as p) :
    ∀ job ∈ jobsTold p.history, job.payload = .barrier → (p.outcome? job.id).isSome :=
  h.invariant (I := fun r => ∀ job ∈ jobsTold r.history, job.payload = .barrier →
    (r.outcome? job.id).isSome) (fun _ _ => nofun) fun _ hs => hs.told_barrier

theorem told_of_abandoned (h : pool.Leads as p) :
    p.outcome? b = some .abandoned → b ∈ toldIds p.history := by
  refine h.invariant (I := fun r => r.outcome? b = some .abandoned → b ∈ toldIds r.history)
    (fun _ _ => nofun) ?_
  intro r a s _ hs hr ho
  rcases hs.outcome?_abandoned ho with hold | hnew
  · exact ((hs.change.history_suffix.filterMap _).map _).subset (hr hold)
  · exact hnew

/-- Who is in the pool stays there, or is found by a call of `stop` or `clear`. -/
theorem mem_ids_or_dismissed (h : pool.Leads (before ++ a :: after) p)
    (hcount : (Action.idsOf (before ++ a :: after)).count i ≤ 1) (hr : pool.run? before = some r)
    (hrunning : r.queue.running = true) (hi : i ∈ a.ids) : i ∈ p.ids ∨ i ∈ p.dismissedIds := by
  refine h.induction_from (I := fun _ s => i ∈ s.ids ∨ i ∈ s.dismissedIds) hr ?_ ?_
  · intro s hstep
    exact Or.inl (List.mem_append_left _ (List.mem_append_left _
      (hstep.mem_pendingIds_of_mem_ids hrunning hi)))
  · intro done c s t hpre hleads hs hor
    rcases hor with hmem | hd
    · have hle := (hleads.count_ids_le i).trans (count_done hpre hcount)
      rcases hs.change.mem_ids hle hmem with hmem | ⟨hpending, rfl⟩
      · exact Or.inl hmem
      · exact Or.inr (hs.dismissedIds_of_looks rfl hpending)
    · exact Or.inr (hs.mem_dismissedIds hd)

/-- No two jobs that began have an identity that was issued once. -/
theorem begun_unique (h : pool.Leads as p) (hcount : (Action.idsOf as).count i ≤ 1)
    {job job' : PendingJob (Payload α) π} (hjob : job ∈ jobsBegun p.history)
    (hjob' : job' ∈ jobsBegun p.history) (hid : job.id = i) (hid' : job'.id = i) : job = job' := by
  have hperm := (h.perm_jobsBegun.map fun j => j.id).count_eq i
  rw [List.map_append, map_id_jobsEnded, List.count_append] at hperm
  have hle := h.count_ids_le i
  rw [count_ids, heldIds] at hle
  have hone : ((jobsBegun p.history).map fun j => j.id).count job.id ≤ 1 := by
    rw [hid]
    omega
  exact eq_of_count_map_le_one (f := fun j => j.id) hone hjob hjob' (hid.trans hid'.symm)

/-- A call of `stop` is what closes the queue. -/
theorem stopped_iff (h : pool.Leads as p) : p.queue.running = false ↔ .close ∈ as := by
  refine h.induction (I := fun done r => r.queue.running = false ↔ .close ∈ done) ?_ ?_
  · intro ls _
    exact ⟨nofun, nofun⟩
  · intro done a r s _ _ hs hr
    rw [List.mem_append, List.mem_singleton]
    by_cases hclose : a = .close
    · subst hclose
      exact ⟨fun _ => Or.inr rfl, fun _ => hs.stopped_of_close⟩
    · rw [hs.running_eq hclose, hr]
      exact ⟨Or.inl, fun hor => hor.resolve_right fun heq => hclose heq.symm⟩

end Leads

/-! ## A closed queue -/

/-- Whatever is submitted is refused and changes nothing, and whatever happens next, no job begins. -/
structure Shut (p : Pool α π) : Prop where
  refuses : ∀ batch params, batch ≠ [] → ∃ e, p.enqueue batch params = .error e ∧
    e.kind = .scheduler ∧ p.step? (.enqueue batch params) = some p
  refuses_batch : ∀ batch params b, ∃ e, p.runBatch batch params b = .error e ∧
    e.kind = .scheduler ∧ p.step? (.runBatch batch params b) = some p
  stays : ∀ bs q, p.run? bs = some q → q.queue.running = false
  begins_nothing : ∀ bs q, p.run? bs = some q → jobsBegun q.history = jobsBegun p.history

theorem Step.jobsBegun_eq (hs : p.Step a q) (hstopped : p.queue.running = false) :
    jobsBegun q.history = jobsBegun p.history := by
  cases hs.change with
  | quiet _ _ hhistory =>
      rcases hhistory with hh | ⟨job, hh⟩
      · rw [hh]
      · rw [hh]
        rfl
  | accepted _ _ _ hhistory => rw [hhistory]
  | began _ _ _ _ _ hr =>
      rw [hstopped] at hr
      cases hr
  | ended _ _ hhistory =>
      rw [hhistory]
      rfl
  | cleared _ _ hhistory => rw [hhistory]

theorem jobsBegun_of_run (hrun : p.run? bs = some q) (hstopped : p.queue.running = false) :
    q.queue.running = false ∧ jobsBegun q.history = jobsBegun p.history := by
  refine run_keeps (I := fun r => r.queue.running = false ∧
    jobsBegun r.history = jobsBegun p.history) hrun ?_ ⟨hstopped, rfl⟩
  intro r a s _ hs ⟨hr, hbegun⟩
  exact ⟨hs.stopped_of_stopped hr, (hs.jobsBegun_eq hr).trans hbegun⟩

theorem shut_of_stopped (hstopped : p.queue.running = false) : p.Shut where
  refuses batch params hbatch := by
    have hjobs : batch.map workJob ≠ [] := by simpa using hbatch
    have herror : p.enqueue batch params = .error .queueStopped :=
      submit_eq_error params hjobs hstopped
    refine ⟨_, herror, rfl, ?_⟩
    simp only [step?, herror]
  refuses_batch batch params b := by
    have hjobs : batch.map workJob ++ [barrierJob b batch] ≠ [] := by simp
    have herror : p.runBatch batch params b = .error .queueStopped :=
      submit_eq_error params hjobs hstopped
    refine ⟨_, herror, rfl, ?_⟩
    simp only [step?, herror]
  stays _ _ hrun := (jobsBegun_of_run hrun hstopped).1
  begins_nothing _ _ hrun := (jobsBegun_of_run hrun hstopped).2

/-! ## Whoever waits for a batch -/

/-- Whoever waits for the batch has got what its barrier was told, or that the barrier never ran. -/
structure Released (p : Pool α π) (b : JobId) : Prop where
  ran : ∀ job ∈ jobsBegun p.history, job.id = b → p.outcome? b = some (.completed job.sound)
  never_ran : (∀ job ∈ jobsBegun p.history, job.id ≠ b) → p.outcome? b = some .abandoned

theorem held_eq_nil_of_gone (hgone : ∀ x ∈ p.workers, x.activity.isGone = true) : p.held = [] := by
  refine List.filterMap_eq_nil_iff.mpr fun x hx => ?_
  have hx' := hgone x hx
  unfold Worker.job?
  cases hact : x.activity <;> rw [hact] at hx'
  all_goals first | rfl | cases hx'

namespace Leads

variable {batch : List (Job α)} {params : π}

/-- A batch that was answered has a barrier that began. -/
theorem barrier_began_of_completed (h : pool.Leads as p) (hprivate : PrivateBarriers as)
    (hb : b ∈ as.filterMap Action.barrier?) {ok : Bool}
    (hout : p.outcome? b = some (.completed ok)) :
    ∃ job ∈ jobsBegun p.history, job.id = b ∧ job.payload = .barrier ∧ job.sound = ok := by
  obtain ⟨w, job, hbegan, hid, hsound⟩ := h.answered.completed hout
  have hjob : job ∈ jobsBegun p.history := mem_jobsBegun.mpr ⟨w, hbegan⟩
  refine ⟨job, hjob, hid, h.payload hprivate hb job ?_ hid, hsound⟩
  rw [mem_everyJob]
  rcases List.mem_append.mp (h.perm_jobsBegun.mem_iff.mp hjob) with hheld | hended
  · exact Or.inr (Or.inl hheld)
  · exact Or.inr (Or.inr (Or.inl hended))

theorem released (h : pool.Leads (before ++ .runBatch batch params b :: after) p)
    (hprivate : PrivateBarriers (before ++ .runBatch batch params b :: after))
    (hr : pool.run? before = some r) (hrunning : r.queue.running = true)
    (hstopped : p.queue.running = false) (hgone : ∀ x ∈ p.workers, x.activity.isGone = true)
    (hrest : p.AtRest) : p.Released b := by
  have hb : b ∈ (before ++ .runBatch batch params b :: after).filterMap Action.barrier? := by
    simp [Action.barrier?]
  have hcount := hprivate b hb
  have hheld := held_eq_nil_of_gone hgone
  have hbegun : (jobsBegun p.history).Perm (jobsEnded p.history) := by
    simpa [hheld] using h.perm_jobsBegun
  -- nobody works on the barrier, and who is pending on the closed queue was told
  have hplace : b ∈ endedIds p.history ∨ b ∈ toldIds p.history := by
    have hsubmitted : b ∈ (Action.runBatch batch params b : Action α π).ids := by
      simp [Action.ids, Action.jobs, Action.submission?, barrierJob]
    rw [← hrest.dismissedIds_eq]
    rcases h.mem_ids_or_dismissed hcount hr hrunning hsubmitted with hmem | hd
    · rw [ids, heldIds, hheld, List.map_nil, List.append_nil, List.mem_append] at hmem
      refine hmem.symm.imp_right fun hpending => ?_
      rcases h.attended hstopped with ⟨s, hs, hj⟩ | hall
      · rw [hrest.not_joining s hs] at hj
        cases hj
      · exact hall b hpending
    · exact Or.inr hd
  constructor
  · intro job hjob hid
    have hended := hbegun.mem_iff.mp hjob
    obtain ⟨w, answer, hreport⟩ := mem_jobsEnded.mp hended
    have hpayload := h.payload hprivate hb job (mem_everyJob.mpr (Or.inr (Or.inr (Or.inl hended)))) hid
    have hsome := h.answered.ended hreport hpayload
    rw [hid] at hsome
    obtain ⟨o, ho⟩ := Option.isSome_iff_exists.mp hsome
    cases o with
    | completed ok =>
        obtain ⟨job', hjob', hid', _, rfl⟩ := h.barrier_began_of_completed hprivate hb ho
        rw [h.begun_unique hcount hjob hjob' hid hid']
        exact ho
    | abandoned =>
        -- who is told has not ended
        have htold := h.told_of_abandoned ho
        rw [← hrest.dismissedIds_eq] at htold
        refine absurd ?_ (h.dismissed_apart hcount htold).2.1
        exact mem_endedIds.mpr ⟨w, job, answer, hreport, hid⟩
  · intro hnever
    have htold : b ∈ toldIds p.history := by
      refine hplace.resolve_left fun hended => ?_
      obtain ⟨w, job, answer, hreport, hid⟩ := mem_endedIds.mp hended
      exact hnever job (hbegun.mem_iff.mpr (mem_jobsEnded.mpr ⟨w, answer, hreport⟩)) hid
    obtain ⟨job, hjob, hid⟩ := List.mem_map.mp htold
    have hdismissed : job ∈ p.dismissed := List.mem_append_left _ hjob
    have hpayload := h.payload hprivate hb job
      (mem_everyJob.mpr (Or.inr (Or.inr (Or.inr hdismissed)))) hid
    have hsome := h.told_barrier job hjob hpayload
    rw [hid] at hsome
    obtain ⟨o, ho⟩ := Option.isSome_iff_exists.mp hsome
    cases o with
    | completed ok =>
        obtain ⟨job', hjob', hid', _⟩ := h.barrier_began_of_completed hprivate hb ho
        exact absurd hid' (hnever job' hjob')
    | abandoned => exact ho

/-- **A stopped queue begins nothing and keeps nobody waiting.** Clients submit, stop and clear in any
order, and workers do their steps. From the first call of `stop` on, submissions are refused and no
job begins. A batch that was answered has a barrier that began, with that answer, and no outcome
changes. Once the workers have left and no call is under way, every batch that was accepted has its
outcome: what the barrier was told if it ran, and otherwise that it never will. -/
theorem shutdown_releases (h : pool.Leads as p) (hprivate : PrivateBarriers as) :
    (p.queue.running = false ↔ .close ∈ as) ∧
      (p.queue.running = false → p.Shut) ∧
      (∀ b o, p.outcome? b = some o → ∀ bs q, p.run? bs = some q → q.outcome? b = some o) ∧
      (∀ b ok, b ∈ as.filterMap Action.barrier? → p.outcome? b = some (.completed ok) →
        ∃ job ∈ jobsBegun p.history, job.id = b ∧ job.payload = .barrier ∧ job.sound = ok) ∧
      (p.queue.running = false → (∀ x ∈ p.workers, x.activity.isGone = true) → p.AtRest →
        ∀ before batch params b after r r', as = before ++ .runBatch batch params b :: after →
          pool.run? before = some r → r.runBatch batch params b = .ok r' → p.Released b) := by
  refine ⟨h.stopped_iff, shut_of_stopped, fun b o ho bs q hrun => outcome?_of_run hrun ho,
    fun b ok hb hout => h.barrier_began_of_completed hprivate hb hout, ?_⟩
  intro hstopped hgone hrest before batch params b after r r' has hr haccepted
  subst has
  refine h.released hprivate hr ?_ hstopped hgone hrest
  -- a closed queue would have refused the batch
  rw [← Bool.not_eq_false]
  intro hclosed
  obtain ⟨e, herror, _⟩ := (shut_of_stopped hclosed).refuses_batch batch params b
  rw [herror] at haccepted
  cases haccepted

end Leads

/-! ### A queue that is stopped while one batch runs and another waits

The first batch ends before the stop. The second one is accepted, a worker begins its job, and then
the queue is stopped: the job runs to its end, and the barrier behind it never begins. -/

/-- The barriers are `1` and `3`; between the two runs of a job the queue is stopped. -/
def stoppedMidway : List (Action Unit Unit) :=
  [.runBatch [unitJob 0 none] () ⟨1⟩, .check 0, .run 0 true, .report 0, .check 0, .run 0 true,
    .report 0, .runBatch [unitJob 2 none] () ⟨3⟩, .check 0, .close, .run 0 true, .report 0, .check 0,
    .check 1, .join 0, .abandon 0]

theorem shutdown_releases_stoppedMidway : ∃ p : Pool Unit Unit, pair.Leads stoppedMidway p ∧
    PrivateBarriers stoppedMidway ∧ p.Shut ∧ p.Released ⟨1⟩ ∧ p.Released ⟨3⟩ ∧
      p.outcome? ⟨1⟩ = some (.completed true) ∧ p.outcome? ⟨3⟩ = some .abandoned := by
  have hp : pair.Leads stoppedMidway _ := ⟨exists_create_pair, rfl⟩
  have hprivate : PrivateBarriers stoppedMidway := by decide
  obtain ⟨_, hshut, _, _, hreleased⟩ := hp.shutdown_releases hprivate
  have hall := hreleased rfl (by decide) (by decide)
  refine ⟨_, hp, hprivate, hshut rfl, ?_, ?_, by decide, by decide⟩
  · exact hall [] _ _ _ (stoppedMidway.drop 1) _ _ rfl rfl rfl
  · exact hall (stoppedMidway.take 7) _ _ _ (stoppedMidway.drop 8) _ _ rfl rfl rfl

end Pool

end RenderPlan
