/-
# RenderPlan.Proofs.Queue.Custody -- where every accepted job is

The identity, the lane, the payload and the parameters of a job stay as they were submitted; its
dependency set shrinks. The first four are its ticket. A step moves tickets between the pending jobs,
the workers' hands and the reports; a submission brings its tickets in, if it is accepted, and a call
of `clear` takes tickets out (`Change.perm_tickets`). Over a run that gives the books: what was
accepted is what the pool keeps together with what was cleared away (`Reached.books`).

Where each identity is issued once, the books leave every job one place at a time, and the place tells
how often the job has run (`Reached.tally_eq`). The pending jobs keep the order of their submission
(`Change.sublist_tickets`), and a worker takes the first one that is ready for its lane.
-/
import RenderPlan.Proofs.Queue.Progress

namespace RenderPlan

variable {α β π : Type}

/-! ## Tickets -/

/-- What of a job stays the same while it waits. -/
structure Ticket (α π : Type) where
  id : JobId
  lane : Lane
  payload : α
  params : π
  deriving DecidableEq

/-- The ticket of a job that is submitted with these parameters. -/
def Job.ticket (params : π) (j : Job α) : Ticket α π := ⟨j.id, j.lane, j.payload, params⟩

/-- The ticket of a job that was submitted. -/
def PendingJob.ticket (j : PendingJob α π) : Ticket α π := j.toJob.ticket j.params

/-- The tickets of these jobs. -/
def ticketsOf (jobs : List (PendingJob α π)) : List (Ticket α π) := jobs.map PendingJob.ticket

theorem map_id_ticketsOf (jobs : List (PendingJob α π)) :
    (ticketsOf jobs).map Ticket.id = jobs.map fun j => j.id := by
  rw [ticketsOf, List.map_map]
  rfl

theorem ticketsOf_stamp (q : Queue α π) (jobs js : List (Job α)) (params : π) :
    ticketsOf (js.map (q.stamp jobs params)) = js.map (Job.ticket params) := by
  rw [ticketsOf, List.map_map]
  rfl

theorem ticketsOf_release (id : JobId) (ok : Bool) (jobs : List (PendingJob α π)) :
    ticketsOf (jobs.map (Queue.release id ok)) = ticketsOf jobs := by
  rw [ticketsOf, List.map_map]
  rfl

/-- The report of a job takes no ticket from the queue, where no pending job has its identity. -/
theorem ticketsOf_complete (q : Queue α π) {id : JobId} (ok : Bool)
    (hid : id ∉ q.pending.map fun j => j.id) :
    ticketsOf (q.complete id ok).pending = ticketsOf q.pending := by
  have hall : (q.pending.filter fun j => j.id ≠ id) = q.pending := by
    refine List.filter_eq_self.mpr fun j hj => decide_eq_true ?_
    rintro rfl
    exact hid (List.mem_map_of_mem hj)
  simp only [Queue.complete, hall]
  exact ticketsOf_release id ok q.pending

namespace Pool

variable {p q pool : Pool α π} {a : Action α π} {as : List (Action α π)}
  {t : Ticket (Payload α) π}

/-! ## What comes and what goes -/

/-- The jobs that an action submits and the queue accepts. -/
def accepted (p : Pool α π) (a : Action α π) : List (Ticket (Payload α) π) :=
  match a.submission? with
  | some (jobs, params) =>
    match p.submit jobs params with
    | .ok _ => jobs.map (Job.ticket params)
    | .error _ => []
  | none => []

/-- The jobs that an action clears away. -/
def cleared (p : Pool α π) : Action α π → List (Ticket (Payload α) π)
  | .clear => ticketsOf p.queue.pending
  | _ => []

/-- The jobs that are pending, in a worker's hand, or completed. -/
def kept (p : Pool α π) : List (PendingJob (Payload α) π) :=
  p.queue.pending ++ p.held ++ jobsEnded p.history

theorem accepted_of_running {jobs : List (Job (Payload α))} {params : π}
    (ha : a.submission? = some (jobs, params)) (hr : p.queue.running = true) :
    p.accepted a = jobs.map (Job.ticket params) := by
  simp only [accepted, ha]
  by_cases hjobs : jobs = []
  · subst hjobs
    rfl
  · rw [submit_eq_ok params hjobs hr]

/-- What submits nothing, or submits to a closed queue, brings nothing in. -/
theorem accepted_eq_nil (hnone : p.queue.running = true → a.jobs = []) : p.accepted a = [] := by
  unfold accepted
  split
  · next jobs params ha =>
      rw [Action.jobs_of_submission? ha] at hnone
      by_cases hjobs : jobs = []
      · subst hjobs
        rfl
      · have hstopped : p.queue.running = false := by
          rw [← Bool.not_eq_true]
          exact fun hr => hjobs (hnone hr)
        rw [submit_eq_error params hjobs hstopped]
  · rfl

theorem cleared_eq_nil (ha : a ≠ .clear) : p.cleared a = [] := by
  cases a <;> first | rfl | exact absurd rfl ha

theorem map_id_accepted_sublist (p : Pool α π) (a : Action α π) :
    ((p.accepted a).map Ticket.id).Sublist a.ids := by
  unfold accepted
  split
  · next jobs params ha =>
      rw [Action.ids, Action.jobs_of_submission? ha]
      split
      · rw [List.map_map]
        exact .refl _
      · exact List.nil_sublist _
  · exact List.nil_sublist _

theorem map_id_kept (p : Pool α π) : (ticketsOf p.kept).map Ticket.id = p.ids := by
  rw [map_id_ticketsOf, kept, List.map_append, List.map_append, map_id_jobsEnded]
  rfl

/-! ## One step -/

/-- A job in a worker's hand is not pending as well. -/
theorem notMem_pendingIds_of_held (hnodup : p.ids.Nodup) {job : PendingJob (Payload α) π}
    (hjob : job ∈ p.held) : job.id ∉ p.pendingIds := by
  intro hpending
  have hdisjoint := List.disjoint_of_nodup_append hnodup.of_append_left
  exact hdisjoint hpending (List.mem_map_of_mem hjob)

/-- **Nothing is lost.** What a step brings in and what was there before is there afterwards, or the
step cleared it away. -/
theorem Change.perm_tickets (h : p.Change a q) (hnodup : p.ids.Nodup) :
    (ticketsOf p.kept ++ p.accepted a).Perm (ticketsOf q.kept ++ p.cleared a) := by
  cases h with
  | quiet hpending hheld hhistory hnone ha =>
      have hended : jobsEnded q.history = jobsEnded p.history := by
        rcases hhistory with hh | ⟨job, hh⟩
        · rw [hh]
        · rw [hh]
          rfl
      rw [accepted_eq_nil hnone, cleared_eq_nil ha, List.append_nil, List.append_nil, kept, kept,
        hpending, hended]
      exact ((hheld.symm.append_left _).append_right _).map _
  | @accepted jobs params ha hpending hheld hhistory hr =>
      have hclear : p.cleared a = [] := cleared_eq_nil (by rintro rfl; cases ha)
      rw [accepted_of_running ha hr, hclear, List.append_nil, kept, kept, hpending, hheld, hhistory,
        ← ticketsOf_stamp p.queue jobs jobs params]
      simp only [ticketsOf, List.map_append, List.append_assoc]
      -- the new tickets move to the end of the pending ones
      refine List.Perm.append_left _ ?_
      exact (List.Perm.of_eq (List.append_assoc _ _ _).symm).trans List.perm_append_comm
  | @began w job before after _ hpending hleft hheld hhistory _ ha =>
      subst ha
      rw [accepted_eq_nil fun _ => rfl, cleared_eq_nil (a := .check w) nofun, List.append_nil,
        List.append_nil]
      refine List.Perm.map _ ?_
      rw [kept, kept, hpending, hleft, hhistory]
      refine List.Perm.append_right _ ?_
      have hmove : (before ++ job :: after ++ p.held).Perm (before ++ after ++ job :: p.held) := by
        rw [List.append_assoc, List.append_assoc]
        exact List.Perm.append_left _ List.perm_middle.symm
      exact hmove.trans (hheld.symm.append_left _)
  | @ended w job answer hheld hpending hhistory ha =>
      subst ha
      have hjob : job ∈ p.held := hheld.mem_iff.mpr (List.mem_cons_self ..)
      have hsame := ticketsOf_complete p.queue (job.sound && answer)
        (notMem_pendingIds_of_held hnodup hjob)
      rw [accepted_eq_nil fun _ => rfl, cleared_eq_nil (a := .report w) nofun, List.append_nil,
        List.append_nil, kept, kept, hpending, hhistory]
      simp only [ticketsOf, List.map_append] at hsame ⊢
      rw [hsame, List.append_assoc, List.append_assoc]
      refine List.Perm.append_left _ ?_
      exact ((hheld.map _).append_right _).trans List.perm_middle.symm
  | cleared hpending hheld hhistory ha =>
      subst ha
      rw [accepted_eq_nil fun _ => rfl, List.append_nil, kept, kept, hpending, hheld, hhistory]
      simp only [Pool.cleared, ticketsOf, List.map_append, List.nil_append, List.append_assoc]
      exact List.perm_append_comm.trans (.of_eq (List.append_assoc _ _ _))

/-- **Order is kept.** The pending jobs stand as before, less some, and new ones come last. -/
theorem Change.sublist_tickets (h : p.Change a q) :
    (ticketsOf q.queue.pending).Sublist (ticketsOf p.queue.pending ++ p.accepted a) := by
  have hkeeps : (ticketsOf q.queue.pending).Sublist (ticketsOf p.queue.pending) →
      (ticketsOf q.queue.pending).Sublist (ticketsOf p.queue.pending ++ p.accepted a) := fun hs =>
    hs.trans (List.sublist_append_left _ _)
  cases h with
  | quiet hpending => exact hkeeps (hpending ▸ .refl _)
  | @accepted jobs params ha hpending _ _ hr =>
      rw [accepted_of_running ha hr, hpending, ← ticketsOf_stamp p.queue jobs jobs params]
      simp only [ticketsOf, List.map_append]
      exact .refl _
  | @began w job before after _ hpending hleft =>
      refine hkeeps ?_
      rw [hpending, hleft]
      exact ((List.sublist_cons_self job after).append_left before).map _
  | ended _ hpending =>
      refine hkeeps ?_
      rw [hpending, Queue.complete, ticketsOf_release]
      exact List.filter_sublist.map _
  | cleared hpending =>
      rw [hpending]
      exact List.nil_sublist _

/-- What a worker begins it takes from the pending jobs: the first one that is ready for its lane. -/
theorem Step.began_cases (hs : p.Step a q) {w : Nat} {job : PendingJob (Payload α) π}
    (h : .began w job ∈ q.history) : .began w job ∈ p.history ∨
      ∃ lane, p.workers[w]? = some ⟨lane, .awake⟩ ∧ Queue.isReady lane job = true := by
  cases hs with
  | @take w' lane job' before after hw _ _ _ hready =>
      rcases List.mem_cons.mp h with heq | h
      · cases heq
        exact Or.inr ⟨lane, hw, hready⟩
      · exact Or.inl h
  | answer _ =>
      rw [history_answer] at h
      exact Or.inl h
  | report _ =>
      rw [(done_fields _ _ _ _).2.2] at h
      rcases List.mem_cons.mp h with heq | h
      · cases heq
      · exact Or.inl h
  | abandon _ =>
      rw [(abandonJob_fields _ _).2.2] at h
      rcases List.mem_cons.mp h with heq | h
      · cases heq
      · exact Or.inl h
  | _ => exact Or.inl h

/-- Worker `w` takes the job: it is ready for the lane of the worker, and no job before it is. -/
def Dispatches (p q : Pool α π) (w : Nat) (job : PendingJob (Payload α) π) : Prop :=
  ∃ before after, p.queue.pending = before ++ job :: after ∧
    Queue.isReady (p.laneOf w) job = true ∧ (∀ k ∈ before, Queue.isReady (p.laneOf w) k = false) ∧
      q.queue.pending = before ++ after

theorem Step.dispatches {w : Nat} (hs : p.Step (.check w) q) {job : PendingJob (Payload α) π}
    (hjob : q.jobOf w = some job) : p.Dispatches q w job := by
  cases hs with
  | submit ha _ _ => cases ha
  | refuse ha _ => cases ha
  | @take _ lane job' before after hw _ hpending hbefore hready =>
      have hlane : p.laneOf w = lane := by rw [laneOf, hw]; rfl
      have hsame : (p.start w job' (before ++ after)).jobOf w = some job' := by
        have hself := workers_setActivity_self
          (p := { p with queue := { p.queue with pending := before ++ after } }) hw (.running job')
        rw [jobOf]
        exact (congrArg (·.bind Worker.job?) hself).trans rfl
      obtain rfl : job' = job := Option.some.inj (hsame.symm.trans hjob)
      rw [← hlane] at hbefore hready
      exact ⟨before, after, hpending, hready, hbefore, rfl⟩
  | sleep hw _ _ =>
      rw [jobOf, workers_setActivity_self hw] at hjob
      cases hjob
  | leave hw _ =>
      rw [jobOf, workers_setActivity_self hw] at hjob
      cases hjob

/-- No two workers have jobs of one identity in hand. -/
theorem jobOf_unique (hnodup : p.heldIds.Nodup) {v w : Nat} {job job' : PendingJob (Payload α) π}
    (hv : p.jobOf v = some job) (hw : p.jobOf w = some job') (hid : job.id = job'.id) : v = w := by
  have hpairs : p.workers.Pairwise fun x y => ∀ j, x.job? = some j → ∀ k, y.job? = some k →
      j.id ≠ k.id := by
    rw [heldIds, held, List.Nodup, List.pairwise_map, List.pairwise_filterMap] at hnodup
    exact hnodup
  have happart : ∀ {v w : Nat} {j k : PendingJob (Payload α) π}, v < w → p.jobOf v = some j →
      p.jobOf w = some k → j.id ≠ k.id := by
    intro v w j k hlt hj hk
    obtain ⟨x, hx, hj⟩ := Option.bind_eq_some_iff.mp hj
    obtain ⟨y, hy, hk⟩ := Option.bind_eq_some_iff.mp hk
    obtain ⟨hvlt, rfl⟩ := List.getElem?_eq_some_iff.mp hx
    obtain ⟨hwlt, rfl⟩ := List.getElem?_eq_some_iff.mp hy
    exact List.pairwise_iff_getElem.mp hpairs v w hvlt hwlt hlt j hj k hk
  rcases Nat.lt_trichotomy v w with hlt | heq | hgt
  · exact absurd hid (happart hlt hv hw)
  · exact heq
  · exact absurd hid.symm (happart hgt hw hv)

/-! ## The books of a run -/

theorem Reached.nodup_heldIds (h : pool.Reached as p) : p.heldIds.Nodup :=
  h.nodup_ids.of_append_left.of_append_right

open scoped List in
/-- **The books.** What was accepted is kept, or was cleared away. -/
theorem Reached.books (h : pool.Reached as p) :
    (pool.along accepted as).Perm (ticketsOf p.kept ++ pool.along cleared as) := by
  refine h.induction (I := fun done r => (pool.along accepted done).Perm
    (ticketsOf r.kept ++ pool.along cleared done)) ?_ ?_
  · intro ls _
    rw [kept, held_ofLanes]
    exact .refl _
  · intro done a r s hreached hs hr
    rw [along_snoc hreached.run, along_snoc hreached.run]
    calc pool.along accepted done ++ r.accepted a
      _ ~ ticketsOf r.kept ++ pool.along cleared done ++ r.accepted a := hr.append_right _
      _ ~ ticketsOf r.kept ++ r.accepted a ++ pool.along cleared done := by
        rw [List.append_assoc, List.append_assoc]
        exact List.Perm.append_left _ List.perm_append_comm
      _ ~ ticketsOf s.kept ++ r.cleared a ++ pool.along cleared done :=
        (hs.change.perm_tickets hreached.nodup_ids).append_right _
      _ ~ ticketsOf s.kept ++ (pool.along cleared done ++ r.cleared a) := by
        rw [List.append_assoc]
        exact List.Perm.append_left _ List.perm_append_comm

/-- The pending jobs stand in the order of their submission. -/
theorem Reached.sublist_accepted (h : pool.Reached as p) :
    (ticketsOf p.queue.pending).Sublist (pool.along accepted as) := by
  refine h.induction (I := fun done r => (ticketsOf r.queue.pending).Sublist
    (pool.along accepted done)) (fun _ _ => .refl _) ?_
  intro done a r s hreached hs hr
  rw [along_snoc hreached.run]
  exact hs.change.sublist_tickets.trans (hr.append_right _)

/-- No identity is accepted twice. -/
theorem Reached.nodup_accepted (h : pool.Reached as p) :
    ((pool.along accepted as).map Ticket.id).Nodup := by
  have hsub : ((pool.along accepted as).map Ticket.id).Sublist (Action.idsOf as) := by
    refine h.induction (I := fun done _ => ((pool.along accepted done).map Ticket.id).Sublist
      (Action.idsOf done)) (fun _ _ => .refl _) ?_
    intro done a r s hreached _ hr
    rw [along_snoc hreached.run, List.map_append, Action.idsOf_append, Action.idsOf_cons]
    exact hr.append ((r.map_id_accepted_sublist a).trans (List.sublist_append_left _ _))
  exact h.distinct.sublist hsub

/-! ## Places -/

/-- Where a job can be. -/
inductive Place where
  | pending
  /-- In the hand of this worker. -/
  | running (worker : Nat)
  | completed
  | cleared
  deriving DecidableEq, Repr

/-- How often an identity occurs among the pending jobs, in workers' hands, among the completed jobs,
and among those that were cleared away. -/
structure Tally where
  pending : Nat
  held : Nat
  ended : Nat
  cleared : Nat
  deriving DecidableEq

namespace Place

/-- A job at this place occurs there, once, and nowhere else. -/
def tally : Place → Tally
  | pending => ⟨1, 0, 0, 0⟩
  | running _ => ⟨0, 1, 0, 0⟩
  | completed => ⟨0, 0, 1, 0⟩
  | cleared => ⟨0, 0, 0, 1⟩

/-- How often a job at this place has begun. -/
def begun : Place → Nat
  | pending | cleared => 0
  | running _ | completed => 1

/-- How often a job at this place has been reported done. -/
def ended : Place → Nat
  | completed => 1
  | _ => 0

end Place

/-- The job is at this place of the pool `p`, to which the actions have led. -/
def IsAt (pool : Pool α π) (as : List (Action α π)) (p : Pool α π) (t : Ticket (Payload α) π) :
    Place → Prop
  | .pending => t ∈ ticketsOf p.queue.pending
  | .running w => ∃ job, p.jobOf w = some job ∧ job.ticket = t
  | .completed => t ∈ ticketsOf (jobsEnded p.history)
  | .cleared => t ∈ pool.along cleared as

/-- How often an identity occurs at each place. -/
def tally (pool : Pool α π) (as : List (Action α π)) (p : Pool α π) (i : JobId) : Tally :=
  ⟨p.pendingIds.count i, p.heldIds.count i, (endedIds p.history).count i,
    ((pool.along cleared as).map Ticket.id).count i⟩

theorem count_pos_of_mem_ticketsOf {jobs : List (PendingJob (Payload α) π)}
    (ht : t ∈ ticketsOf jobs) : 0 < (jobs.map fun j => j.id).count t.id := by
  rw [← map_id_ticketsOf]
  exact List.count_pos_iff.mpr (List.mem_map_of_mem ht)

namespace Reached

theorem mem_accepted_iff (h : pool.Reached as p) :
    t ∈ pool.along accepted as ↔ ∃ place, IsAt pool as p t place := by
  rw [h.books.mem_iff, kept, ticketsOf, List.map_append, List.map_append]
  simp only [List.mem_append]
  constructor
  · rintro (((hpending | hheld) | hended) | hcleared)
    · exact ⟨.pending, hpending⟩
    · obtain ⟨job, hjob, rfl⟩ := List.mem_map.mp hheld
      obtain ⟨w, hw⟩ := exists_jobOf_of_mem_held hjob
      exact ⟨.running w, job, hw, rfl⟩
    · exact ⟨.completed, hended⟩
    · exact ⟨.cleared, hcleared⟩
  · rintro ⟨place, hat⟩
    cases place with
    | pending => exact Or.inl (Or.inl (Or.inl hat))
    | running w =>
        obtain ⟨job, hjob, rfl⟩ := hat
        exact Or.inl (Or.inl (Or.inr (List.mem_map_of_mem (mem_held_of_jobOf hjob))))
    | completed => exact Or.inl (Or.inr hat)
    | cleared => exact Or.inr hat

/-- Where a job is, there it is once, and it is nowhere else. -/
theorem tally_eq (h : pool.Reached as p) {place : Place} (hat : IsAt pool as p t place) :
    tally pool as p t.id = place.tally := by
  have hone := List.nodup_iff_count_le_one.mp h.nodup_accepted t.id
  have hbooks := (h.books.map Ticket.id).count_eq t.id
  rw [List.map_append, map_id_kept, List.count_append, count_ids] at hbooks
  rw [hbooks] at hone
  cases place with
  | pending =>
      have hpos : 0 < p.pendingIds.count t.id := count_pos_of_mem_ticketsOf hat
      simp only [tally, Place.tally, Tally.mk.injEq]
      omega
  | running w =>
      obtain ⟨job, hjob, rfl⟩ := hat
      have hpos : 0 < p.heldIds.count job.ticket.id :=
        List.count_pos_iff.mpr (mem_heldIds_of_jobOf hjob)
      simp only [tally, Place.tally, Tally.mk.injEq]
      omega
  | completed =>
      have hpos : 0 < (endedIds p.history).count t.id := by
        rw [← map_id_jobsEnded]
        exact count_pos_of_mem_ticketsOf hat
      simp only [tally, Place.tally, Tally.mk.injEq]
      omega
  | cleared =>
      have hpos : 0 < ((pool.along cleared as).map Ticket.id).count t.id :=
        List.count_pos_iff.mpr (List.mem_map_of_mem hat)
      simp only [tally, Place.tally, Tally.mk.injEq]
      omega

theorem isAt_unique (h : pool.Reached as p) {place place' : Place}
    (hat : IsAt pool as p t place) (hat' : IsAt pool as p t place') : place = place' := by
  have htally : place.tally = place'.tally := (h.tally_eq hat).symm.trans (h.tally_eq hat')
  cases place <;> cases place' <;> first | rfl | cases htally
  case running.running v w =>
    obtain ⟨job, hv, hjob⟩ := hat
    obtain ⟨job', hw, hjob'⟩ := hat'
    have hid : job.id = job'.id := congrArg Ticket.id (hjob.trans hjob'.symm)
    rw [jobOf_unique h.nodup_heldIds hv hw hid]

/-- The place of a job tells how often it has begun and ended. -/
theorem runs_eq (h : pool.Reached as p) {place : Place} (hat : IsAt pool as p t place) :
    ((jobsBegun p.history).map fun j => j.id).count t.id = place.begun ∧
      (endedIds p.history).count t.id = place.ended := by
  have htally := h.tally_eq hat
  have hbegun := (h.leads.perm_jobsBegun.map fun j => j.id).count_eq t.id
  rw [List.map_append, map_id_jobsEnded, List.count_append] at hbegun
  have hheld : (p.held.map fun j => j.id).count t.id = p.heldIds.count t.id := rfl
  rw [tally] at htally
  cases place <;> simp only [Place.tally, Tally.mk.injEq] at htally <;>
    simp only [Place.begun, Place.ended] <;> omega

end Reached

/-! ## Lanes -/

theorem laneOf_eq (p : Pool α π) (w : Nat) :
    p.laneOf w = ((p.workers.map Worker.lane)[w]?).join := by
  rw [laneOf, List.getElem?_map]
  cases p.workers[w]? <;> rfl

theorem Step.laneOf_eq (hs : p.Step a q) (w : Nat) : q.laneOf w = p.laneOf w := by
  rw [Pool.laneOf_eq, Pool.laneOf_eq, hs.map_lane]

theorem map_lane_of_run (hrun : p.run? as = some q) :
    q.workers.map Worker.lane = p.workers.map Worker.lane := by
  refine run_keeps (I := fun r => r.workers.map Worker.lane = p.workers.map Worker.lane) hrun ?_ rfl
  intro r a s _ hs hr
  rw [hs.map_lane, hr]

/-- A job was begun by a worker of the pool that serves its lane. -/
theorem Leads.serves_begun (h : pool.Leads as p) :
    ∀ w job, .began w job ∈ p.history → w < p.workers.length ∧
      (p.laneOf w = none ∨ p.laneOf w = some job.lane) := by
  refine h.invariant (I := fun r => ∀ w job, .began w job ∈ r.history → w < r.workers.length ∧
    (r.laneOf w = none ∨ r.laneOf w = some job.lane)) (fun _ _ _ _ => nofun) ?_
  intro r a s _ hs hr w job hbegan
  rw [hs.length_workers, hs.laneOf_eq w]
  rcases hs.began_cases hbegan with hold | ⟨lane, hw, hready⟩
  · exact hr w job hold
  · refine ⟨(List.getElem?_eq_some_iff.mp hw).1, ?_⟩
    rw [laneOf, hw]
    exact (Queue.isReady_iff.mp hready).2

theorem laneOf_of_create {available : Nat} {o : QueueOptions} (h : create available o = .ok pool)
    (ho : o.dedicatedLane = true) {w : Nat} (hw : w < pool.workers.length) :
    pool.laneOf w = some (if w = 0 then .dedicated else .shared) := by
  obtain ⟨count, _, rfl⟩ := exists_count_of_create h
  have hcount : w < count := by simpa [ofLanes, lanes] using hw
  simp only [laneOf, ofLanes, lanes, ho, List.getElem?_map, List.getElem?_range hcount]
  by_cases hzero : w = 0
  · simp [hzero]
  · simp [hzero]

/-- With a dedicated lane, the first worker runs the jobs of that lane, and the others the rest. -/
theorem Leads.lane_eq (h : pool.Leads as p) {available : Nat} {o : QueueOptions}
    (hcreate : create available o = .ok pool) (ho : o.dedicatedLane = true) {w : Nat}
    {job : PendingJob (Payload α) π} (hbegan : .began w job ∈ p.history) :
    job.lane = if w = 0 then .dedicated else .shared := by
  obtain ⟨hlt, hserves⟩ := h.serves_begun w job hbegan
  have hlanes := map_lane_of_run h.run
  have hlength : p.workers.length = pool.workers.length := by
    simpa using congrArg List.length hlanes
  have hlane : p.laneOf w = pool.laneOf w := by rw [laneOf_eq, laneOf_eq, hlanes]
  rw [hlane, laneOf_of_create hcreate ho (hlength ▸ hlt)] at hserves
  rcases hserves with hnone | hlane
  · cases hnone
  · exact (Option.some.inj hlane).symm

/-! ## The result -/

/-- What becomes of jobs: each that was accepted is at one place, and so is nothing else (`placed`,
`known`); it has run as often as the place says (`runs`); what is refused leaves no trace
(`refuses`), and the report of a job takes no other one out (`reports`); the pending jobs stand in the
order of their submission (`ordered`), and a worker takes the first one that it can run (`dispatches`);
with a dedicated lane, the first worker has run its jobs only, and nobody else has (`lanes`). -/
structure Custody (pool : Pool α π) (as : List (Action α π)) (p : Pool α π) : Prop where
  placed : ∀ t ∈ pool.along accepted as, ∃! place, IsAt pool as p t place
  known : ∀ t place, IsAt pool as p t place → t ∈ pool.along accepted as
  runs : ∀ t place, IsAt pool as p t place →
    ((jobsBegun p.history).map fun j => j.id).count t.id = place.begun ∧
      (endedIds p.history).count t.id = place.ended
  refuses : ∀ a jobs params e, a.submission? = some (jobs, params) →
    p.submit jobs params = .error e → p.accepted a = [] ∧ p.step? a = some p
  reports : ∀ w q, p.step? (.report w) = some q →
    ticketsOf q.queue.pending = ticketsOf p.queue.pending
  ordered : (ticketsOf p.queue.pending).Sublist (pool.along accepted as)
  dispatches : ∀ w q job, p.step? (.check w) = some q → q.jobOf w = some job →
    p.Dispatches q w job
  lanes : ∀ available o, create available o = .ok pool → o.dedicatedLane = true →
    ∀ w job, .began w job ∈ p.history → job.lane = if w = 0 then .dedicated else .shared

theorem Step.ticketsOf_pending_of_report {w : Nat} (hs : p.Step (.report w) q)
    (hnodup : p.ids.Nodup) : ticketsOf q.queue.pending = ticketsOf p.queue.pending := by
  cases hs.change with
  | quiet hpending => rw [hpending]
  | accepted ha => cases ha
  | began _ _ _ _ _ _ ha => cases ha
  | @ended _ job answer hheld hpending _ _ =>
      have hjob : job ∈ p.held := hheld.mem_iff.mpr (List.mem_cons_self ..)
      rw [hpending]
      exact ticketsOf_complete p.queue _ (notMem_pendingIds_of_held hnodup hjob)
  | cleared _ _ _ ha => cases ha

/-- **No job is lost or run twice.** Clients submit, stop and clear in any order, and workers do their
steps; each identity is issued once. Wherever that leads, every accepted job is pending, in the hand
of one worker, completed after one run, or cleared away, and the rest of `Custody` holds. -/
theorem Reached.custody (h : pool.Reached as p) : Custody pool as p where
  placed t ht := by
    obtain ⟨place, hat⟩ := h.mem_accepted_iff.mp ht
    exact ⟨place, hat, fun place' hat' => h.isAt_unique hat' hat⟩
  known t place hat := h.mem_accepted_iff.mpr ⟨place, hat⟩
  runs t place hat := h.runs_eq hat
  refuses a jobs params e ha herror := by
    refine ⟨?_, ?_⟩
    · simp only [accepted, ha, herror]
    · simp only [step?_of_submission? ha, herror]
  reports w q hq := (Step.of_step? hq).ticketsOf_pending_of_report h.nodup_ids
  ordered := h.sublist_accepted
  dispatches w q job hq hjob := (Step.of_step? hq).dispatches hjob
  lanes available o hcreate ho w job hbegan := h.leads.lane_eq hcreate ho hbegan

/-! ### One job at each place

A job is cleared away. Of the next three, the worker of the dedicated lane has the second one in hand,
the other worker has completed the first, and the third one waits for the second. -/

/-- After all that the queue is stopped, and refuses a fifth job. -/
def turnover : List (Action Unit Unit) :=
  [.enqueue [unitJob 3 none] (), .clear, .abandon 0,
    .enqueue [unitJob 0 none, { unitJob 1 none with lane := .dedicated }, unitJob 2 (some 1)] (),
    .check 0, .check 1, .run 1 true, .report 1, .close, .enqueue [unitJob 4 none] ()]

theorem custody_turnover : ∃ p : Pool Unit Unit, mixed.Reached turnover p ∧
    Custody mixed turnover p ∧
    (mixed.along accepted turnover).map Ticket.id = [⟨3⟩, ⟨0⟩, ⟨1⟩, ⟨2⟩] ∧
    tally mixed turnover p ⟨3⟩ = Place.cleared.tally ∧
    tally mixed turnover p ⟨0⟩ = Place.completed.tally ∧
    tally mixed turnover p ⟨1⟩ = (Place.running 0).tally ∧
    tally mixed turnover p ⟨2⟩ = Place.pending.tally := by
  have hp : mixed.Reached turnover _ :=
    ⟨⟨2, { threads := some 2, dedicatedLane := true }, rfl⟩, by decide, rfl⟩
  exact ⟨_, hp, hp.custody, by decide, by decide, by decide, by decide, by decide⟩

end Pool

end RenderPlan
