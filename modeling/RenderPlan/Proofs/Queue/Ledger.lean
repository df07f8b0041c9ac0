/-
# RenderPlan.Proofs.Queue.Ledger -- a pending job is what was accepted, brought up to date

The queue takes completed jobs out of dependency sets one by one, and strikes the soundness of those
that waited for a failure. All of it can be read off the history: a pending job is the job as it was
accepted, less the dependencies that have ended, and sound if none of its dependencies failed
(`PendingJob.after`). `Tracks` says so of one accepted job, from its submission to its beginning, and
every step keeps it. A job begins when nothing is left to wait for, so when it begins all its
dependencies have ended, and it is sound exactly if none of them failed.
-/
import RenderPlan.Proofs.Queue.Runs

namespace RenderPlan

variable {α π : Type}

/-! ## Failures in a history -/

/-- The identity of a job that was reported done as a failure, of its own or handed down. -/
def JobEvent.failedId? : JobEvent α π → Option JobId
  | ended _ job answer => if job.sound && answer then none else some job.id
  | _ => none

/-- The identity of a job that itself said no, or gave up. -/
def JobEvent.brokenId? : JobEvent α π → Option JobId
  | ended _ job answer => if answer then none else some job.id
  | _ => none

/-- The jobs that ended in failure. -/
def failedIds (h : List (JobEvent α π)) : List JobId := h.filterMap JobEvent.failedId?

/-- The jobs whose own answer was no. -/
def brokenIds (h : List (JobEvent α π)) : List JobId := h.filterMap JobEvent.brokenId?

theorem mem_failedIds {h : List (JobEvent α π)} {id : JobId} :
    id ∈ failedIds h ↔
      ∃ w job answer, .ended w job answer ∈ h ∧ job.id = id ∧ (job.sound && answer) = false := by
  simp only [failedIds, List.mem_filterMap]
  constructor
  · rintro ⟨e, he, hid⟩
    cases e with
    | ended w job answer =>
        simp only [JobEvent.failedId?] at hid
        split at hid
        · cases hid
        · next hok => exact ⟨w, job, answer, he, Option.some.inj hid, Bool.not_eq_true _ ▸ hok⟩
    | began w job => cases hid
    | abandoned job => cases hid
  · rintro ⟨w, job, answer, he, hid, hok⟩
    exact ⟨_, he, by simp [JobEvent.failedId?, hok, hid]⟩

theorem mem_brokenIds {h : List (JobEvent α π)} {id : JobId} :
    id ∈ brokenIds h ↔ ∃ w job, .ended w job false ∈ h ∧ job.id = id := by
  simp only [brokenIds, List.mem_filterMap]
  constructor
  · rintro ⟨e, he, hid⟩
    cases e with
    | ended w job answer =>
        cases answer with
        | false => exact ⟨w, job, he, Option.some.inj hid⟩
        | true => cases hid
    | began w job => cases hid
    | abandoned job => cases hid
  · rintro ⟨w, job, he, hid⟩
    exact ⟨_, he, congrArg some hid⟩

theorem failedIds_ended (h : List (JobEvent α π)) (w : Nat) (job : PendingJob α π)
    (answer : Bool) :
    failedIds (.ended w job answer :: h) =
      if job.sound && answer then failedIds h else job.id :: failedIds h := by
  simp only [failedIds, List.filterMap_cons, JobEvent.failedId?]
  cases job.sound && answer <;> rfl

theorem endedIds_of_failedIds {h : List (JobEvent α π)} {id : JobId} (hf : id ∈ failedIds h) :
    id ∈ endedIds h := by
  obtain ⟨w, job, answer, he, hid, _⟩ := mem_failedIds.mp hf
  exact mem_endedIds.mpr ⟨w, job, answer, he, hid⟩

theorem failedIds_of_brokenIds {h : List (JobEvent α π)} {id : JobId} (hb : id ∈ brokenIds h) :
    id ∈ failedIds h := by
  obtain ⟨w, job, he, hid⟩ := mem_brokenIds.mp hb
  exact mem_failedIds.mpr ⟨w, job, false, he, hid, Bool.and_false _⟩

section Reports

variable {h e : List (JobEvent α π)} {w : Nat} {job : PendingJob α π} {answer : Bool}

/-- Whether a job failed can be read off its report. -/
theorem mem_failedIds_iff (hnodup : (endedIds h).Nodup) (he : .ended w job answer ∈ h) :
    job.id ∈ failedIds h ↔ (job.sound && answer) = false := by
  constructor
  · intro hf
    obtain ⟨w', job', answer', he', hid, hok⟩ := mem_failedIds.mp hf
    obtain ⟨rfl, rfl⟩ := ended_unique hnodup he he' hid.symm
    exact hok
  · exact fun hok => mem_failedIds.mpr ⟨w, job, answer, he, rfl, hok⟩

theorem mem_brokenIds_iff (hnodup : (endedIds h).Nodup) (he : .ended w job answer ∈ h) :
    job.id ∈ brokenIds h ↔ answer = false := by
  constructor
  · intro hb
    obtain ⟨w', job', he', hid⟩ := mem_brokenIds.mp hb
    exact (ended_unique hnodup he he' hid.symm).2
  · rintro rfl
    exact mem_brokenIds.mpr ⟨w, job, he, rfl⟩

/-- A job that ended by some time and said no had said so by that time. -/
theorem mem_brokenIds_of_suffix (hnodup : (endedIds h).Nodup) (hs : e <:+ h) {id : JobId}
    (hended : id ∈ endedIds e) : id ∈ brokenIds e ↔ id ∈ brokenIds h := by
  obtain ⟨w, job, answer, he, rfl⟩ := mem_endedIds.mp hended
  have hnodup' : (endedIds e).Nodup := hnodup.sublist (endedIds_suffix hs).sublist
  rw [mem_brokenIds_iff hnodup' he, mem_brokenIds_iff hnodup (hs.subset he)]

end Reports

/-! ## Bringing a job up to date -/

/-- The job as it is after a history: it waits no longer for what has ended, and is sound if none of
its dependencies failed. -/
def PendingJob.after (j : PendingJob α π) (h : List (JobEvent α π)) : PendingJob α π :=
  { j with
    deps := j.deps.filter fun d => d ∉ endedIds h
    sound := j.deps.all fun d => d ∉ failedIds h }

namespace PendingJob

variable {j : PendingJob α π} {h : List (JobEvent α π)}

/-- What the queue does to a job when another one ends is what the history says. -/
theorem release_after {w : Nat} {job : PendingJob α π} {answer : Bool}
    (hnew : job.id ∉ endedIds h) :
    Queue.release job.id (job.sound && answer) (j.after h) =
      j.after (.ended w job answer :: h) := by
  have hdeps : (j.deps.filter fun d => d ∉ endedIds h).filter (fun d => d ≠ job.id) =
      j.deps.filter fun d => d ∉ job.id :: endedIds h := by
    rw [List.filter_filter]
    congr 1
    funext d
    simp only [List.mem_cons, not_or, Bool.decide_and]
  have hsound : ((j.deps.all fun d => d ∉ failedIds h) && ((job.sound && answer) ||
      !(j.deps.filter fun d => d ∉ endedIds h).contains job.id)) =
      j.deps.all fun d => d ∉ failedIds (.ended w job answer :: h) := by
    rw [failedIds_ended]
    cases hok : job.sound && answer with
    | true => simp
    | false =>
        -- the failure strikes a job exactly if it still waited for this one
        rw [Bool.eq_iff_iff]
        simp only [Bool.false_or, Bool.and_eq_true, Bool.not_eq_true', List.all_eq_true,
          decide_eq_true_eq, Bool.false_eq_true, if_false, List.mem_cons, not_or]
        rw [← Bool.not_eq_true, List.contains_iff_mem]
        simp only [List.mem_filter, decide_eq_true_eq, not_and]
        constructor
        · rintro ⟨hall, hout⟩ d hd
          exact ⟨fun hdid => hout (hdid ▸ hd) hnew, hall d hd⟩
        · intro hall
          exact ⟨fun d hd => (hall d hd).2, fun hd _ => (hall _ hd).1 rfl⟩
  simp only [Queue.release, PendingJob.after, endedIds_ended, hdeps, hsound]
  rfl

/-- Nothing has happened yet to a sound job whose dependencies are all to come. -/
theorem after_eq_self (hsound : j.sound = true) (hdeps : ∀ d ∈ j.deps, d ∉ endedIds h) :
    j.after h = j := by
  have hfilter : (j.deps.filter fun d => d ∉ endedIds h) = j.deps :=
    List.filter_eq_self.mpr fun d hd => decide_eq_true (hdeps d hd)
  have hall : (j.deps.all fun d => d ∉ failedIds h) = true := by
    simp only [List.all_eq_true, decide_eq_true_eq]
    exact fun d hd hf => hdeps d hd (endedIds_of_failedIds hf)
  rw [after, hfilter, hall, ← hsound]

/-- A job that waits for nothing any more has seen all its dependencies end. -/
theorem ended_of_after_deps (hready : (j.after h).deps = []) : ∀ d ∈ j.deps, d ∈ endedIds h := by
  intro d hd
  have hd' := List.filter_eq_nil_iff.mp hready d hd
  simpa using hd'

theorem after_sound_iff : (j.after h).sound = true ↔ ∀ d ∈ j.deps, d ∉ failedIds h := by
  simp [after]

end PendingJob

/-! ## The history and the hands of workers -/

/-- The history tells of each job in a worker's hands, and of each job that ended, that it began; and
a job that began is in a worker's hands or has ended. -/
structure Coherent (held : List (PendingJob α π)) (h : List (JobEvent α π)) : Prop where
  held_began : ∀ job ∈ held, ∃ w, .began w job ∈ h
  ended_began : ∀ {w job answer earlier}, .ended w job answer :: earlier <:+ h →
    ∃ w', .began w' job ∈ earlier
  began : ∀ {w job}, .began w job ∈ h →
    job.id ∈ held.map (fun j => j.id) ∨ job.id ∈ endedIds h

namespace Coherent

variable {held : List (PendingJob α π)} {h : List (JobEvent α π)} {job : PendingJob α π}

theorem empty : Coherent ([] : List (PendingJob α π)) [] :=
  ⟨by simp, by simp, by simp⟩

theorem perm {held' : List (PendingJob α π)} (hperm : held'.Perm held) (hc : Coherent held h) :
    Coherent held' h where
  held_began j hj := hc.held_began j (hperm.mem_iff.mp hj)
  ended_began := hc.ended_began
  began hb := (hc.began hb).imp_left (hperm.map _).mem_iff.mpr

theorem abandon (hc : Coherent held h) : Coherent held (.abandoned job :: h) where
  held_began j hj := by
    obtain ⟨w, hw⟩ := hc.held_began j hj
    exact ⟨w, List.mem_cons_of_mem _ hw⟩
  ended_began hs := by
    rcases List.suffix_cons_iff.mp hs with heq | hs
    · cases heq
    · exact hc.ended_began hs
  began hb := by
    rcases List.mem_cons.mp hb with heq | hb
    · cases heq
    · exact hc.began hb

theorem start (hc : Coherent held h) (w : Nat) :
    Coherent (job :: held) (.began w job :: h) where
  held_began j hj := by
    rcases List.mem_cons.mp hj with rfl | hj
    · exact ⟨w, List.mem_cons_self ..⟩
    · obtain ⟨w', hw'⟩ := hc.held_began j hj
      exact ⟨w', List.mem_cons_of_mem _ hw'⟩
  ended_began hs := by
    rcases List.suffix_cons_iff.mp hs with heq | hs
    · cases heq
    · exact hc.ended_began hs
  began hb := by
    rw [List.map_cons, endedIds_began]
    rcases List.mem_cons.mp hb with heq | hb
    · cases heq
      exact Or.inl (List.mem_cons_self ..)
    · exact (hc.began hb).imp_left (List.mem_cons_of_mem _)

theorem finish (hc : Coherent (job :: held) h) (w : Nat) (answer : Bool) :
    Coherent held (.ended w job answer :: h) where
  held_began j hj := by
    obtain ⟨w', hw'⟩ := hc.held_began j (List.mem_cons_of_mem _ hj)
    exact ⟨w', List.mem_cons_of_mem _ hw'⟩
  ended_began hs := by
    rcases List.suffix_cons_iff.mp hs with heq | hs
    · cases heq
      exact hc.held_began job (List.mem_cons_self ..)
    · exact hc.ended_began hs
  began hb := by
    rw [endedIds_ended, List.mem_cons]
    rcases List.mem_cons.mp hb with heq | hb
    · cases heq
    · rcases hc.began hb with hj | hj
      · rcases List.mem_cons.mp hj with hj | hj
        · exact Or.inr (Or.inl hj)
        · exact Or.inl hj
      · exact Or.inr (Or.inr hj)

theorem began_of_ended (hc : Coherent held h) {w : Nat} {answer : Bool}
    (he : .ended w job answer ∈ h) : ∃ w', .began w' job ∈ h := by
  obtain ⟨earlier, hs⟩ := exists_suffix_of_mem he
  obtain ⟨w', hbegan⟩ := hc.ended_began hs
  exact ⟨w', hs.subset (List.mem_cons_of_mem _ hbegan)⟩

end Coherent

namespace Pool

variable {p q : Pool α π} {a : Action α π}

theorem Change.coherent (h : p.Change a q) (hp : Coherent p.held p.history) :
    Coherent q.held q.history := by
  cases h with
  | quiet hpending hheld hhistory =>
      rcases hhistory with hh | ⟨job, hh⟩
      · rw [hh]
        exact hp.perm hheld
      · rw [hh]
        exact (hp.perm hheld).abandon
  | accepted ha hpending hheld hhistory =>
      rw [hheld, hhistory]
      exact hp
  | @began w job before after hready hpending hleft hheld hhistory =>
      rw [hhistory]
      exact (hp.start w).perm hheld
  | @ended w job answer hheld hpending hhistory =>
      rw [hhistory]
      exact (hp.perm hheld.symm).finish w answer
  | cleared hpending hheld hhistory =>
      rw [hheld, hhistory]
      exact hp

/-! ## Following an accepted job -/

/-- The job that was accepted as `j` is up to date as long as it is pending, and was up to date, with
nothing left to wait for, when it began. -/
structure Tracks (j : PendingJob (Payload α) π) (p : Pool α π) : Prop where
  pending : ∀ i ∈ p.queue.pending, i.id = j.id → i = j.after p.history
  began : ∀ {w i earlier}, .began w i :: earlier <:+ p.history → i.id = j.id →
    i = j.after earlier ∧ i.deps = []

theorem mem_pendingIds_of_mem {i : PendingJob (Payload α) π} (h : i ∈ p.queue.pending) :
    i.id ∈ p.pendingIds :=
  List.mem_map_of_mem h

/-- A step keeps following the job, unless it submits one of the same identity. -/
theorem Change.tracks (h : p.Change a q) {j : PendingJob (Payload α) π} (hp : p.Tracks j)
    (hnodup : (p.ids ++ a.ids).Nodup) (hj : j.id ∉ a.ids) : q.Tracks j := by
  cases h with
  | quiet hpending hheld hhistory =>
      rcases hhistory with hh | ⟨job, hh⟩
      · refine ⟨?_, ?_⟩ <;> rw [hh]
        · rw [hpending]
          exact hp.pending
        · exact hp.began
      · refine ⟨?_, ?_⟩ <;> rw [hh]
        · rw [hpending]
          exact hp.pending
        · intro w i earlier hs
          rcases List.suffix_cons_iff.mp hs with heq | hs
          · cases heq
          · exact hp.began hs
  | @accepted jobs params ha hpending hheld hhistory =>
      refine ⟨?_, ?_⟩ <;> rw [hhistory]
      · rw [hpending]
        intro i hi hid
        rcases List.mem_append.mp hi with hi | hi
        · exact hp.pending i hi hid
        · obtain ⟨k, hk, rfl⟩ := List.mem_map.mp hi
          -- a job of the same identity would be submitted a second time
          refine absurd ?_ hj
          rw [← hid, Action.ids, Action.jobs_of_submission? ha]
          exact List.mem_map.mpr ⟨k, hk, rfl⟩
      · exact hp.began
  | @began w job before after hready hpending hleft hheld hhistory =>
      refine ⟨?_, ?_⟩ <;> rw [hhistory]
      · rw [hleft]
        intro i hi hid
        refine hp.pending i ?_ hid
        rw [hpending]
        exact (List.Sublist.append_left (List.sublist_cons_self job after) before).subset hi
      · intro w' i earlier hs hid
        rcases List.suffix_cons_iff.mp hs with heq | hs
        · cases heq
          refine ⟨hp.pending _ ?_ hid, hready⟩
          rw [hpending]
          exact List.mem_append_right _ (List.mem_cons_self ..)
        · exact hp.began hs hid
  | @ended w job answer hheld hpending hhistory =>
      -- the job was in a worker's hands, so it has not ended before
      have hnew : job.id ∉ endedIds p.history := by
        have hheldId : job.id ∈ p.heldIds :=
          List.mem_map_of_mem (hheld.mem_iff.mpr (List.mem_cons_self ..))
        have hdisj := List.nodup_append.mp (List.nodup_append.mp hnodup).1
        exact fun he => hdisj.2.2 _ (List.mem_append_right _ hheldId) _ he rfl
      refine ⟨?_, ?_⟩ <;> rw [hhistory]
      · rw [hpending]
        intro i hi hid
        obtain ⟨k, hk, rfl⟩ := List.mem_map.mp hi
        rw [hp.pending k (List.mem_of_mem_filter hk) hid, PendingJob.release_after hnew]
      · intro w' i earlier hs hid
        rcases List.suffix_cons_iff.mp hs with heq | hs
        · cases heq
        · exact hp.began hs hid
  | cleared hpending hheld hhistory =>
      refine ⟨?_, ?_⟩
      · rw [hpending]
        simp
      · rw [hhistory]
        exact hp.began

/-! ## From the submission on -/

theorem mem_stamp_deps {jobs : List (Job (Payload α))} {params : π} {j : Job (Payload α)}
    {d : JobId} : d ∈ (p.queue.stamp jobs params j).deps ↔
      d ∈ j.deps ∧ (d ∈ p.pendingIds ∨ d ∈ jobs.map Job.id) := by
  simp [Queue.stamp, Queue.isKnown, pendingIds]

/-- A job that the pool has not seen is followed from there on. -/
theorem tracks_of_notMem_ids (hp : Coherent p.held p.history) {j : PendingJob (Payload α) π}
    (hj : j.id ∉ p.ids) : p.Tracks j where
  pending i hi hid := by
    refine absurd ?_ hj
    rw [← hid, ids, List.append_assoc]
    exact List.mem_append_left _ (mem_pendingIds_of_mem hi)
  began hs hid := by
    refine absurd ?_ hj
    rw [← hid, ids, List.append_assoc]
    exact List.mem_append_right _ (List.mem_append.mpr (hp.began (hs.mem (List.mem_cons_self ..))))

/-- A job is followed from its submission on, whether it is accepted or refused. -/
theorem Step.tracks (hs : p.Step a q) (hp : Coherent p.held p.history)
    (hnodup : (p.ids ++ a.ids).Nodup) {jobs : List (Job (Payload α))} {params : π}
    (ha : a.submission? = some (jobs, params)) {j : Job (Payload α)} (hj : j ∈ jobs) :
    q.Tracks (p.queue.stamp jobs params j) := by
  have hids : a.ids = jobs.map Job.id := by rw [Action.ids, Action.jobs_of_submission? ha]
  have hdisj : p.ids.Disjoint (jobs.map Job.id) := hids ▸ List.disjoint_of_nodup_append hnodup
  have hnew : j.id ∉ p.ids := fun h => hdisj h (List.mem_map_of_mem hj)
  cases hs with
  | submit ha' hjobs hr =>
      rw [ha] at ha'
      cases ha'
      refine ⟨?_, (tracks_of_notMem_ids hp hnew).began⟩
      intro i hi hid
      rcases List.mem_append.mp hi with hi | hi
      · exact (tracks_of_notMem_ids hp hnew).pending i hi hid
      · -- among the jobs that come in, this is the only one of its identity
        obtain ⟨k, hk, rfl⟩ := List.mem_map.mp hi
        have hkj : k = j := List.inj_on_of_nodup_map (hids ▸ List.Nodup.of_append_right hnodup) hk hj hid
        rw [hkj]
        refine (PendingJob.after_eq_self rfl ?_).symm
        -- what it waits for is pending or comes with it, so nothing of that has ended
        intro d hd hended
        have hdids : d ∈ p.ids := List.mem_append_right _ hended
        rcases (mem_stamp_deps.mp hd).2 with hd | hd
        · have hnodup' := hnodup.of_append_left
          rw [ids, List.append_assoc] at hnodup'
          exact List.disjoint_of_nodup_append hnodup' hd (List.mem_append_right _ hended)
        · exact hdisj hdids hd
  | refuse ha' h => exact tracks_of_notMem_ids hp hnew
  | _ => cases ha

theorem Leads.coherent {pool : Pool α π} {as : List (Action α π)} (h : pool.Leads as p) :
    Coherent p.held p.history :=
  h.invariant (I := fun r => Coherent r.held r.history)
    (fun ls _ => by rw [held_ofLanes]; exact .empty) fun _ hs => hs.change.coherent

namespace Reached

variable {pool : Pool α π} {as : List (Action α π)}

theorem coherent (h : pool.Reached as p) : Coherent p.held p.history := h.leads.coherent

variable {before after : List (Action α π)} {jobs : List (Job (Payload α))} {params : π}
  {j : Job (Payload α)}

/-- Every submitted job is followed to the end of the run. -/
theorem tracks (h : pool.Reached (before ++ a :: after) q) (hp : pool.Reached before p)
    (ha : a.submission? = some (jobs, params)) (hj : j ∈ jobs) :
    q.Tracks (p.queue.stamp jobs params j) := by
  obtain ⟨p', hp', hfresh, hrun⟩ := h.split
  obtain rfl : p = p' := Option.some.inj (hp.run.symm.trans hp'.run)
  obtain ⟨r, hr, hq⟩ := run?_cons_eq_some hrun
  have hids : j.id ∈ a.ids := by
    rw [Action.ids, Action.jobs_of_submission? ha]
    exact List.mem_map_of_mem hj
  have hlater : j.id ∉ Action.idsOf after := by
    have hnodup := List.Nodup.of_append_right hfresh
    rw [Action.idsOf, List.flatMap_cons] at hnodup
    exact List.disjoint_of_nodup_append hnodup hids
  refine run_invariant (I := fun r => r.Tracks (p.queue.stamp jobs params j)) (hfresh.step hr) hq ?_
    (hr.tracks hp.coherent hfresh.of_cons ha hj)
  intro r b s hb hnodup hs hr
  exact hs.change.tracks hr hnodup fun hjb => hlater (List.mem_flatMap.mpr ⟨b, hb, hjb⟩)

/-- **When a job begins.** All its dependencies that were known at its submission have ended, and it
is sound exactly if none of them failed. -/
theorem began_iff (h : pool.Reached (before ++ a :: after) q) (hp : pool.Reached before p)
    (ha : a.submission? = some (jobs, params)) (hj : j ∈ jobs) {w : Nat}
    {job : PendingJob (Payload α) π} {earlier : List (JobEvent (Payload α) π)}
    (hs : .began w job :: earlier <:+ q.history) (hid : job.id = j.id) :
    (∀ d ∈ j.deps, d ∈ p.pendingIds ∨ d ∈ jobs.map Job.id → d ∈ endedIds earlier) ∧
      (job.sound = true ↔
        ∀ d ∈ j.deps, d ∈ p.pendingIds ∨ d ∈ jobs.map Job.id → d ∉ failedIds earlier) := by
  obtain ⟨hjob, hready⟩ := (h.tracks hp ha hj).began hs hid
  subst hjob
  refine ⟨fun d hd hknown => ?_, ?_⟩
  · exact PendingJob.ended_of_after_deps hready d (mem_stamp_deps.mpr ⟨hd, hknown⟩)
  · rw [PendingJob.after_sound_iff]
    constructor
    · exact fun hall d hd hknown => hall d (mem_stamp_deps.mpr ⟨hd, hknown⟩)
    · exact fun hall d hd => hall d (mem_stamp_deps.mp hd).1 (mem_stamp_deps.mp hd).2

/-- Dependencies inside a submission are all known. -/
theorem began_iff_of_inside (h : pool.Reached (before ++ a :: after) q)
    (ha : a.submission? = some (jobs, params)) (hj : j ∈ jobs)
    (hinside : ∀ d ∈ j.deps, d ∈ jobs.map Job.id) {w : Nat} {job : PendingJob (Payload α) π}
    {earlier : List (JobEvent (Payload α) π)} (hs : .began w job :: earlier <:+ q.history)
    (hid : job.id = j.id) :
    (∀ d ∈ j.deps, d ∈ endedIds earlier) ∧
      (job.sound = true ↔ ∀ d ∈ j.deps, d ∉ failedIds earlier) := by
  obtain ⟨p, hp, _⟩ := h.split
  obtain ⟨hended, hsound⟩ := h.began_iff hp ha hj hs hid
  refine ⟨fun d hd => hended d hd (Or.inr (hinside d hd)), hsound.trans ?_⟩
  exact ⟨fun hall d hd => hall d hd (Or.inr (hinside d hd)), fun hall d hd _ => hall d hd⟩

/-- A job that begins is otherwise as it was submitted. -/
theorem began_fields (h : pool.Reached (before ++ a :: after) q)
    (ha : a.submission? = some (jobs, params)) (hj : j ∈ jobs) {w : Nat}
    {job : PendingJob (Payload α) π} (hs : .began w job ∈ q.history) (hid : job.id = j.id) :
    job.payload = j.payload ∧ job.params = params := by
  obtain ⟨p, hp, _⟩ := h.split
  obtain ⟨earlier, hearlier⟩ := exists_suffix_of_mem hs
  obtain ⟨hjob, _⟩ := (h.tracks hp ha hj).began hearlier hid
  subst hjob
  exact ⟨rfl, rfl⟩

end Reached

end Pool

end RenderPlan
