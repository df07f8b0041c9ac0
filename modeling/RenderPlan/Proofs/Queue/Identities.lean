/-
# RenderPlan.Proofs.Queue.Identities -- where the identities of jobs are

An identity that was submitted is pending, in a worker's hand, or ended. Actions move identities
between these places and may drop some; what they bring in is what they submit, and nothing is
doubled (`Change.perm_ids`). So where each identity is issued once, no identity is ever in two
places, in any order of the actions.

`run_invariant` is the induction over runs that the other modules use. It hands every step the fact
that the identities are distinct.
-/
import RenderPlan.Proofs.Queue.Steps
import Mathlib.Data.List.Nodup

namespace RenderPlan

variable {α π : Type}

/-! ## What a history tells -/

/-- The identity of a job that was reported done. -/
def JobEvent.endedId? : JobEvent α π → Option JobId
  | ended _ job _ => some job.id
  | _ => none

/-- The jobs that were reported done, the latest first. -/
def endedIds (h : List (JobEvent α π)) : List JobId := h.filterMap JobEvent.endedId?

section History

variable (h : List (JobEvent α π)) (w : Nat) (job : PendingJob α π) (answer : Bool)

@[simp] theorem endedIds_began : endedIds (.began w job :: h) = endedIds h := rfl

@[simp] theorem endedIds_ended :
    endedIds (.ended w job answer :: h) = job.id :: endedIds h := rfl

@[simp] theorem endedIds_abandoned : endedIds (.abandoned job :: h) = endedIds h := rfl

end History

theorem mem_endedIds {h : List (JobEvent α π)} {id : JobId} :
    id ∈ endedIds h ↔ ∃ w job answer, .ended w job answer ∈ h ∧ job.id = id := by
  simp only [endedIds, List.mem_filterMap]
  constructor
  · rintro ⟨e, he, hid⟩
    cases e with
    | ended w job answer => exact ⟨w, job, answer, he, Option.some.inj hid⟩
    | began w job => cases hid
    | abandoned job => cases hid
  · rintro ⟨w, job, answer, he, hid⟩
    exact ⟨_, he, congrArg some hid⟩

/-- Every event stands somewhere, with a history before it. -/
theorem exists_suffix_of_mem {e : JobEvent α π} {h : List (JobEvent α π)} (he : e ∈ h) :
    ∃ earlier, e :: earlier <:+ h := by
  obtain ⟨later, earlier, rfl⟩ := List.append_of_mem he
  exact ⟨earlier, List.suffix_append _ _⟩

theorem suffix_of_cons_suffix {e : JobEvent α π} {earlier h : List (JobEvent α π)}
    (hs : e :: earlier <:+ h) : earlier <:+ h :=
  (List.suffix_cons _ _).trans hs

theorem endedIds_suffix {e h : List (JobEvent α π)} (hs : e <:+ h) : endedIds e <:+ endedIds h :=
  hs.filterMap _

/-- A job that is reported once has one report. -/
theorem ended_unique {h : List (JobEvent α π)} (hnodup : (endedIds h).Nodup) {w w' : Nat}
    {job job' : PendingJob α π} {answer answer' : Bool} (he : .ended w job answer ∈ h)
    (he' : .ended w' job' answer' ∈ h) (hid : job.id = job'.id) :
    job = job' ∧ answer = answer' := by
  induction h with
  | nil => cases he
  | cons e h ih =>
      have hrest : (endedIds h).Nodup :=
        hnodup.sublist ((List.sublist_cons_self e h).filterMap _)
      rcases List.mem_cons.mp he with rfl | hin
      · rcases List.mem_cons.mp he' with heq | hin'
        · cases heq
          exact ⟨rfl, rfl⟩
        · have hmem : job.id ∈ endedIds h := mem_endedIds.mpr ⟨w', job', answer', hin', hid.symm⟩
          exact absurd hmem (List.nodup_cons.mp hnodup).1
      · rcases List.mem_cons.mp he' with rfl | hin'
        · have hmem : job'.id ∈ endedIds h := mem_endedIds.mpr ⟨w, job, answer, hin, hid⟩
          exact absurd hmem (List.nodup_cons.mp hnodup).1
        · exact ih hrest hin hin'

namespace Pool

variable {p q : Pool α π} {a : Action α π}

/-! ## One step -/

/-- The identities of pending jobs. -/
def pendingIds (p : Pool α π) : List JobId := p.queue.pending.map fun j => j.id

/-- The identities of jobs in workers' hands. -/
def heldIds (p : Pool α π) : List JobId := p.held.map fun j => j.id

/-- The identities in a pool. -/
def ids (p : Pool α π) : List JobId := p.pendingIds ++ p.heldIds ++ endedIds p.history

theorem map_id_stamp (q : Queue (Payload α) π) (jobs : List (Job (Payload α))) (params : π)
    (js : List (Job (Payload α))) :
    (js.map (q.stamp jobs params)).map (fun j => j.id) = js.map Job.id := by
  rw [List.map_map]
  rfl

theorem map_id_complete (q : Queue (Payload α) π) (id : JobId) (ok : Bool) :
    (q.complete id ok).pending.map (fun j => j.id) =
      (q.pending.filter fun j => j.id ≠ id).map (fun j => j.id) := by
  simp only [Queue.complete, List.map_map]
  rfl

/-- Identities move, and some may go; only those that are submitted come. -/
theorem Change.perm_ids (h : p.Change a q) :
    ∃ dropped, (p.ids ++ a.ids).Perm (q.ids ++ dropped) := by
  cases h with
  | quiet hpending hheld hhistory =>
      -- what is abandoned has not ended
      have hended : endedIds q.history = endedIds p.history := by
        rcases hhistory with h | ⟨job, h⟩ <;> rw [h]
        exact endedIds_abandoned _ _
      refine ⟨a.ids, List.Perm.append_right _ ?_⟩
      rw [ids, ids, pendingIds, pendingIds, hpending, hended]
      exact ((hheld.symm.map _).append_left _).append_right _
  | @accepted jobs params ha hpending hheld hhistory =>
      have hids : a.ids = jobs.map Job.id := by rw [Action.ids, Action.jobs_of_submission? ha]
      refine ⟨[], ?_⟩
      rw [ids, ids, pendingIds, pendingIds, heldIds, heldIds, hpending, hheld, hhistory,
        List.map_append, map_id_stamp, hids, List.perm_iff_count]
      intro id
      simp only [List.count_append, List.count_nil]
      omega
  | @began w job before after hready hpending hleft hheld hhistory =>
      -- one identity goes from the pending jobs to a worker
      have hheldIds : q.heldIds.Perm (job.id :: p.heldIds) := hheld.map _
      refine ⟨a.ids, List.Perm.append_right _ ?_⟩
      rw [ids, ids, pendingIds, pendingIds, hpending, hleft, hhistory, endedIds_began,
        List.perm_iff_count]
      intro id
      have hcount := hheldIds.count_eq id
      simp only [List.map_append, List.map_cons, List.count_append, List.count_cons] at hcount ⊢
      omega
  | @ended w job answer hheld hpending hhistory =>
      have hheldIds : p.heldIds.Perm (job.id :: q.heldIds) := hheld.map _
      -- pending jobs of the identity that ended go with it
      have hpendingIds : p.pendingIds.Perm (q.pendingIds ++
          (p.queue.pending.filter fun j => !decide (j.id ≠ job.id)).map fun j => j.id) := by
        rw [pendingIds, pendingIds, hpending, map_id_complete, ← List.map_append]
        exact (List.filter_append_perm _ _).symm.map _
      refine ⟨(p.queue.pending.filter fun j => !decide (j.id ≠ job.id)).map (fun j => j.id) ++ a.ids,
        ?_⟩
      rw [← List.append_assoc]
      apply List.Perm.append_right
      rw [ids, ids, hhistory, endedIds_ended, List.perm_iff_count]
      intro id
      have hcount := hheldIds.count_eq id
      have hcount' := hpendingIds.count_eq id
      simp only [List.count_append, List.count_cons] at hcount hcount' ⊢
      omega
  | cleared hpending hheld hhistory =>
      refine ⟨p.pendingIds ++ a.ids, ?_⟩
      rw [ids, ids, heldIds, heldIds, hheld, hhistory, pendingIds, pendingIds, hpending,
        List.perm_iff_count]
      intro id
      simp only [List.count_append, List.map_nil, List.count_nil]
      omega

/-- The history only grows. -/
theorem Change.history_suffix (h : p.Change a q) : p.history <:+ q.history := by
  cases h with
  | quiet _ _ hhistory =>
      rcases hhistory with hhistory | ⟨job, hhistory⟩
      · exact hhistory ▸ List.suffix_rfl
      · exact hhistory ▸ List.suffix_cons _ _
  | accepted _ _ _ hhistory => exact hhistory ▸ List.suffix_rfl
  | began _ _ _ _ hhistory => exact hhistory ▸ List.suffix_cons _ _
  | ended _ _ hhistory => exact hhistory ▸ List.suffix_cons _ _
  | cleared _ _ hhistory => exact hhistory ▸ List.suffix_rfl

theorem Step.nodup_ids (h : p.Step a q) (hnodup : (p.ids ++ a.ids).Nodup) : q.ids.Nodup := by
  obtain ⟨dropped, hperm⟩ := h.change.perm_ids
  exact List.Nodup.of_append_left (hperm.nodup_iff.mp hnodup)

/-! ## Runs -/

theorem run?_append (p : Pool α π) (as bs : List (Action α π)) :
    p.run? (as ++ bs) = (p.run? as).bind fun q => q.run? bs := by
  induction as generalizing p with
  | nil => rfl
  | cons a as ih =>
      simp only [List.cons_append, run?]
      cases p.step? a with
      | none => rfl
      | some q => exact ih q

theorem run?_cons_eq_some {as : List (Action α π)} (h : p.run? (a :: as) = some q) :
    ∃ r, p.Step a r ∧ r.run? as = some q := by
  obtain ⟨r, hr, hq⟩ := Option.bind_eq_some_iff.mp h
  exact ⟨r, .of_step? hr, hq⟩

theorem run?_append_eq_some {as bs : List (Action α π)} (h : p.run? (as ++ bs) = some q) :
    ∃ r, p.run? as = some r ∧ r.run? bs = some q := by
  rw [run?_append] at h
  exact Option.bind_eq_some_iff.mp h

/-- What every step of a run keeps, the run keeps. -/
theorem run_keeps {I : Pool α π → Prop} {as : List (Action α π)} (hrun : p.run? as = some q)
    (hstep : ∀ {r a s}, a ∈ as → r.Step a s → I r → I s) (hp : I p) : I q := by
  induction as generalizing p with
  | nil =>
      cases hrun
      exact hp
  | cons a as ih =>
      obtain ⟨r, hr, hq⟩ := run?_cons_eq_some hrun
      exact ih hq (fun hb => hstep (List.mem_cons_of_mem a hb)) (hstep (List.mem_cons_self ..) hr hp)

/-- The identities that the actions use up are distinct, and new to the pool. -/
def Fresh (p : Pool α π) (as : List (Action α π)) : Prop := (p.ids ++ Action.idsOf as).Nodup

theorem Fresh.of_cons {as : List (Action α π)} (h : p.Fresh (a :: as)) :
    (p.ids ++ a.ids).Nodup := by
  rw [Fresh, Action.idsOf, List.flatMap_cons, ← List.append_assoc] at h
  exact (List.nodup_append.mp h).1

theorem Fresh.step {as : List (Action α π)} (h : p.Fresh (a :: as)) (hs : p.Step a q) :
    q.Fresh as := by
  obtain ⟨dropped, hperm⟩ := hs.change.perm_ids
  rw [Fresh, Action.idsOf, List.flatMap_cons, ← List.append_assoc] at h
  have hdropped := (hperm.append_right _).nodup_iff.mp h
  refine hdropped.sublist ?_
  rw [List.append_assoc]
  exact List.Sublist.append_left (List.sublist_append_right _ _) _

theorem Fresh.run {as bs : List (Action α π)} (h : p.Fresh (as ++ bs))
    (hrun : p.run? as = some q) : q.Fresh bs := by
  induction as generalizing p with
  | nil =>
      cases hrun
      exact h
  | cons a as ih =>
      obtain ⟨r, hr, hq⟩ := run?_cons_eq_some hrun
      exact ih (h.step hr) hq

/-- **Induction over runs.** What every step keeps, given distinct identities, the run keeps. -/
theorem run_invariant {I : Pool α π → Prop} {as : List (Action α π)} (hfresh : p.Fresh as)
    (hrun : p.run? as = some q)
    (hstep : ∀ {r a s}, a ∈ as → (r.ids ++ a.ids).Nodup → r.Step a s → I r → I s) (hp : I p) :
    I q := by
  induction as generalizing p with
  | nil =>
      cases hrun
      exact hp
  | cons a as ih =>
      obtain ⟨r, hr, hq⟩ := run?_cons_eq_some hrun
      have hI : I r := hstep (List.mem_cons_self ..) hfresh.of_cons hr hp
      exact ih (hfresh.step hr) hq (fun hb => hstep (List.mem_cons_of_mem a hb)) hI

/-! ## From a new pool on -/

/-- Every pool that is created has two workers at least. -/
theorem exists_count_of_create {available : Nat} {o : QueueOptions}
    (h : create available o = .ok p) :
    ∃ count, 2 ≤ count ∧ p = ofLanes (lanes o.dedicatedLane count) := by
  unfold create at h
  cases hcount : workerCount available o with
  | error e =>
      rw [hcount] at h
      cases h
  | ok count =>
      rw [hcount] at h
      cases h
      refine ⟨count, ?_, rfl⟩
      unfold workerCount at hcount
      split at hcount
      · split at hcount
        · cases hcount
        · cases hcount
          exact Nat.le_max_right _ _
      · cases hcount
        exact Nat.le_max_right _ _

/-- A new pool is awake and empty. -/
theorem create_eq_ok {available : Nat} {o : QueueOptions} (h : create available o = .ok p) :
    ∃ ls, 2 ≤ ls.length ∧ p = ofLanes ls := by
  obtain ⟨count, hcount, rfl⟩ := exists_count_of_create h
  refine ⟨lanes o.dedicatedLane count, ?_, rfl⟩
  rwa [lanes, List.length_map, List.length_range]

@[simp] theorem held_ofLanes (ls : List (Option Lane)) :
    (ofLanes ls : Pool α π).held = [] := by
  simp only [held, ofLanes, List.filterMap_eq_nil_iff, List.mem_map]
  rintro _ ⟨lane, _, rfl⟩
  rfl

@[simp] theorem ids_ofLanes (ls : List (Option Lane)) : (ofLanes ls : Pool α π).ids = [] := by
  rw [ids, heldIds, held_ofLanes]
  rfl

/-- These actions lead from a new pool to `p`, and no two jobs of theirs have one identity. -/
structure Reached (pool : Pool α π) (as : List (Action α π)) (p : Pool α π) : Prop where
  created : ∃ available o, create available o = .ok pool
  distinct : (Action.idsOf as).Nodup
  run : pool.run? as = some p

namespace Reached

variable {pool : Pool α π} {as bs : List (Action α π)}

theorem fresh (h : pool.Reached as p) : pool.Fresh as := by
  obtain ⟨_, _, hcreate⟩ := h.created
  obtain ⟨ls, _, rfl⟩ := create_eq_ok hcreate
  rw [Fresh, ids_ofLanes, List.nil_append]
  exact h.distinct

/-- Every pool on the way is reached. -/
theorem split (h : pool.Reached (as ++ bs) q) :
    ∃ p, pool.Reached as p ∧ p.Fresh bs ∧ p.run? bs = some q := by
  obtain ⟨p, hp, hq⟩ := run?_append_eq_some h.run
  have hdistinct := h.distinct
  rw [Action.idsOf, List.flatMap_append] at hdistinct
  exact ⟨p, ⟨h.created, List.Nodup.of_append_left hdistinct, hp⟩, h.fresh.run hp, hq⟩

theorem extend (h : pool.Reached as p) (hdistinct : (Action.idsOf (as ++ bs)).Nodup)
    (hrun : p.run? bs = some q) : pool.Reached (as ++ bs) q := by
  refine ⟨h.created, hdistinct, ?_⟩
  rw [run?_append, h.run]
  exact hrun

/-- What holds of a new pool and is kept by the steps holds of every pool that is reached. -/
theorem invariant {I : Pool α π → Prop} (h : pool.Reached as p)
    (hnew : ∀ ls, 2 ≤ ls.length → I (ofLanes ls))
    (hstep : ∀ {r a s}, a ∈ as → (r.ids ++ a.ids).Nodup → r.Step a s → I r → I s) : I p := by
  obtain ⟨_, _, hcreate⟩ := h.created
  obtain ⟨ls, hls, rfl⟩ := create_eq_ok hcreate
  exact run_invariant h.fresh h.run hstep (hnew ls hls)

/-- No identity is in two places. -/
theorem nodup_ids (h : pool.Reached as p) : p.ids.Nodup := by
  refine h.invariant (I := fun r => r.ids.Nodup) (fun ls _ => by simp) ?_
  intro r a s _ hnodup hs _
  exact hs.nodup_ids hnodup

end Reached

end Pool

end RenderPlan
