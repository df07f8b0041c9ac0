/-
# RenderPlan.Proofs.Queue.Dismissal -- who is told that it will never run, and how often

Calls of `stop` and `clear` look at the pending jobs once, and tell every job that they find there
that it will never run. So a job is told as often as such a call finds it (`Step.perm_dismissed`). It
has not begun then, and does not begin later: a call of `clear` takes what it finds out of the queue,
and a call of `stop` looks when the queue is closed (`Leads.dismissed_apart`).

A call of `stop` leaves in the queue what it finds. The next call that looks finds it again, so a job
that was pending when the queue stopped is told once exactly if no other call looks after a call of
`stop` that found it (`Leads.told_once_iff`).
-/
import RenderPlan.Proofs.Queue.Dispatch

namespace RenderPlan

variable {α π : Type}

/-! ## Jobs that are told -/

/-- The job that was told that it will never run. -/
def JobEvent.told? : JobEvent α π → Option (PendingJob α π)
  | abandoned job => some job
  | _ => none

/-- The jobs that were told that they will never run, the latest first. -/
def jobsTold (h : List (JobEvent α π)) : List (PendingJob α π) := h.filterMap JobEvent.told?

/-- The identities of the jobs that were told that they will never run. -/
def toldIds (h : List (JobEvent α π)) : List JobId := (jobsTold h).map fun j => j.id

namespace Shutdown

/-- The jobs that the call has still to tell. -/
def jobs : Shutdown α π → List (PendingJob α π)
  | joining _ => []
  | abandoning js => js

/-- The call has nothing more to do. -/
def isOver : Shutdown α π → Bool
  | abandoning [] => true
  | _ => false

/-- The call is one of `stop` and has not looked at the pending jobs yet. -/
def isJoining : Shutdown α π → Bool
  | joining _ => true
  | _ => false

end Shutdown

namespace Action

/-- A call of `stop` or `clear` looks at the pending jobs. -/
def looks : Action α π → Bool
  | join _ => true
  | clear => true
  | _ => false

theorem looks_of_submission? {a : Action α π} {jobs : List (Job (Payload α))} {params : π}
    (ha : a.submission? = some (jobs, params)) : a.looks = false := by
  cases a <;> first | rfl | cases ha

end Action

namespace Pool

variable {p q pool : Pool α π} {a : Action α π} {as bs done : List (Action α π)} {i : JobId}

/-- The jobs that calls under way have still to tell. -/
def doomed (p : Pool α π) : List (PendingJob (Payload α) π) := p.shutdowns.flatMap Shutdown.jobs

/-- The jobs that were told, or are about to be. -/
def dismissed (p : Pool α π) : List (PendingJob (Payload α) π) := jobsTold p.history ++ p.doomed

/-- The identities of the jobs that were told, or are about to be. -/
def dismissedIds (p : Pool α π) : List JobId := p.dismissed.map fun j => j.id

/-- The jobs that a call of `stop` or `clear` finds when it looks. -/
def found (p : Pool α π) (a : Action α π) : List (PendingJob (Payload α) π) :=
  if a.looks then p.queue.pending else []

/-- No call of `stop` or `clear` is under way. -/
def AtRest (p : Pool α π) : Prop := ∀ s ∈ p.shutdowns, s.isOver = true

instance (p : Pool α π) : Decidable p.AtRest :=
  inferInstanceAs (Decidable (∀ s ∈ p.shutdowns, s.isOver = true))

theorem AtRest.doomed_eq_nil (h : p.AtRest) : p.doomed = [] := by
  refine List.flatMap_eq_nil_iff.mpr fun s hs => ?_
  have hover := h s hs
  match s, hover with
  | .abandoning [], _ => rfl

theorem AtRest.dismissedIds_eq (h : p.AtRest) : p.dismissedIds = toldIds p.history := by
  rw [dismissedIds, dismissed, h.doomed_eq_nil, List.append_nil, toldIds]

theorem AtRest.not_joining (h : p.AtRest) : ∀ s ∈ p.shutdowns, s.isJoining = false := by
  intro s hs
  have hover := h s hs
  match s, hover with
  | .abandoning [], _ => rfl

/-! ## One step -/

/-- What is exchanged for something else in a list was at that place. -/
theorem mem_set_of_ne {β : Type} {l : List β} {k : Nat} {u t s : β} (hk : l[k]? = some u) (hs : s ∈ l)
    (hne : s ≠ u) : s ∈ l.set k t := by
  obtain ⟨hlt, rfl⟩ := List.getElem?_eq_some_iff.mp hk
  obtain ⟨before, after, hl, _, hset⟩ := @List.exists_of_set _ _ t _ hlt
  rw [hset]
  rw [hl] at hs
  simp only [List.mem_append, List.mem_cons] at hs ⊢
  tauto

@[simp] theorem shutdowns_answer (p : Pool α π) (w : Nat) (job : PendingJob (Payload α) π)
    (ok : Bool) : (p.answer w job ok).shutdowns = p.shutdowns := by
  unfold Pool.answer release
  cases job.payload with
  | work _ => rfl
  | barrier =>
      show (if _ then p else _).shutdowns = p.shutdowns
      split <;> rfl

@[simp] theorem shutdowns_done (p : Pool α π) (w : Nat) (job : PendingJob (Payload α) π)
    (ok : Bool) : (p.done w job ok).shutdowns = p.shutdowns := by
  unfold Pool.done
  split <;> rfl

@[simp] theorem shutdowns_abandonJob (p : Pool α π) (job : PendingJob (Payload α) π) :
    (p.abandonJob job).shutdowns = p.shutdowns := by
  unfold abandonJob release
  cases job.payload with
  | work _ => rfl
  | barrier =>
      show (if _ then _ else _ : Pool α π).shutdowns = p.shutdowns
      split <;> rfl

/-- The jobs of one call are exchanged, and the other calls keep theirs. -/
theorem doomed_set {call : Nat} {s : Shutdown (Payload α) π} (hcall : p.shutdowns[call]? = some s)
    (t : Shutdown (Payload α) π) : ∃ others, p.doomed.Perm (s.jobs ++ others) ∧
      ((p.shutdowns.set call t).flatMap Shutdown.jobs).Perm (t.jobs ++ others) := by
  obtain ⟨hlt, rfl⟩ := List.getElem?_eq_some_iff.mp hcall
  obtain ⟨before, after, hp, _, hq⟩ := @List.exists_of_set _ _ t _ hlt
  refine ⟨before.flatMap Shutdown.jobs ++ after.flatMap Shutdown.jobs, ?_, ?_⟩
  · rw [doomed]
    conv_lhs => rw [hp]
    rw [List.flatMap_append, List.flatMap_cons]
    exact List.perm_append_comm_assoc _ _ _
  · rw [hq, List.flatMap_append, List.flatMap_cons]
    exact List.perm_append_comm_assoc _ _ _

/-- **Told as often as found.** What a call finds it tells, once. -/
theorem Step.perm_dismissed (hs : p.Step a q) : q.dismissed.Perm (p.dismissed ++ p.found a) := by
  -- most steps tell nobody and find nobody
  have hsame : jobsTold q.history = jobsTold p.history → q.shutdowns = p.shutdowns →
      a.looks = false → q.dismissed.Perm (p.dismissed ++ p.found a) := by
    intro hhistory hshutdowns ha
    rw [dismissed, doomed, hhistory, hshutdowns, found, ha]
    simp only [Bool.false_eq_true, if_false, List.append_nil]
    exact .refl _
  cases hs with
  | submit ha _ _ => exact hsame rfl rfl (Action.looks_of_submission? ha)
  | refuse ha _ => exact hsame rfl rfl (Action.looks_of_submission? ha)
  | take _ _ _ _ _ => exact hsame rfl rfl rfl
  | sleep _ _ _ => exact hsame rfl rfl rfl
  | leave _ _ => exact hsame rfl rfl rfl
  | @answer w _ job ok _ =>
      exact hsame (congrArg jobsTold (history_answer p w job ok)) (shutdowns_answer p w job ok) rfl
  | @report w _ job ok _ =>
      have hhistory := (done_fields p w job ok).2.2
      exact hsame (by rw [hhistory]; rfl) (shutdowns_done p w job ok) rfl
  | wake _ => exact hsame rfl rfl rfl
  | close =>
      have hdoomed : (p.shutdowns ++ [Shutdown.joining (!p.isJoined)]).flatMap Shutdown.jobs =
          p.doomed := by
        rw [List.flatMap_append]
        exact List.append_nil _
      refine .of_eq ?_
      show jobsTold p.history ++ _ = p.dismissed ++ []
      rw [List.append_nil]
      exact congrArg (jobsTold p.history ++ ·) hdoomed
  | @join call waits hcall _ =>
      obtain ⟨others, hp, hq⟩ := doomed_set hcall (.abandoning p.queue.pending)
      have hmove : (p.queue.pending ++ others).Perm (p.doomed ++ p.queue.pending) :=
        (hp.append_right _).trans List.perm_append_comm |>.symm
      show (jobsTold p.history ++ List.flatMap _ _).Perm (p.dismissed ++ p.queue.pending)
      rw [dismissed, List.append_assoc]
      exact (hq.trans hmove).append_left _
  | clear =>
      show (jobsTold p.history ++ List.flatMap _ _).Perm (p.dismissed ++ p.queue.pending)
      rw [List.flatMap_append, dismissed, List.append_assoc]
      exact .of_eq (by simp [doomed, Shutdown.jobs])
  | @abandon call job jobs hcall =>
      obtain ⟨others, hp, hq⟩ := doomed_set hcall (.abandoning jobs)
      have hhistory := (abandonJob_fields
        { p with shutdowns := p.shutdowns.set call (.abandoning jobs) } job).2.2
      have hfound : p.found (.abandon call) = [] := rfl
      rw [hfound, List.append_nil, dismissed, dismissed, doomed, hhistory, shutdowns_abandonJob]
      -- the job goes from the list of the call to the history
      show (job :: (jobsTold p.history ++ List.flatMap _ _)).Perm _
      exact ((hq.append_left _).cons job).trans (List.perm_middle.symm.trans (hp.symm.append_left _))

theorem Step.count_dismissedIds (hs : p.Step a q) (i : JobId) :
    q.dismissedIds.count i =
      p.dismissedIds.count i + if a.looks then p.pendingIds.count i else 0 := by
  have hcount := (hs.perm_dismissed.map fun j => j.id).count_eq i
  rw [List.map_append, List.count_append] at hcount
  rw [dismissedIds, hcount, dismissedIds, found]
  split <;> rfl

/-- Whoever is dismissed stays dismissed. -/
theorem Step.mem_dismissedIds (hs : p.Step a q) (hi : i ∈ p.dismissedIds) : i ∈ q.dismissedIds := by
  have hcount := hs.count_dismissedIds i
  have hpos := List.count_pos_iff.mpr hi
  exact List.count_pos_iff.mp (by omega)

/-- Whoever is pending when a call looks is dismissed. -/
theorem Step.dismissedIds_of_looks (hs : p.Step a q) (ha : a.looks = true) (hi : i ∈ p.pendingIds) :
    i ∈ q.dismissedIds := by
  have hcount := hs.count_dismissedIds i
  rw [if_pos ha] at hcount
  have hpos := List.count_pos_iff.mpr hi
  exact List.count_pos_iff.mp (by omega)

theorem count_dismissedIds_le_of_run (hrun : p.run? bs = some q) (i : JobId) :
    p.dismissedIds.count i ≤ q.dismissedIds.count i := by
  refine run_keeps (I := fun r => p.dismissedIds.count i ≤ r.dismissedIds.count i) hrun ?_
    (Nat.le_refl _)
  intro r a s _ hs hr
  rw [hs.count_dismissedIds i]
  omega

theorem Step.dismissedIds_cases (hs : p.Step a q) (hi : i ∈ q.dismissedIds) :
    i ∈ p.dismissedIds ∨ (a.looks = true ∧ i ∈ p.pendingIds) := by
  have hcount := hs.count_dismissedIds i
  have hpos := List.count_pos_iff.mpr hi
  by_cases ha : a.looks = true
  · rw [if_pos ha] at hcount
    by_cases hp : i ∈ p.dismissedIds
    · exact Or.inl hp
    · rw [List.count_eq_zero_of_not_mem hp] at hcount
      exact Or.inr ⟨ha, List.count_pos_iff.mp (by omega)⟩
  · rw [if_neg ha] at hcount
    exact Or.inl (List.count_pos_iff.mp (by omega))

/-- Only a call of `stop` closes the queue. -/
theorem Step.running_eq (hs : p.Step a q) (ha : a ≠ .close) : q.queue.running = p.queue.running := by
  cases hs with
  | answer _ => rw [queue_answer]
  | @report w _ job ok _ =>
      rw [(done_fields p w job ok).1]
      rfl
  | abandon _ => rw [(abandonJob_fields _ _).1]
  | close => exact absurd rfl ha
  | _ => rfl

theorem Step.stopped_of_close (hs : p.Step .close q) : q.queue.running = false := by
  cases hs with
  | close => rfl
  | submit ha _ _ => cases ha
  | refuse ha _ => cases ha

/-- A call of `stop` that has yet to look has had to before, or begins now. -/
theorem Step.mem_joining (hs : p.Step a q) {s : Shutdown (Payload α) π} (hj : s.isJoining = true)
    (hq : s ∈ q.shutdowns) : s ∈ p.shutdowns ∨ a = .close := by
  cases hs with
  | answer _ =>
      rw [shutdowns_answer] at hq
      exact Or.inl hq
  | report _ =>
      rw [shutdowns_done] at hq
      exact Or.inl hq
  | close => exact Or.inr rfl
  | join _ _ =>
      rcases List.mem_or_eq_of_mem_set hq with hp | rfl
      · exact Or.inl hp
      · cases hj
  | clear =>
      rcases List.mem_append.mp hq with hp | hq
      · exact Or.inl hp
      · rw [List.mem_singleton.mp hq] at hj
        cases hj
  | abandon _ =>
      rw [shutdowns_abandonJob] at hq
      rcases List.mem_or_eq_of_mem_set hq with hp | rfl
      · exact Or.inl hp
      · cases hj
  | _ => exact Or.inl hq

/-- A call of `stop` that has yet to look is not forgotten. -/
theorem Step.joining_of_mem (hs : p.Step a q) {s : Shutdown (Payload α) π} (hj : s.isJoining = true)
    (hp : s ∈ p.shutdowns) : s ∈ q.shutdowns ∨ a.looks = true := by
  cases hs with
  | answer _ =>
      rw [shutdowns_answer]
      exact Or.inl hp
  | report _ =>
      rw [shutdowns_done]
      exact Or.inl hp
  | close => exact Or.inl (List.mem_append_left _ hp)
  | join _ _ => exact Or.inr rfl
  | clear => exact Or.inr rfl
  | @abandon call job jobs hcall =>
      rw [shutdowns_abandonJob]
      refine Or.inl (mem_set_of_ne hcall hp ?_)
      rintro rfl
      cases hj
  | _ => exact Or.inl hp

theorem Step.stopped_of_stopped (hs : p.Step a q) (h : p.queue.running = false) :
    q.queue.running = false := by
  rw [← Bool.not_eq_true] at h ⊢
  exact fun hq => h (hs.running_of_running hq)

/-- A look moves no job but those that a call of `clear` takes out, and a call of `stop` looks when
it had to. -/
theorem Step.of_looks (hs : p.Step a q) (ha : a.looks = true) :
    q.held = p.held ∧ q.history = p.history ∧
      (a = .clear ∧ q.queue.pending = [] ∨
        (∃ call, a = .join call) ∧ q.queue.pending = p.queue.pending ∧
          ∃ s ∈ p.shutdowns, s.isJoining = true) := by
  cases hs with
  | submit hsub _ _ =>
      rw [Action.looks_of_submission? hsub] at ha
      cases ha
  | refuse hsub _ =>
      rw [Action.looks_of_submission? hsub] at ha
      cases ha
  | @join call _ hcall _ =>
      exact ⟨rfl, rfl, Or.inr ⟨⟨call, rfl⟩, rfl, _, List.mem_of_getElem? hcall, rfl⟩⟩
  | clear => exact ⟨rfl, rfl, Or.inl ⟨rfl, rfl⟩⟩
  | _ => cases ha

/-! ## Runs -/

namespace Leads

variable {before after : List (Action α π)} {r : Pool α π} {b : Action α π} {call : Nat}

/-- A call of `stop` has yet to look only on a closed queue. -/
theorem stopped_of_joining (h : pool.Leads as p) :
    ∀ s ∈ p.shutdowns, s.isJoining = true → p.queue.running = false := by
  refine h.invariant (I := fun r => ∀ s ∈ r.shutdowns, s.isJoining = true →
    r.queue.running = false) (fun _ _ => nofun) ?_
  intro r a t _ hs hr s hmem hj
  rcases hs.mem_joining hj hmem with hold | rfl
  · exact hs.stopped_of_stopped (hr s hold hj)
  · exact hs.stopped_of_close

/-- On a closed queue a call of `stop` has yet to look, or everybody who is pending is dismissed. -/
theorem attended (h : pool.Leads as p) (hstopped : p.queue.running = false) :
    (∃ s ∈ p.shutdowns, s.isJoining = true) ∨ ∀ i ∈ p.pendingIds, i ∈ p.dismissedIds := by
  revert hstopped
  refine h.invariant (I := fun r => r.queue.running = false →
    (∃ s ∈ r.shutdowns, s.isJoining = true) ∨ ∀ i ∈ r.pendingIds, i ∈ r.dismissedIds)
    (fun _ _ => nofun) ?_
  intro r a t _ hs hr ht
  by_cases hclose : a = .close
  · subst hclose
    cases hs with
    | close =>
        refine Or.inl ⟨_, List.mem_append_right _ (List.mem_singleton_self _), rfl⟩
    | submit ha _ _ => cases ha
    | refuse ha _ => cases ha
  have hstopped : r.queue.running = false := hs.running_eq hclose ▸ ht
  have hpending : ∀ i ∈ t.pendingIds, i ∈ r.pendingIds := by
    intro i hi
    rcases hs.change.mem_pendingIds hi with hi | ⟨_, hrunning⟩
    · exact hi
    · rw [hstopped] at hrunning
      cases hrunning
  by_cases hlook : a.looks = true
  · -- whoever is pending after the look was pending before, and has been found
    exact Or.inr fun i hi => hs.dismissedIds_of_looks hlook (hpending i hi)
  · rcases hr hstopped with ⟨s, hmem, hj⟩ | hall
    · rcases hs.joining_of_mem hj hmem with hmem | hlooks
      · exact Or.inl ⟨s, hmem, hj⟩
      · exact absurd hlooks hlook
    · exact Or.inr fun i hi => hs.mem_dismissedIds (hall i (hpending i hi))

/-- Nobody is dismissed who was not submitted. -/
theorem mem_idsOf_of_dismissed (h : pool.Leads as p) :
    ∀ i ∈ p.dismissedIds, i ∈ Action.idsOf as := by
  refine h.induction (I := fun done r => ∀ i ∈ r.dismissedIds, i ∈ Action.idsOf done)
    (fun _ _ => nofun) ?_
  intro done a r s _ hleads hs hr i hi
  rw [Action.idsOf_append]
  rcases hs.dismissedIds_cases hi with hi | ⟨_, hi⟩
  · exact List.mem_append_left _ (hr i hi)
  · exact List.mem_append_left _ (hleads.mem_idsOf (List.mem_append_left _ (List.mem_append_left _ hi)))

/-- Whoever is pending has no other place in the pool. -/
theorem apart_of_pending (h : pool.Leads as p) (hcount : (Action.idsOf as).count i ≤ 1)
    (hi : i ∈ p.pendingIds) :
    p.pendingIds.count i = 1 ∧ i ∉ p.heldIds ∧ i ∉ endedIds p.history := by
  have hle := h.count_ids_le i
  rw [count_ids] at hle
  have hpos := List.count_pos_iff.mpr hi
  refine ⟨by omega, fun hheld => ?_, fun hended => ?_⟩
  · have hpos' := List.count_pos_iff.mpr hheld
    omega
  · have hpos' := List.count_pos_iff.mpr hended
    omega

/-- An identity that has been issued does not come again. -/
theorem notMem_ids_of_issued (hpre : done ++ [a] <+: as) (hcount : (Action.idsOf as).count i ≤ 1)
    (hi : i ∈ Action.idsOf done) : i ∉ a.ids := by
  intro hnew
  have hle := Action.count_of_prefix hpre hcount
  have hpos := List.count_pos_iff.mpr hi
  have hpos' := List.count_pos_iff.mpr hnew
  omega

theorem count_done (hpre : done ++ [a] <+: as) (hcount : (Action.idsOf as).count i ≤ 1) :
    (Action.idsOf done).count i ≤ 1 := by
  have hle := Action.count_of_prefix hpre hcount
  omega

/-- **Who is dismissed does not run.** It has not begun, and it is pending on a closed queue at most,
so it never will. -/
theorem dismissed_apart (h : pool.Leads as p) (hcount : (Action.idsOf as).count i ≤ 1)
    (hi : i ∈ p.dismissedIds) :
    i ∉ p.heldIds ∧ i ∉ endedIds p.history ∧
      (i ∈ p.pendingIds → p.queue.running = false) := by
  revert hi
  refine h.induction (I := fun _ r => i ∈ r.dismissedIds → i ∉ r.heldIds ∧
    i ∉ endedIds r.history ∧ (i ∈ r.pendingIds → r.queue.running = false)) (fun _ _ => nofun) ?_
  intro done a r s hpre hleads hs hr hi
  by_cases hold : i ∈ r.dismissedIds
  · obtain ⟨hheld, hended, hstopped⟩ := hr hold
    refine ⟨fun hmem => ?_, fun hmem => ?_, fun hmem => ?_⟩
    · rcases hs.change.mem_heldIds hmem with hmem | ⟨hmem, hrunning⟩
      · exact hheld hmem
      · rw [hstopped hmem] at hrunning
        cases hrunning
    · rcases hs.change.mem_endedIds hmem with hmem | hmem
      · exact hended hmem
      · exact hheld hmem
    · rcases hs.change.mem_pendingIds hmem with hmem | ⟨hmem, _⟩
      · exact hs.stopped_of_stopped (hstopped hmem)
      · exact absurd hmem
          (notMem_ids_of_issued hpre hcount (hleads.mem_idsOf_of_dismissed i hold))
  · -- it was found just now
    obtain ⟨hlook, hpending⟩ := (hs.dismissedIds_cases hi).resolve_left hold
    obtain ⟨_, hheld, hended⟩ := hleads.apart_of_pending (count_done hpre hcount) hpending
    obtain ⟨hsheld, hshistory, hcase⟩ := hs.of_looks hlook
    rw [heldIds, hsheld, hshistory]
    refine ⟨hheld, hended, fun hmem => ?_⟩
    rcases hcase with ⟨_, hnone⟩ | ⟨_, _, t, ht, hj⟩
    · rw [pendingIds, hnone] at hmem
      cases hmem
    · exact hs.stopped_of_stopped (hleads.stopped_of_joining t ht hj)

/-- Who is pending when a call of `stop` or `clear` begins is dismissed, or waits on a closed queue
until it is. -/
theorem dismissed_of_pending (h : pool.Leads (before ++ a :: after) p) (ha : a = .close ∨ a = .clear)
    (hr : pool.run? before = some r) (hi : i ∈ r.pendingIds)
    (hcount : (Action.idsOf (before ++ a :: after)).count i ≤ 1) :
    i ∈ p.dismissedIds ∨ (i ∈ p.pendingIds ∧ p.queue.running = false) := by
  refine h.induction_from (I := fun _ s => i ∈ s.dismissedIds ∨
    (i ∈ s.pendingIds ∧ s.queue.running = false)) hr ?_ ?_
  · intro s hstep
    rcases ha with rfl | rfl
    · cases hstep with
      | close => exact Or.inr ⟨hi, rfl⟩
      | submit ha _ _ => cases ha
      | refuse ha _ => cases ha
    · exact Or.inl (hstep.dismissedIds_of_looks rfl hi)
  · intro done b s t hpre hleads hs hor
    rcases hor with hd | ⟨hpending, hstopped⟩
    · exact Or.inl (hs.mem_dismissedIds hd)
    · have hle := (hleads.count_ids_le i).trans (count_done hpre hcount)
      rcases hs.change.of_mem_pendingIds hle hpending with hstays | ⟨_, hrunning⟩ | rfl
      · exact Or.inr ⟨hstays, hs.stopped_of_stopped hstopped⟩
      · rw [hstopped] at hrunning
        cases hrunning
      · exact Or.inl (hs.dismissedIds_of_looks rfl hpending)

end Leads

/-- When a call of `stop` looks and finds the job, no call of `stop` or `clear` looks after it. -/
def LastLook (pool : Pool α π) (as : List (Action α π)) (i : JobId) : Prop :=
  ∀ before call after r, as = before ++ .join call :: after → pool.run? before = some r →
    i ∈ r.pendingIds → ∀ b ∈ after, b.looks = false

namespace Leads

variable {before after : List (Action α π)} {r : Pool α π} {b : Action α π} {call : Nat}

theorem count_dismissedIds_le_one (h : pool.Leads as p) (hcount : (Action.idsOf as).count i ≤ 1)
    (hlast : LastLook pool as i) : p.dismissedIds.count i ≤ 1 := by
  -- a job that was found and is still pending has met its last look
  suffices hboth : p.dismissedIds.count i ≤ 1 ∧ (i ∈ p.pendingIds → i ∈ p.dismissedIds →
      ∀ rest, as = as ++ rest → ∀ b ∈ rest, b.looks = false) from hboth.1
  refine h.induction (I := fun done r => r.dismissedIds.count i ≤ 1 ∧ (i ∈ r.pendingIds →
    i ∈ r.dismissedIds → ∀ rest, as = done ++ rest → ∀ b ∈ rest, b.looks = false)) ?_ ?_
  · exact fun _ _ => ⟨Nat.zero_le _, nofun⟩
  intro done a r s hpre hleads hs ⟨hone, hnone⟩
  have hdismissed := hs.count_dismissedIds i
  by_cases hlook : a.looks = true
  · obtain ⟨_, _, hcase⟩ := hs.of_looks hlook
    rw [if_pos hlook] at hdismissed
    by_cases hi : i ∈ r.pendingIds
    · have hnew : r.dismissedIds.count i = 0 := by
        refine List.count_eq_zero_of_not_mem fun hd => ?_
        obtain ⟨rest, hrest⟩ := hpre
        have hfalse := hnone hi hd (a :: rest) (by rw [← hrest]; simp) a (List.mem_cons_self ..)
        rw [hlook] at hfalse
        cases hfalse
      have hpending := (hleads.apart_of_pending (count_done hpre hcount) hi).1
      refine ⟨by omega, fun hmem _ rest hrest => ?_⟩
      rcases hcase with ⟨_, hempty⟩ | ⟨⟨call, rfl⟩, _⟩
      · rw [pendingIds, hempty] at hmem
        cases hmem
      · exact hlast done call rest r (by rw [hrest]; simp) hleads.run hi
    · rw [List.count_eq_zero_of_not_mem hi] at hdismissed
      refine ⟨by omega, fun hmem => absurd ?_ hi⟩
      rcases hcase with ⟨_, hempty⟩ | ⟨_, hsame, _⟩
      · rw [pendingIds, hempty] at hmem
        cases hmem
      · rwa [pendingIds, hsame] at hmem
  · rw [if_neg hlook] at hdismissed
    refine ⟨by omega, fun hmem hd rest hrest c hc => ?_⟩
    have hold := (hs.dismissedIds_cases hd).resolve_right fun hor => hlook hor.1
    rcases hs.change.mem_pendingIds hmem with hmem | ⟨hmem, _⟩
    · exact hnone hmem hold (a :: rest) (by rw [hrest]; simp) c (List.mem_cons_of_mem _ hc)
    · exact absurd hmem (notMem_ids_of_issued hpre hcount (hleads.mem_idsOf_of_dismissed i hold))

/-- A job that was found, and is pending on the closed queue all the same, is found again by the next
call that looks. -/
theorem two_le_of_look (h : pool.Leads before r) (hrun : r.run? after = some p)
    (hcount : (Action.idsOf (before ++ after)).count i ≤ 1) (hpending : i ∈ r.pendingIds)
    (hd : i ∈ r.dismissedIds) (hstopped : r.queue.running = false)
    (hlook : ∃ b ∈ after, b.looks = true) : 2 ≤ p.dismissedIds.count i := by
  induction after generalizing before r with
  | nil =>
      obtain ⟨b, hb, _⟩ := hlook
      cases hb
  | cons a after ih =>
      obtain ⟨s, hs, hp⟩ := run?_cons_eq_some hrun
      have hdismissed := hs.count_dismissedIds i
      have hpos := List.count_pos_iff.mpr hd
      by_cases ha : a.looks = true
      · have hpos' := List.count_pos_iff.mpr hpending
        rw [if_pos ha] at hdismissed
        have hle := count_dismissedIds_le_of_run hp i
        omega
      · have hsplit : before ++ a :: after = before ++ [a] ++ after := by simp
        rw [hsplit] at hcount
        have hpre : before ++ [a] <+: before ++ [a] ++ after := List.prefix_append _ _
        have hle := (h.count_ids_le i).trans (count_done hpre hcount)
        have hstays : i ∈ s.pendingIds := by
          rcases hs.change.of_mem_pendingIds hle hpending with hstays | ⟨_, hrunning⟩ | rfl
          · exact hstays
          · rw [hstopped] at hrunning
            cases hrunning
          · exact absurd rfl ha
        obtain ⟨b, hb, hblooks⟩ := hlook
        have hrest : b ∈ after := by
          rcases List.mem_cons.mp hb with rfl | hb
          · exact absurd hblooks ha
          · exact hb
        exact ih (h.snoc hs) hp hcount hstays (hs.mem_dismissedIds hd)
          (hs.stopped_of_stopped hstopped) ⟨b, hrest, hblooks⟩

theorem two_le_count_dismissedIds (h : pool.Leads (before ++ .join call :: after) p)
    (hcount : (Action.idsOf (before ++ .join call :: after)).count i ≤ 1)
    (hr : pool.run? before = some r) (hi : i ∈ r.pendingIds) (hb : b ∈ after)
    (hlook : b.looks = true) : 2 ≤ p.dismissedIds.count i := by
  obtain ⟨r', hr', hp⟩ := run?_append_eq_some h.run
  obtain rfl : r = r' := Option.some.inj (hr.symm.trans hr')
  obtain ⟨s, hs, hp⟩ := run?_cons_eq_some hp
  have hbefore : pool.Leads before r := ⟨h.created, hr⟩
  -- the look leaves the job where it is, on a closed queue
  obtain ⟨_, _, hcase⟩ := hs.of_looks rfl
  obtain ⟨_, hsame, t, ht, hj⟩ := hcase.resolve_left fun hclear => nomatch hclear.1
  have hpending : i ∈ s.pendingIds := by rwa [pendingIds, hsame]
  have hstopped := hs.stopped_of_stopped (hbefore.stopped_of_joining t ht hj)
  refine (hbefore.snoc hs).two_le_of_look hp ?_ hpending (hs.dismissedIds_of_looks rfl hi) hstopped
    ⟨b, hb, hlook⟩
  rwa [List.append_assoc]

theorem count_dismissedIds_le_one_iff (h : pool.Leads as p)
    (hcount : (Action.idsOf as).count i ≤ 1) :
    p.dismissedIds.count i ≤ 1 ↔ LastLook pool as i := by
  refine ⟨fun hone before call after r has hr hi b hb => ?_, h.count_dismissedIds_le_one hcount⟩
  rw [← Bool.not_eq_true]
  intro hlook
  subst has
  have htwo := h.two_le_count_dismissedIds hcount hr hi hb hlook
  omega

/-- **Who is told, and how often.** Clients submit, stop and clear in any order, and workers do their
steps. A job with an identity of its own that began is never told that it will not run. It is told at
most once if, when a call of `stop` looks and finds it, no other call looks after that; and when no
call is under way this condition is exact. When no call is under way, a job that was pending when a
call of `stop` closed the queue, or when the queue was cleared, has been told. -/
theorem told_once_iff (h : pool.Leads as p) (i : JobId) (hcount : (Action.idsOf as).count i ≤ 1) :
    (i ∈ toldIds p.history → ∀ w job, .began w job ∈ p.history → job.id ≠ i) ∧
      (LastLook pool as i → (toldIds p.history).count i ≤ 1) ∧
      (p.AtRest → ((toldIds p.history).count i ≤ 1 ↔ LastLook pool as i)) ∧
      (p.AtRest → ∀ before a after r, as = before ++ a :: after → a = .close ∨ a = .clear →
        pool.run? before = some r → i ∈ r.pendingIds → i ∈ toldIds p.history) := by
  have htold : (toldIds p.history).Sublist p.dismissedIds :=
    (List.sublist_append_left _ _).map _
  refine ⟨?_, fun hlast => ?_, fun hrest => ?_, ?_⟩
  · rintro hi w job hbegan rfl
    obtain ⟨hheld, hended, _⟩ := h.dismissed_apart hcount (htold.subset hi)
    rcases h.mem_of_began hbegan with hmem | hmem
    · exact hheld hmem
    · exact hended hmem
  · exact (htold.count_le i).trans (h.count_dismissedIds_le_one hcount hlast)
  · rw [← hrest.dismissedIds_eq]
    exact h.count_dismissedIds_le_one_iff hcount
  · intro hrest before a after r has ha hr hi
    rw [← hrest.dismissedIds_eq]
    subst has
    rcases h.dismissed_of_pending ha hr hi hcount with hd | ⟨hpending, hstopped⟩
    · exact hd
    · -- nobody has yet to look on the closed queue
      rcases h.attended hstopped with ⟨s, hmem, hj⟩ | hall
      · rw [hrest.not_joining s hmem] at hj
        cases hj
      · exact hall i hpending

end Leads

/-! ### A queue that is cleared, and one that is stopped twice

A cleared queue goes on, and its next jobs are told when it is stopped. On a queue that is stopped
twice, a job that never ran is told twice. -/

/-- The first job is cleared away, and the second one is pending when the queue is stopped. -/
def clearedThenStopped : List (Action Unit Unit) :=
  [.enqueue [unitJob 0 none] (), .clear, .abandon 0, .enqueue [unitJob 1 none] (), .close, .check 0,
    .check 1, .join 1, .abandon 1]

theorem told_once_iff_cleared : ∃ p : Pool Unit Unit, pair.Leads clearedThenStopped p ∧
    p.AtRest ∧ toldIds p.history = [⟨1⟩, ⟨0⟩] ∧ LastLook pair clearedThenStopped ⟨1⟩ := by
  have hp : pair.Leads clearedThenStopped _ := ⟨exists_create_pair, rfl⟩
  obtain ⟨_, _, hiff, _⟩ := hp.told_once_iff ⟨1⟩ (by decide)
  exact ⟨_, hp, by decide, by decide, (hiff (by decide)).mp (by decide)⟩

/-- A job is submitted, and then the queue is stopped, and stopped once more. -/
def stoppedTwice : List (Action Unit Unit) :=
  [.enqueue [unitJob 0 none] (), .close, .check 0, .check 1, .join 0, .abandon 0, .close, .join 1,
    .abandon 1]

theorem not_told_once_stoppedTwice : ∃ p : Pool Unit Unit, pair.Reached stoppedTwice p ∧
    p.AtRest ∧ (toldIds p.history).count ⟨0⟩ = 2 :=
  ⟨_, ⟨exists_create_pair, by decide, rfl⟩, by decide, by decide⟩

end Pool

end RenderPlan
