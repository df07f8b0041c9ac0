/-
# RenderPlan.Proofs.Queue.Wakeups -- nobody sleeps who could work

A worker falls asleep when it finds nothing to do, in the step in which it looks. After that a job
can become ready for it in two ways: somebody submits it, or the report of another job takes the last
dependency from it. A submission wakes everybody, and so does a report, unless it completes nobody's
dependencies (`exists_ready_of_complete`); what a worker takes out, or a call of `clear`, makes no
job ready. So a sleeper never misses a job (`Alert`), in any order of the steps.

Nothing is asked of the identities of jobs or of their dependencies: two jobs of one identity, or a
circle of dependencies, put nobody to sleep who could work.
-/
import RenderPlan.Proofs.Queue.Progress

namespace RenderPlan.Pool

variable {α π : Type} {p q pool : Pool α π} {a : Action α π} {as : List (Action α π)}

/-! ## Sleepers -/

/-- Whoever sleeps has nothing to do: the queue runs, and no pending job is ready for its lane. -/
def Alert (p : Pool α π) : Prop :=
  ∀ x ∈ p.workers, x.activity = .asleep →
    p.queue.running = true ∧ ∀ j ∈ p.queue.pending, Queue.isReady x.lane j = false

theorem not_asleep_wakeAll {x : Worker (Payload α) π} (hx : x ∈ p.wakeAll.workers) :
    x.activity ≠ .asleep := by
  obtain ⟨y, _, rfl⟩ := List.mem_map.mp hx
  show y.activity.woken ≠ .asleep
  cases y.activity <;> exact nofun

theorem mem_workers_setActivity {w : Nat} {y : Worker (Payload α) π} (hw : p.workers[w]? = some y)
    {b : Activity (Payload α) π} {x : Worker (Payload α) π}
    (hx : x ∈ (p.setActivity w b).workers) : x ∈ p.workers ∨ x = { y with activity := b } := by
  obtain ⟨before, after, hp, hq⟩ := workers_setActivity hw b
  rw [hq] at hx
  rw [hp]
  simp only [List.mem_append, List.mem_cons] at hx ⊢
  tauto

/-- A worker that is given something else to do than to sleep adds no sleeper. -/
theorem asleep_of_setActivity {w : Nat} {y : Worker (Payload α) π} (hw : p.workers[w]? = some y)
    {b : Activity (Payload α) π} {x : Worker (Payload α) π} (hx : x ∈ (p.setActivity w b).workers)
    (hsleeps : x.activity = .asleep) (hb : b ≠ .asleep) : x ∈ p.workers := by
  rcases mem_workers_setActivity hw hx with hx | rfl
  · exact hx
  · exact absurd hsleeps hb

/-! ## How jobs become ready -/

/-- If the end of a job frees nobody, then who is ready afterwards was ready before. -/
theorem exists_ready_of_complete {Q : Queue (Payload α) π} {id : JobId} {ok : Bool}
    {lane : Option Lane} {j : PendingJob (Payload α) π} (hfrees : frees Q id = false)
    (hj : j ∈ (Q.complete id ok).pending) (hready : Queue.isReady lane j = true) :
    ∃ k ∈ Q.pending, Queue.isReady lane k = true := by
  obtain ⟨k, hk, rfl⟩ := List.mem_map.mp hj
  obtain ⟨hkpending, hne⟩ := List.mem_filter.mp hk
  obtain ⟨hdeps, hlane⟩ := Queue.isReady_iff.mp hready
  have hall : ∀ d ∈ k.deps, d = id := by
    intro d hd
    have hd' := List.filter_eq_nil_iff.mp hdeps d hd
    simpa using hd'
  refine ⟨k, hkpending, Queue.isReady_iff.mpr ⟨?_, hlane⟩⟩
  -- a job that waited for this one alone would have been freed
  cases hkdeps : k.deps with
  | nil => rfl
  | cons d ds =>
      rw [hkdeps] at hall
      have hfreed : frees Q id = true := by
        refine List.any_eq_true.mpr ⟨k, hkpending, ?_⟩
        rw [hkdeps, hall d (List.mem_cons_self ..)]
        simp only [Bool.and_eq_true, List.contains_cons, BEq.rfl, Bool.true_or, List.all_eq_true,
          decide_eq_true_eq]
        refine ⟨⟨by simpa using hne, trivial⟩, ?_⟩
        intro d' hd'
        exact (List.mem_cons.mp hd').elim (fun h => h) fun h => hall d' (List.mem_cons_of_mem _ h)
      rw [hfrees] at hfreed
      cases hfreed

/-- Every step keeps sleepers without work, or wakes them. -/
theorem Step.alert (hs : p.Step a q) (h : p.Alert) : q.Alert := by
  cases hs with
  | submit _ _ _ => exact fun x hx hsleeps => absurd hsleeps (not_asleep_wakeAll hx)
  | refuse _ _ => exact h
  | @take w lane job before after hw hr hpending _ _ =>
      intro x hx hsleeps
      have hold := asleep_of_setActivity
        (p := { p with queue := { p.queue with pending := before ++ after } }) hw hx hsleeps nofun
      refine ⟨hr, fun j hj => (h x hold hsleeps).2 j ?_⟩
      rw [hpending]
      exact ((List.sublist_cons_self job after).append_left before).subset hj
  | @sleep w lane hw hr hidle =>
      intro x hx hsleeps
      rcases mem_workers_setActivity hw hx with hx | rfl
      · exact h x hx hsleeps
      · exact ⟨hr, hidle⟩
  | leave hw _ => exact fun x hx hsleeps => h x (asleep_of_setActivity hw hx hsleeps nofun) hsleeps
  | @answer w lane job ok hw =>
      intro x hx hsleeps
      rw [queue_answer]
      refine h x ?_ hsleeps
      unfold Pool.answer at hx
      cases hpayload : job.payload with
      | work _ =>
          rw [hpayload] at hx
          exact asleep_of_setActivity hw hx hsleeps nofun
      | barrier =>
          rw [hpayload] at hx
          have hw' : (p.release job.id (.completed job.sound)).workers[w]? =
              some ⟨lane, .running job⟩ := by rw [workers_release, hw]
          have hold := asleep_of_setActivity hw' hx hsleeps nofun
          rwa [workers_release] at hold
  | @report w lane job ok hw =>
      intro x hx hsleeps
      rw [(done_fields p w job ok).1]
      unfold Pool.done at hx
      split at hx
      · exact absurd hsleeps (not_asleep_wakeAll hx)
      · next hfrees =>
          have hold := asleep_of_setActivity
            (p := { p with queue := p.queue.complete job.id (job.sound && ok) }) hw hx hsleeps nofun
          refine ⟨(h x hold hsleeps).1, fun j hj => ?_⟩
          rw [← Bool.not_eq_true]
          intro hready
          obtain ⟨k, hk, hkready⟩ :=
            exists_ready_of_complete (Bool.not_eq_true _ ▸ hfrees) hj hready
          rw [(h x hold hsleeps).2 k hk] at hkready
          cases hkready
  | wake hw => exact fun x hx hsleeps => h x (asleep_of_setActivity hw hx hsleeps nofun) hsleeps
  | close => exact fun x hx hsleeps => absurd hsleeps (not_asleep_wakeAll hx)
  | join _ _ => exact h
  | clear => exact fun x hx hsleeps => ⟨(h x hx hsleeps).1, nofun⟩
  | @abandon call job jobs _ =>
      obtain ⟨hqueue, hworkers, _⟩ :=
        abandonJob_fields { p with shutdowns := p.shutdowns.set call (.abandoning jobs) } job
      intro x hx hsleeps
      rw [hqueue]
      rw [hworkers] at hx
      exact h x hx hsleeps

theorem Leads.alert (h : pool.Leads as p) : p.Alert := by
  refine h.invariant (I := Alert) ?_ fun _ hs => hs.alert
  intro ls _ x hx hsleeps
  obtain ⟨lane, _, rfl⟩ := List.mem_map.mp hx
  cases hsleeps

/-- **No wake-up is lost.** Clients submit jobs, stop and clear a pool, and its workers look for
work, run and report, in any order and with any number of spurious wake-ups. Nobody is asleep on a
stopped queue, and nobody is asleep while a job is pending that waits for nothing and is of a lane
that the sleeper serves. -/
theorem Leads.no_lost_wakeup (h : pool.Leads as p) :
    (p.queue.running = false → ∀ x ∈ p.workers, x.activity ≠ .asleep) ∧
      ∀ x ∈ p.workers, x.activity = .asleep → ∀ j ∈ p.queue.pending, j.deps = [] →
        ¬ (x.lane = none ∨ x.lane = some j.lane) := by
  constructor
  · intro hstopped x hx hsleeps
    rw [(h.alert x hx hsleeps).1] at hstopped
    cases hstopped
  · intro x hx hsleeps j hj hfree hserves
    have hidle := (h.alert x hx hsleeps).2 j hj
    rw [Queue.isReady_iff.mpr ⟨hfree, hserves⟩] at hidle
    cases hidle

/-! ### A sleeper of the other lane

The job is for the dedicated lane. The worker of the shared lane looks, finds nothing and sleeps. -/

/-- A job for the dedicated lane, and the second worker looks for work. -/
def foreignLane : List (Action Unit Unit) :=
  [.enqueue [⟨⟨0⟩, [], .dedicated, ()⟩] (), .check 1]

theorem no_lost_wakeup_mixed : ∃ p : Pool Unit Unit, mixed.Leads foreignLane p ∧
    p.pendingIds = [⟨0⟩] ∧ (∃ x ∈ p.workers, x.activity = .asleep) ∧
    ∀ x ∈ p.workers, x.activity = .asleep → x.lane = some .shared := by
  have hp : mixed.Leads foreignLane _ :=
    ⟨⟨2, { threads := some 2, dedicatedLane := true }, rfl⟩, rfl⟩
  refine ⟨_, hp, by decide, ⟨⟨some .shared, .asleep⟩, ?_, rfl⟩, ?_⟩
  · exact List.mem_cons_of_mem _ (List.mem_cons_self ..)
  · intro x hx hsleeps
    have hlane := hp.no_lost_wakeup.2 x hx hsleeps ⟨⟨⟨0⟩, [], .dedicated, .work ()⟩, (), true⟩
      (List.mem_cons_self ..) rfl
    -- it serves a lane, and not the dedicated one
    match hx' : x.lane with
    | none => exact absurd (Or.inl hx') hlane
    | some .dedicated => exact absurd (Or.inr hx') hlane
    | some .shared => rfl

end RenderPlan.Pool
