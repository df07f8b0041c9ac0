/-
# RenderPlan.Proofs.Queue.Progress -- a pool never waits for nothing

A pending job waits for jobs that are pending or in a worker's hand, never for one that is gone:
what a submission does not know it does not wait for, and what ends is taken out of all dependency
sets (`Orderly.known`). And nobody waits in a circle. A job that is accepted waits for jobs that
were there before it or came with it; the jobs that were there wait for nothing new, so a circle
could only be one inside the submission (`Orderly.grounded`).

So if there are pending jobs and no worker has a job in hand, some pending job waits for nothing,
and as every pool that is created has a worker for each lane, one of the workers may take it
(`Reached.exists_ready`).
-/
import RenderPlan.Proofs.Queue.Batches
import Mathlib.Data.Set.Finite.Basic
import Mathlib.Order.WellFounded

namespace RenderPlan

open Relation (TransGen)

variable {α β π : Type}

/-! ## Circles of dependencies -/

/-- No job of the batch waits for itself, directly or through others. -/
def Acyclic (batch : List (Job β)) : Prop := ∀ i, ¬ TransGen (DependsIn batch) i i

/-- Where dependencies lead to smaller numbers there are no circles. -/
theorem acyclic_of_rank {batch : List (Job β)} (rank : JobId → Nat)
    (hrank : ∀ j ∈ batch, ∀ d ∈ j.deps, rank d < rank j.id) : Acyclic batch := by
  intro i hi
  have hlt : ∀ {k d}, TransGen (DependsIn batch) k d → rank d < rank k := by
    intro k d hkd
    induction hkd with
    | single h =>
        obtain ⟨j, hj, rfl, hd⟩ := h
        exact hrank j hj _ hd
    | tail _ h ih =>
        obtain ⟨j, hj, rfl, hd⟩ := h
        have hstep := hrank j hj _ hd
        omega
  exact Nat.lt_irrefl _ (hlt hi)

/-- In a batch without circles every chain of dependencies comes to an end. -/
theorem Acyclic.wellFounded {batch : List (Job β)} (h : Acyclic batch) :
    WellFounded fun d i => DependsIn batch i d := by
  -- only jobs of the batch have dependencies in it, and these are finitely many
  let Inside := { i : JobId // i ∈ batch.map Job.id }
  have : Finite Inside := List.finite_toSet _
  let below : Inside → Inside → Prop := fun d i => TransGen (DependsIn batch) i.1 d.1
  have : IsTrans Inside below := ⟨fun _ _ _ hab hbc => hbc.trans hab⟩
  have : Std.Irrefl below := ⟨fun i => h i.1⟩
  have hinside : ∀ i : Inside, Acc (fun d i => DependsIn batch i d) i.1 := by
    intro i
    induction i using (Finite.wellFounded_of_trans_of_irrefl below).induction with
    | _ i ih =>
        constructor
        intro d hd
        by_cases hmem : d ∈ batch.map Job.id
        · exact ih ⟨d, hmem⟩ (.single hd)
        · constructor
          rintro _ ⟨j, hj, rfl, _⟩
          exact absurd (List.mem_map_of_mem hj) hmem
  constructor
  intro i
  constructor
  rintro d ⟨j, hj, rfl, hd⟩
  exact (hinside ⟨j.id, List.mem_map_of_mem hj⟩).inv ⟨j, hj, rfl, hd⟩

namespace Pool

variable {p q pool : Pool α π} {a : Action α π} {as : List (Action α π)}

/-- A barrier closes no circle, if it is new and nobody in the batch waits for it. -/
theorem acyclic_runBatch {batch : List (Job α)} {barrier : JobId} (h : Acyclic batch)
    (hnew : barrier ∉ batch.map Job.id) (hbarrier : ∀ j ∈ batch, barrier ∉ j.deps) :
    Acyclic (batch.map workJob ++ [barrierJob barrier batch]) := by
  have hlink : ∀ {i d}, DependsIn (batch.map workJob ++ [barrierJob barrier batch]) i d →
      d ≠ barrier ∧ (i ≠ barrier → DependsIn batch i d) := by
    rintro _ d ⟨j, hj, rfl, hd⟩
    rcases List.mem_append.mp hj with hj | hj
    · obtain ⟨k, hk, rfl⟩ := List.mem_map.mp hj
      have hne : d ≠ barrier := by
        rintro rfl
        exact hbarrier k hk hd
      exact ⟨hne, fun _ => ⟨k, hk, rfl, hd⟩⟩
    · obtain rfl := List.mem_singleton.mp hj
      have hne : d ≠ barrier := by
        rintro rfl
        exact hnew hd
      exact ⟨hne, fun hi => absurd rfl hi⟩
  -- behind its first link a chain stays in the batch
  have hchain : ∀ {i d}, TransGen (DependsIn (batch.map workJob ++ [barrierJob barrier batch])) i d →
      d ≠ barrier ∧ (i ≠ barrier → TransGen (DependsIn batch) i d) := by
    intro i d hid
    induction hid with
    | single hd => exact ⟨(hlink hd).1, fun hi => .single ((hlink hd).2 hi)⟩
    | tail _ hd ih => exact ⟨(hlink hd).1, fun hi => (ih.2 hi).tail ((hlink hd).2 ih.1)⟩
  intro i hi
  obtain ⟨hne, hinside⟩ := hchain hi
  exact h i (hinside hne)

/-! ## Who waits for whom -/

/-- A pending job of the identity `i` waits for `d`. -/
def Waits (p : Pool α π) (i d : JobId) : Prop := ∃ j ∈ p.queue.pending, j.id = i ∧ d ∈ j.deps

/-- The job is pending, or in a worker's hand. -/
def Present (p : Pool α π) (d : JobId) : Prop := d ∈ p.pendingIds ∨ d ∈ p.heldIds

theorem Present.mem_ids {d : JobId} (h : p.Present d) : d ∈ p.ids :=
  List.mem_append_left _ (List.mem_append.mpr h)

/-- Nobody waits for a job that is gone, and nobody waits in a circle. -/
structure Orderly (p : Pool α π) : Prop where
  known : ∀ i d, p.Waits i d → p.Present d
  grounded : WellFounded fun d i => p.Waits i d

/-- Who waits has waited before, or came just now and waits for a pending job. -/
theorem Change.waits (h : p.Change a q) {i d : JobId} (hw : q.Waits i d) :
    p.Waits i d ∨ (DependsIn a.jobs i d ∧ d ∈ q.pendingIds) := by
  obtain ⟨j, hj, rfl, hd⟩ := hw
  cases h with
  | quiet hpending => exact Or.inl ⟨j, hpending ▸ hj, rfl, hd⟩
  | accepted ha hpending =>
      rw [hpending, List.mem_append] at hj
      rcases hj with hj | hj
      · exact Or.inl ⟨j, hj, rfl, hd⟩
      · obtain ⟨k, hk, rfl⟩ := List.mem_map.mp hj
        obtain ⟨hdeps, hknown⟩ := mem_stamp_deps.mp hd
        rw [Action.jobs_of_submission? ha, pendingIds, hpending, List.map_append, map_id_stamp]
        exact Or.inr ⟨⟨k, hk, rfl, hdeps⟩, List.mem_append.mpr hknown⟩
  | began _ hpending hleft =>
      refine Or.inl ⟨j, ?_, rfl, hd⟩
      rw [hleft] at hj
      rw [hpending]
      simp only [List.mem_append, List.mem_cons] at hj ⊢
      exact hj.imp_right Or.inr
  | ended _ hpending =>
      rw [hpending, Queue.complete] at hj
      obtain ⟨k, hk, rfl⟩ := List.mem_map.mp hj
      exact Or.inl ⟨k, (List.mem_filter.mp hk).1, rfl, (List.mem_filter.mp hd).1⟩
  | cleared hpending =>
      rw [hpending] at hj
      cases hj

/-- A job that somebody still waits for has not gone away. -/
theorem Change.present (h : p.Change a q) {i d : JobId} (hd : p.Present d) (hw : q.Waits i d) :
    q.Present d := by
  unfold Present at hd ⊢
  cases h with
  | quiet hpending hheld =>
      rw [pendingIds, hpending]
      exact hd.imp_right (hheld.map _).mem_iff.mpr
  | accepted _ hpending hheld =>
      rw [pendingIds, heldIds, hpending, hheld, List.map_append, List.mem_append]
      exact hd.imp_left Or.inl
  | @began w job before after _ hpending hleft hheld =>
      -- the job that the worker takes is still there
      have hheldIds : d ∈ q.heldIds ↔ d = job.id ∨ d ∈ p.heldIds := by
        rw [heldIds, (hheld.map _).mem_iff, List.map_cons, List.mem_cons]
        rfl
      rw [hheldIds, pendingIds, hleft]
      simp only [pendingIds, hpending, List.map_append, List.map_cons, List.mem_append,
        List.mem_cons] at hd ⊢
      tauto
  | @ended w job answer hheld hpending =>
      -- nobody waits for the job that ended
      have hne : d ≠ job.id := by
        obtain ⟨j, hj, _, hdeps⟩ := hw
        rw [hpending, Queue.complete] at hj
        obtain ⟨k, _, rfl⟩ := List.mem_map.mp hj
        exact of_decide_eq_true (List.mem_filter.mp hdeps).2
      rcases hd with hd | hd
      · obtain ⟨k, hk, rfl⟩ := List.mem_map.mp hd
        rw [pendingIds, hpending, map_id_complete]
        exact Or.inl (List.mem_map_of_mem (List.mem_filter.mpr ⟨hk, decide_eq_true hne⟩))
      · rw [heldIds, (hheld.map _).mem_iff, List.map_cons, List.mem_cons] at hd
        exact Or.inr (hd.resolve_left hne)
  | cleared hpending =>
      obtain ⟨j, hj, _⟩ := hw
      rw [hpending] at hj
      cases hj

theorem Change.known (h : p.Change a q) (hp : p.Orderly) : ∀ i d, q.Waits i d → q.Present d := by
  intro i d hd
  rcases h.waits hd with hbefore | ⟨_, hpending⟩
  · exact h.present (hp.known i d hbefore) hd
  · exact Or.inl hpending

theorem Change.grounded (h : p.Change a q) (hnodup : (p.ids ++ a.ids).Nodup)
    (hacyclic : Acyclic a.jobs) (hp : p.Orderly) : WellFounded fun d i => q.Waits i d := by
  -- what was there before waits for nothing new
  have hold : ∀ i, i ∈ p.ids → Acc (fun d i => q.Waits i d) i := by
    intro i
    induction i using hp.grounded.induction with
    | _ i ih =>
        intro hi
        constructor
        intro d hd
        rcases h.waits hd with hbefore | ⟨⟨j, hj, rfl, _⟩, _⟩
        · exact ih d hbefore (hp.known i d hbefore).mem_ids
        · exact absurd (List.mem_map_of_mem hj) (List.disjoint_of_nodup_append hnodup hi)
  -- what came just now waits for that, or for what came with it
  constructor
  intro i
  induction i using hacyclic.wellFounded.induction with
  | _ i ih =>
      constructor
      intro d hd
      rcases h.waits hd with hbefore | ⟨hinside, _⟩
      · exact hold d (hp.known i d hbefore).mem_ids
      · exact ih d hinside

theorem Step.orderly (hs : p.Step a q) (hnodup : (p.ids ++ a.ids).Nodup)
    (hacyclic : Acyclic a.jobs) (hp : p.Orderly) : q.Orderly where
  known := hs.change.known hp
  grounded := hs.change.grounded hnodup hacyclic hp

theorem Reached.orderly (h : pool.Reached as p) (hacyclic : ∀ a ∈ as, Acyclic a.jobs) :
    p.Orderly := by
  refine h.invariant (I := Orderly) ?_ ?_
  · intro ls _
    refine ⟨?_, ⟨fun i => ⟨i, ?_⟩⟩⟩
    · rintro i d ⟨j, hj, _⟩
      cases hj
    · rintro d ⟨j, hj, _⟩
      cases hj
  · intro r a s ha hnodup hs hr
    exact hs.orderly hnodup (hacyclic a ha) hr

/-- Some pending job waits for nothing, unless a worker has a job in hand. -/
theorem Orderly.exists_free (h : p.Orderly) (hpending : p.queue.pending ≠ []) (hheld : p.held = []) :
    ∃ j ∈ p.queue.pending, j.deps = [] := by
  obtain ⟨first, hfirst⟩ := List.exists_mem_of_ne_nil _ hpending
  obtain ⟨i, hi, hlast⟩ := h.grounded.has_min { i | i ∈ p.pendingIds }
    ⟨first.id, mem_pendingIds_of_mem hfirst⟩
  obtain ⟨j, hj, rfl⟩ := List.mem_map.mp hi
  refine ⟨j, hj, List.eq_nil_iff_forall_not_mem.mpr ?_⟩
  intro d hd
  rcases h.known j.id d ⟨j, hj, rfl, hd⟩ with hmem | hmem
  · exact hlast d hmem ⟨j, hj, rfl, hd⟩
  · rw [heldIds, hheld] at hmem
    cases hmem

/-! ## Who may take it -/

/-- Every lane has a worker. -/
def Serves (p : Pool α π) : Prop :=
  ∀ lane, ∃ l ∈ p.workers.map Worker.lane, l = none ∨ l = some lane

theorem serves_of_create {available : Nat} {o : QueueOptions} (h : create available o = .ok p) :
    p.Serves := by
  obtain ⟨count, hcount, rfl⟩ := exists_count_of_create h
  have hlanes : (ofLanes (lanes o.dedicatedLane count) : Pool α π).workers.map Worker.lane =
      lanes o.dedicatedLane count := by
    simp [ofLanes, Function.comp_def]
  intro lane
  rw [hlanes]
  cases hdedicated : o.dedicatedLane with
  | false =>
      -- the first worker serves both lanes
      refine ⟨none, ?_, Or.inl rfl⟩
      exact List.mem_map.mpr ⟨0, List.mem_range.mpr (by omega), rfl⟩
  | true =>
      -- the first worker serves the dedicated lane, and the second one the other
      refine ⟨some lane, ?_, Or.inr rfl⟩
      cases lane with
      | dedicated => exact List.mem_map.mpr ⟨0, List.mem_range.mpr (by omega), rfl⟩
      | shared => exact List.mem_map.mpr ⟨1, List.mem_range.mpr (by omega), rfl⟩

theorem Reached.serves (h : pool.Reached as p) : p.Serves := by
  obtain ⟨available, o, hcreate⟩ := h.created
  refine run_invariant (I := Serves) h.fresh h.run ?_ (serves_of_create hcreate)
  intro r a s _ _ hs hr
  rw [Serves, hs.map_lane]
  exact hr

/-- **No deadlock.** Clients submit batches without circles to a pool, in any order of their calls
and of what the workers do; jobs may depend on those of other batches. Whoever is waited for is
pending or in a worker's hand. And where jobs are pending and no worker has one in hand, one of the
jobs waits for nothing and a worker of the pool serves its lane; while the queue runs, some steps of
this worker alone begin the job. -/
theorem Reached.exists_ready (h : pool.Reached as p) (hacyclic : ∀ a ∈ as, Acyclic a.jobs) :
    (∀ j ∈ p.queue.pending, ∀ d ∈ j.deps, d ∈ p.pendingIds ∨ d ∈ p.heldIds) ∧
      (p.queue.pending ≠ [] → p.held = [] →
        ∃ j ∈ p.queue.pending, j.deps = [] ∧ ∃ w x, p.workers[w]? = some x ∧
          Queue.isReady x.lane j = true ∧
          (p.queue.running = true → ∃ bs q earlier, (∀ b ∈ bs, b.IsOf w) ∧ p.run? bs = some q ∧
            q.history = .began w j :: earlier)) := by
  have horderly := h.orderly hacyclic
  refine ⟨fun j hj d hd => horderly.known j.id d ⟨j, hj, rfl, hd⟩, ?_⟩
  intro hpending hheld
  obtain ⟨j, hj, hfree⟩ := horderly.exists_free hpending hheld
  obtain ⟨_, hlane, hserves⟩ := h.serves j.lane
  obtain ⟨x, hx, rfl⟩ := List.mem_map.mp hlane
  obtain ⟨w, hw⟩ := List.getElem?_of_mem hx
  have hready : Queue.isReady x.lane j = true := Queue.isReady_iff.mpr ⟨hfree, hserves⟩
  refine ⟨j, hj, hfree, w, x, hw, hready, ?_⟩
  intro hr
  exact exists_run_began h.nodup_ids hr hw (h.staffed.present hr x hx) hj hready

/-! ### A chain through two submissions

The pool has a worker for each lane. A batch depends on a job that was submitted before it; that job
has ended, and now the job of the batch and its barrier are left. -/

/-- A worker for the dedicated lane and one for the shared lane. -/
def mixed : Pool α π := ofLanes [some .dedicated, some .shared]

/-- A job, a batch that depends on it, and the second worker's work on the job. -/
def chained : List (Action Unit Unit) :=
  [.enqueue [unitJob 0 none] (), .runBatch [unitJob 1 (some 0)] () ⟨2⟩, .check 1, .check 0,
    .run 1 true, .report 1]

theorem exists_ready_chained : ∃ p : Pool Unit Unit, mixed.Reached chained p ∧
    p.pendingIds = [⟨1⟩, ⟨2⟩] ∧ p.heldIds = [] ∧ ∃ j ∈ p.queue.pending, j.deps = [] ∧
      ∃ x ∈ p.workers, Queue.isReady x.lane j = true := by
  have hp : mixed.Reached chained _ :=
    ⟨⟨2, { threads := some 2, dedicatedLane := true }, rfl⟩, by decide, rfl⟩
  have hacyclic : ∀ a ∈ chained, Acyclic a.jobs := by
    have hfirst : Acyclic ([unitJob 0 none].map workJob) :=
      acyclic_of_rank JobId.index (by decide)
    have hbatch : Acyclic [unitJob 1 (some 0)] := acyclic_of_rank JobId.index (by decide)
    have hbarrier : ∀ j ∈ [unitJob 1 (some 0)], (⟨2⟩ : JobId) ∉ j.deps := by decide
    have hnone : Acyclic ([] : List (Job (Payload Unit))) := acyclic_of_rank JobId.index nofun
    simp only [chained, List.forall_mem_cons]
    exact ⟨hfirst, acyclic_runBatch hbatch (by decide) hbarrier, hnone, hnone, hnone, hnone, nofun⟩
  obtain ⟨-, hready⟩ := hp.exists_ready hacyclic
  obtain ⟨j, hj, hfree, w, x, hw, hx, -⟩ := hready (by decide) (by decide)
  exact ⟨_, hp, by decide, by decide, j, hj, hfree, x, List.mem_of_getElem? hw, hx⟩

end Pool

end RenderPlan
