/-
# RenderPlan.Proofs.Render.SerialOrder -- a render acts like its list, one task after the other

The jobs of a render run on several workers and end in many orders. Two entries in conflict are
connected by edges of the plan, so the later one begins only after the earlier one has ended,
whatever clients and workers do in between. What is left to chance is the order of entries that do not
conflict.

So if the effects of entries that do not conflict commute, the effects in the order of completion
amount to the effects in list order (`effect_eq_of_inversions`).
-/
import RenderPlan.Proofs.Hazard.Ancestry
import RenderPlan.Proofs.Queue.Batches
import RenderPlan.Render.Renderer

namespace RenderPlan

open Relation (TransGen)

/-! ## Reordering effects -/

section Reordering

variable {S : Type} {f : Nat → S → S}

/-- Effects in sequence. -/
def effect (f : Nat → S → S) (l : List Nat) (s : S) : S := l.foldl (fun s i => f i s) s

theorem effect_append (l l' : List Nat) (s : S) :
    effect f (l ++ l') s = effect f l' (effect f l s) :=
  List.foldl_append

/-- An effect that commutes with all of a sequence can come first. -/
theorem effect_comm {x : Nat} {l : List Nat}
    (h : ∀ y ∈ l, ∀ s, f x (f y s) = f y (f x s)) (s : S) :
    f x (effect f l s) = effect f l (f x s) := by
  induction l generalizing s with
  | nil => rfl
  | cons y l ih =>
      obtain ⟨hy, hl⟩ := List.forall_mem_cons.mp h
      calc f x (effect f l (f y s)) = effect f l (f x (f y s)) := ih hl (f y s)
        _ = effect f l (f y (f x s)) := by rw [hy s]

/-- **Only commuting effects are out of order.** A sequence amounts to the sorted one if every two
effects that stand the wrong way round commute. The induction is on the sorted sequence: its head
moves to the front, past entries that are all greater. -/
theorem effect_eq_of_inversions {l t : List Nat} (hperm : l.Perm t)
    (ht : t.Pairwise (· < ·))
    (hl : l.Pairwise fun y x => x < y → ∀ s, f x (f y s) = f y (f x s)) (s : S) :
    effect f l s = effect f t s := by
  induction t generalizing l s with
  | nil => rw [hperm.eq_nil]
  | cons x t ih =>
      obtain ⟨hx, ht⟩ := List.pairwise_cons.mp ht
      obtain ⟨before, after, rfl⟩ := List.append_of_mem (hperm.mem_iff.mpr (List.mem_cons_self ..))
      have hrest : (before ++ after).Perm t :=
        (List.perm_middle.symm.trans hperm).cons_inv
      -- all that stands before the smallest one stands the wrong way round
      have hcomm : ∀ y ∈ before, ∀ s, f x (f y s) = f y (f x s) := by
        intro y hy
        have hyt : y ∈ t := hrest.mem_iff.mp (List.mem_append_left _ hy)
        exact (List.pairwise_append.mp hl).2.2 y hy x (List.mem_cons_self ..) (hx y hyt)
      have hsub : (before ++ after).Sublist (before ++ x :: after) :=
        (List.sublist_cons_self x after).append_left before
      calc effect f (before ++ x :: after) s
          = effect f after (f x (effect f before s)) := effect_append before (x :: after) s
        _ = effect f after (effect f before (f x s)) := by rw [effect_comm hcomm]
        _ = effect f (before ++ after) (f x s) := (effect_append before after _).symm
        _ = effect f t (f x s) := ih hrest ht (hl.sublist hsub) _

end Reordering

namespace Prepared

open HazardPlan

variable {p : Prepared} {firstId : Nat} {i j k : Nat} {π : Type}

/-! ## The batch of a render -/

theorem jobId_injective (firstId : Nat) : Function.Injective (jobId firstId) := by
  intro i j h
  exact Nat.add_left_cancel (JobId.mk.inj h)

/-- The list was planned. -/
def IsPlanned (p : Prepared) : Prop := p.plan.Orders p.graph p.order

theorem mem_jobs {b : Job TaskId} :
    b ∈ p.jobs firstId ↔ ∃ i task, p.order[i]? = some task ∧ p.job firstId i task = b := by
  simp only [jobs, List.mem_iff_getElem?, List.getElem?_mapIdx, Option.map_eq_some_iff]

theorem mem_ids_jobs {id : JobId} :
    id ∈ (p.jobs firstId).map Job.id ↔ ∃ i, i < p.order.length ∧ jobId firstId i = id := by
  simp only [List.mem_map, mem_jobs]
  constructor
  · rintro ⟨_, ⟨i, task, htask, rfl⟩, rfl⟩
    exact ⟨i, (List.getElem?_eq_some_iff.mp htask).1, rfl⟩
  · rintro ⟨i, hi, rfl⟩
    exact ⟨_, ⟨i, _, List.getElem?_eq_getElem hi, rfl⟩, rfl⟩

/-- Entries in conflict are entries. -/
theorem exists_entries {g : Graph} {list : List TaskId} (h : g.ConflictsBefore list k i) :
    ∃ task task', list[k]? = some task ∧ list[i]? = some task' := by
  obtain ⟨_, a, b, ha, hb, _⟩ := h
  obtain ⟨task, htask, _⟩ := Option.bind_eq_some_iff.mp ha
  obtain ⟨task', htask', _⟩ := Option.bind_eq_some_iff.mp hb
  exact ⟨task, task', htask, htask'⟩

/-- The edges of the plan are the dependencies of the jobs. -/
theorem dependsIn_of_waitsFor (hp : p.IsPlanned) (h : p.plan.WaitsFor i k) :
    DependsIn (p.jobs firstId) (jobId firstId i) (jobId firstId k) := by
  obtain ⟨_, task, _, htask⟩ := exists_entries (hp.conflict_of_edge h)
  exact ⟨p.job firstId i task, mem_jobs.mpr ⟨i, task, htask, rfl⟩, rfl, List.mem_map_of_mem h⟩

/-- A chain of dependencies leads from an entry to every earlier one in conflict. -/
theorem transGen_of_conflictsBefore (hp : p.IsPlanned)
    (h : p.graph.ConflictsBefore p.order k i) :
    TransGen (DependsIn (p.jobs firstId)) (jobId firstId i) (jobId firstId k) :=
  (hp.reaches_conflict h).lift (jobId firstId) fun _ _ => dependsIn_of_waitsFor hp

theorem closed_jobs (hp : p.IsPlanned) : Closed (p.jobs firstId) := by
  intro b hb d hd
  obtain ⟨i, task, _, rfl⟩ := mem_jobs.mp hb
  obtain ⟨k, hk, rfl⟩ := List.mem_map.mp hd
  obtain ⟨task', _, htask', _⟩ := exists_entries (hp.conflict_of_edge (i := i) hk)
  exact mem_ids_jobs.mpr ⟨k, (List.getElem?_eq_some_iff.mp htask').1, rfl⟩

/-! ## The order of completion -/

/-- The position of the entry whose job this is. -/
def position? (p : Prepared) (firstId : Nat) (id : JobId) : Option Nat :=
  (List.range p.order.length).find? fun i => jobId firstId i = id

theorem position?_eq_some {id : JobId} :
    p.position? firstId id = some i ↔ i < p.order.length ∧ jobId firstId i = id := by
  constructor
  · intro h
    refine ⟨List.mem_range.mp (List.mem_of_find?_eq_some h), ?_⟩
    simpa using List.find?_some h
  · rintro ⟨hi, rfl⟩
    cases hfind : p.position? firstId (jobId firstId i) with
    | none =>
        have hnone := List.find?_eq_none.mp hfind i (List.mem_range.mpr hi)
        simp at hnone
    | some k =>
        have hk : jobId firstId k = jobId firstId i := by simpa using List.find?_some hfind
        rw [jobId_injective firstId hk]

/-- The entries in the order in which their jobs ended. -/
def completions (p : Prepared) (firstId : Nat) (q : Pool TaskId π) : List Nat :=
  (endedIds q.history).reverse.filterMap (p.position? firstId)

theorem mem_completions {q : Pool TaskId π} :
    i ∈ p.completions firstId q ↔
      i < p.order.length ∧ jobId firstId i ∈ endedIds q.history := by
  simp only [completions, List.mem_filterMap, List.mem_reverse, position?_eq_some]
  constructor
  · rintro ⟨_, hended, hi, rfl⟩
    exact ⟨hi, hended⟩
  · rintro ⟨hi, hended⟩
    exact ⟨_, hended, hi, rfl⟩

theorem nodup_completions {q : Pool TaskId π} (h : (endedIds q.history).Nodup) :
    (p.completions firstId q).Nodup := by
  refine List.Nodup.filterMap ?_ (List.nodup_reverse.mpr h)
  intro id id' i hi hi'
  rw [← (position?_eq_some.mp hi).2, ← (position?_eq_some.mp hi').2]

/-! ## Renders in a pool -/

/-- The render acts like its list: entries in conflict run one after the other in list order, and when
the batch is answered, effects that commute where entries do not conflict amount to the effects in
list order. -/
structure RunsSerially (p : Prepared) (firstId : Nat) (q : Pool TaskId π) : Prop where
  /-- The later of two entries in conflict begins when the earlier one has ended. -/
  ordered : ∀ k i, p.graph.ConflictsBefore p.order k i → ∀ w job earlier,
    .began w job :: earlier <:+ q.history → job.id = jobId firstId i →
      jobId firstId k ∈ endedIds earlier
  /-- Workers never have both in hand. -/
  apart : ∀ k i, p.graph.ConflictsBefore p.order k i →
    ¬ (jobId firstId k ∈ q.heldIds ∧ jobId firstId i ∈ q.heldIds)
  serial : ∀ ok, q.outcome? (p.barrier firstId) = some (.completed ok) →
    ∀ (S : Type) (f : Nat → S → S),
      (∀ k i, k < i → i < p.order.length → ¬ p.graph.ConflictsBefore p.order k i →
        ∀ s, f k (f i s) = f i (f k s)) →
      ∀ s, effect f (p.completions firstId q) s = effect f (List.range p.order.length) s

variable {pool q : Pool TaskId π} {before after : List (Action TaskId π)} {params : π}

theorem runsSerially (hp : p.IsPlanned)
    (h : pool.Reached
      (before ++ .runBatch (p.jobs firstId) params (p.barrier firstId) :: after) q) :
    p.RunsSerially firstId q := by
  have hclosed : Closed (p.jobs firstId) := closed_jobs hp
  have H := h.honours hclosed
  have hordered : ∀ k i, p.graph.ConflictsBefore p.order k i → ∀ w job earlier,
      .began w job :: earlier <:+ q.history → job.id = jobId firstId i →
        jobId firstId k ∈ endedIds earlier := by
    intro k i hconf w job earlier hs hid
    exact H.ended_of_transGen hs (hid ▸ transGen_of_conflictsBefore hp hconf)
  refine ⟨hordered, ?_, ?_⟩
  · rintro k i hconf ⟨hk, hi⟩
    obtain ⟨job, hjob, hid⟩ := List.mem_map.mp hi
    obtain ⟨w, hbegan⟩ := h.coherent.held_began job hjob
    obtain ⟨earlier, hs⟩ := exists_suffix_of_mem hbegan
    have hended := hordered k i hconf w job earlier hs hid
    have hse : earlier <:+ q.history := suffix_of_cons_suffix hs
    exact List.disjoint_of_nodup_append h.nodup_ids (List.mem_append_right _ hk)
      ((endedIds_suffix hse).subset hended)
  · intro ok hout S f hcomm s
    obtain ⟨hended, _⟩ := h.completed_iff hclosed hout
    refine effect_eq_of_inversions ?_ List.pairwise_lt_range ?_ s
    · -- every entry has ended, once
      apply (List.perm_ext_iff_of_nodup (nodup_completions H.nodup) List.nodup_range).mpr
      intro i
      rw [mem_completions, List.mem_range, and_iff_left_iff_imp]
      intro hi
      obtain ⟨b, hb, hid⟩ := List.mem_map.mp (mem_ids_jobs.mpr ⟨i, hi, rfl⟩)
      exact hid ▸ hended b hb
    · -- two entries that ended the wrong way round do not conflict
      refine List.pairwise_filterMap.mpr (List.pairwise_reverse.mpr ?_)
      apply H.pairwise_endedIds.imp
      intro late early hfree i hearly k hlate hlt s
      obtain ⟨hi, rfl⟩ := position?_eq_some.mp hearly
      obtain ⟨_, rfl⟩ := position?_eq_some.mp hlate
      exact hcomm k i hlt hi (fun hconf => hfree (transGen_of_conflictsBefore hp hconf)) s

/-- A list whose entries and sub-tasks exist can be planned. -/
theorem exists_planned {g : Graph} {list : List (Option TaskId)} (stats : OptimizeStats)
    (hlist : g.Resolves (list.filterMap id)) :
    ∃ p, Renderer.planned g list stats = .ok p ∧ p.graph = g ∧ p.order = list.filterMap id ∧
      p.IsPlanned := by
  obtain ⟨plan, hplan, horders⟩ := exists_orders hlist
  refine ⟨⟨g, list.filterMap id, plan, stats⟩, ?_, rfl, rfl, horders⟩
  simp only [Renderer.planned, hplan]
  rfl

/-- **A render acts like its list.** A list whose entries and sub-tasks exist can be planned. Submit
its jobs and their barrier to any pool, at any time and among whatever else clients and workers do:
entries in conflict never run at the same time, and run in list order. When the batch is answered,
the effects of the entries in the order of their completion are the effects in list order, provided
that effects of entries that do not conflict commute. -/
theorem exists_serial_plan {g : Graph} {list : List (Option TaskId)} (stats : OptimizeStats)
    (hlist : g.Resolves (list.filterMap id)) :
    ∃ p, Renderer.planned g list stats = .ok p ∧ p.graph = g ∧ p.order = list.filterMap id ∧
      ∀ (π : Type) (firstId : Nat) (pool q : Pool TaskId π) (before after : List (Action TaskId π))
        (params : π),
        pool.Reached (before ++ .runBatch (p.jobs firstId) params (p.barrier firstId) :: after) q →
          p.RunsSerially firstId q := by
  obtain ⟨p, hplanned, hgraph, horder, hp⟩ := exists_planned stats hlist
  refine ⟨p, hplanned, hgraph, horder, ?_⟩
  intro π firstId pool q before after params h
  exact runsSerially hp h

/-! ### Two writers side by side and one across both

The two first tasks run at once, and the second one ends first. The third one waits for both. -/

/-- The three tasks, planned. -/
def strips : Prepared := ⟨stripGraph, [⟨0⟩, ⟨1⟩, ⟨2⟩], ⟨[[], [], [1, 0]]⟩, ⟨0, 0⟩⟩

/-- Two workers, one job each, and then the third job and the barrier. -/
def stripSchedule : List (Action TaskId Unit) :=
  [.runBatch (strips.jobs 0) () (strips.barrier 0), .check 0, .check 1, .run 1 true, .report 1,
    .run 0 true, .report 0, .check 0, .run 0 true, .report 0, .check 1, .run 1 true]

theorem exists_serial_plan_strips :
    Renderer.planned stripGraph [some ⟨0⟩, none, some ⟨1⟩, some ⟨2⟩] ⟨0, 0⟩ = .ok strips ∧
      ∃ q, Pool.pair.Reached stripSchedule q ∧ strips.completions 0 q = [1, 0, 2] ∧
        q.outcome? (strips.barrier 0) = some (.completed true) ∧ strips.RunsSerially 0 q := by
  have hresolves : stripGraph.Resolves [⟨0⟩, ⟨1⟩, ⟨2⟩] := by decide
  obtain ⟨p, hplanned, _, _, hserial⟩ :=
    @exists_serial_plan stripGraph [some ⟨0⟩, none, some ⟨1⟩, some ⟨2⟩] ⟨0, 0⟩ hresolves
  have hplan : ofList stripGraph [⟨0⟩, ⟨1⟩, ⟨2⟩] = .ok ⟨[[], [], [1, 0]]⟩ := by decide +kernel
  have hstrips :
      Renderer.planned stripGraph [some ⟨0⟩, none, some ⟨1⟩, some ⟨2⟩] ⟨0, 0⟩ = .ok strips := by
    change (ofList stripGraph [⟨0⟩, ⟨1⟩, ⟨2⟩]).bind _ = _
    rw [hplan]
    rfl
  obtain rfl : p = strips := Except.ok.inj (hplanned.symm.trans hstrips)
  have hq : Pool.pair.Reached stripSchedule _ := ⟨Pool.exists_create_pair, by decide, rfl⟩
  exact ⟨hstrips, _, hq, rfl, rfl, hserial Unit 0 _ _ [] _ () hq⟩

end Prepared

end RenderPlan
