/-
# RenderPlan.Proofs.Render.Failures -- who is told of a failure in a render

The plan leaves out edges that others imply, and the queue hands a failure on along edges only. Since
it hands on failures that it was handed, a failure comes to every entry that a chain of edges leads
to, and chains of edges lead where chains of conflicts lead. So an entry is told that something failed
exactly if a chain of conflicts leads to it from an entry that said no, whichever edges the plan has
and whatever order the workers take (`Prepared.tells`).

`Prepared.Ends` says that a batch is over: it was submitted to a pool at some time, among whatever
else clients and workers did, and its barrier has run. A run of a renderer ends its batch in one such
order (`Renderer.ends_run`).
-/
import RenderPlan.Proofs.Graph.Check
import RenderPlan.Proofs.Graph.Dump
import RenderPlan.Proofs.Optimize.Moves
import RenderPlan.Proofs.Queue.Pump
import RenderPlan.Proofs.Render.SerialOrder

namespace RenderPlan

open Relation (TransGen)

variable {σ π : Type}

namespace Prepared

variable {p : Prepared} {firstId : Nat} {params : π} {pool q : Pool TaskId π} {i : Nat}

/-! ## Chains of dependencies -/

/-- The dependencies of a job are the edges of its entry. -/
theorem dependsIn_iff (hp : p.IsPlanned) {d : JobId} :
    DependsIn (p.jobs firstId) (jobId firstId i) d ↔
      ∃ k, p.plan.WaitsFor i k ∧ jobId firstId k = d := by
  constructor
  · rintro ⟨j, hj, hid, hd⟩
    obtain ⟨i', task, -, rfl⟩ := mem_jobs.mp hj
    obtain rfl : i' = i := jobId_injective firstId hid
    exact List.mem_map.mp hd
  · rintro ⟨k, hk, rfl⟩
    exact dependsIn_of_waitsFor hp hk

/-- Chains of dependencies are chains of conflicts. -/
theorem transGen_dependsIn_iff (hp : p.IsPlanned) {d : JobId} :
    TransGen (DependsIn (p.jobs firstId)) (jobId firstId i) d ↔
      ∃ k, TransGen (p.graph.ConflictsBefore p.order) k i ∧ jobId firstId k = d := by
  simp only [← hp.transGen_waitsFor_iff]
  constructor
  · intro h
    induction h with
    | single hdep =>
        obtain ⟨k, hk, rfl⟩ := (dependsIn_iff hp).mp hdep
        exact ⟨k, .single hk, rfl⟩
    | tail _ hdep ih =>
        obtain ⟨k, hk, rfl⟩ := ih
        obtain ⟨l, hl, rfl⟩ := (dependsIn_iff hp).mp hdep
        exact ⟨l, hk.tail hl, rfl⟩
  · rintro ⟨k, hk, rfl⟩
    exact hk.lift (jobId firstId) fun _ _ => dependsIn_of_waitsFor hp

/-! ## The end of a batch -/

/-- The batch is over, with this answer: it was submitted to a pool at some time, among whatever else
clients and workers did, and its barrier has run. An empty batch is not submitted. -/
inductive Ends (p : Prepared) (firstId : Nat) (params : π) (pool q : Pool TaskId π) : Bool → Prop where
  | empty (h : p.order = []) : Ends p firstId params pool q true
  | answered {before after ok} (h : p.order ≠ [])
      (reached : pool.Reached
        (before ++ .runBatch (p.jobs firstId) params (p.barrier firstId) :: after) q)
      (outcome : q.outcome? (p.barrier firstId) = some (.completed ok)) :
      Ends p firstId params pool q ok

/-- The entry at a position said no, or gave up. -/
def Failed (firstId : Nat) (q : Pool TaskId π) (i : Nat) : Prop :=
  jobId firstId i ∈ brokenIds q.history

/-- The history of the pool has one run of the job, from its beginning to its report. -/
structure RunsOnce (q : Pool TaskId π) (id : JobId) (task : TaskId) (params : π) : Prop where
  begun : ∃ w job, .began w job ∈ q.history ∧ job.id = id ∧ job.payload = .work task ∧
    job.params = params
  count_begun : ((jobsBegun q.history).map fun job => job.id).count id = 1
  count_ended : (endedIds q.history).count id = 1

/-- What a report says is what the pool has seen. -/
structure Tells (p : Prepared) (firstId : Nat) (params : π) (q : Pool TaskId π)
    (report : RunReport) : Prop where
  /-- Every entry is run once, also one whose task stands in the list twice. -/
  once : ∀ i task, p.order[i]? = some task → RunsOnce q (jobId firstId i) task params
  /-- An entry is told of a failure exactly if a chain of conflicts leads to it from an entry that
  failed. -/
  told : ∀ i < p.order.length, ∀ w job, .began w job ∈ q.history → job.id = jobId firstId i →
    (job.sound = false ↔
      ∃ k, TransGen (p.graph.ConflictsBefore p.order) k i ∧ Failed firstId q k)
  success : report.success = true ↔ ∀ i < p.order.length, ¬ Failed firstId q i
  tasks : report.optimizedTasks = p.order.length
  edges : report.dependencyEdges = p.plan.edges

/-- In a reached pool, a job that has ended has begun once and ended once. -/
theorem count_eq_one {as : List (Action TaskId π)} (h : pool.Reached as q) {id : JobId}
    (hended : id ∈ endedIds q.history) :
    ((jobsBegun q.history).map fun job => job.id).count id = 1 ∧
      (endedIds q.history).count id = 1 := by
  have hone := List.nodup_iff_count_le_one.mp h.nodup_ids id
  have hpos := List.count_pos_iff.mpr hended
  have hbegun := (h.leads.perm_jobsBegun.map fun job => job.id).count_eq id
  rw [List.map_append, map_id_jobsEnded, List.count_append] at hbegun
  have hheld : (q.held.map fun job => job.id).count id = q.heldIds.count id := rfl
  rw [Pool.count_ids] at hone
  omega

theorem exists_job (firstId : Nat) (hi : i < p.order.length) :
    ∃ j ∈ p.jobs firstId, j.id = jobId firstId i :=
  List.mem_map.mp (mem_ids_jobs.mpr ⟨i, hi, rfl⟩)

section Answered

variable {before after : List (Action TaskId π)} {ok : Bool} {task : TaskId}
  (hp : p.IsPlanned)
  (h : pool.Reached (before ++ .runBatch (p.jobs firstId) params (p.barrier firstId) :: after) q)
  (hout : q.outcome? (p.barrier firstId) = some (.completed ok))

include hp h hout

theorem mem_endedIds_of_answered (hi : i < p.order.length) :
    jobId firstId i ∈ endedIds q.history := by
  obtain ⟨j, hj, hid⟩ := exists_job firstId hi
  exact hid ▸ (h.completed_iff (closed_jobs hp) hout).1 j hj

theorem runsOnce_of_answered (htask : p.order[i]? = some task) :
    RunsOnce q (jobId firstId i) task params := by
  have hi := (List.getElem?_eq_some_iff.mp htask).1
  have hended := mem_endedIds_of_answered hp h hout hi
  obtain ⟨-, job, -, w, earlier, -, hid, hbegan⟩ := (h.honours (closed_jobs hp)).exists_began hended
  have hbegan := hbegan.subset List.mem_cons_self
  obtain ⟨hpayload, hparams⟩ := h.began_fields rfl (j := Pool.workJob (p.job firstId i task))
    (List.mem_append_left _ (List.mem_map_of_mem (mem_jobs.mpr ⟨i, task, htask, rfl⟩))) hbegan hid
  obtain ⟨hbegun, hended⟩ := count_eq_one h hended
  exact ⟨⟨w, job, hbegan, hid, hpayload, hparams⟩, hbegun, hended⟩

omit hout in
theorem sound_eq_false_iff_failed {w : Nat} {job : PendingJob (Payload TaskId) π}
    (hi : i < p.order.length) (hbegan : .began w job ∈ q.history)
    (hid : job.id = jobId firstId i) :
    job.sound = false ↔
      ∃ k, TransGen (p.graph.ConflictsBefore p.order) k i ∧ Failed firstId q k := by
  have H := h.honours (closed_jobs hp)
  obtain ⟨earlier, hs⟩ := exists_suffix_of_mem hbegan
  have hmem : job.id ∈ (p.jobs firstId).map Job.id := hid ▸ mem_ids_jobs.mpr ⟨i, hi, rfl⟩
  -- what failed before the job began is what failed at all
  have hbroken : ∀ k, TransGen (DependsIn (p.jobs firstId)) job.id (jobId firstId k) →
      (jobId firstId k ∈ brokenIds earlier ↔ Failed firstId q k) := fun k hk =>
    mem_brokenIds_of_suffix H.nodup (suffix_of_cons_suffix hs) (H.ended_of_transGen hs hk)
  rw [H.sound_eq_false_iff hs hmem, hid]
  rw [hid] at hbroken
  constructor
  · rintro ⟨d, hd, hdbroken⟩
    obtain ⟨k, hk, rfl⟩ := (transGen_dependsIn_iff hp).mp hd
    exact ⟨k, hk, (hbroken k hd).mp hdbroken⟩
  · rintro ⟨k, hk, hfailed⟩
    have hd : TransGen (DependsIn (p.jobs firstId)) (jobId firstId i) (jobId firstId k) :=
      (transGen_dependsIn_iff hp).mpr ⟨k, hk, rfl⟩
    exact ⟨_, hd, (hbroken k hd).mpr hfailed⟩

theorem answer_iff_not_failed : ok = true ↔ ∀ i < p.order.length, ¬ Failed firstId q i := by
  rw [(h.completed_iff (closed_jobs hp) hout).2]
  constructor
  · intro hall i hi hfailed
    obtain ⟨j, hj, hid⟩ := exists_job firstId hi
    exact hall j hj (hid ▸ hfailed)
  · intro hall j hj
    obtain ⟨i, hi, hid⟩ := mem_ids_jobs.mp (List.mem_map_of_mem hj)
    exact hid ▸ hall i hi

end Answered

/-- **Failures follow chains of conflicts.** When the batch of a planned list is over, its report
tells what the pool has seen. -/
theorem tells (hp : p.IsPlanned) {ok : Bool} (h : p.Ends firstId params pool q ok)
    (inputTasks : Nat) : p.Tells firstId params q (p.report inputTasks ok) := by
  cases h with
  | empty h => refine ⟨?_, ?_, ?_, rfl, rfl⟩ <;> simp [h, report]
  | answered _ h hout =>
      refine ⟨fun i task => runsOnce_of_answered hp h hout, ?_, ?_, rfl, rfl⟩
      · intro i hi w job hbegan hid
        exact sound_eq_false_iff_failed hp h hi hbegan hid
      · exact answer_iff_not_failed hp h hout

/-! ## Where the tasks go one after the other -/

/-- The identities from the first one on are still free. -/
def Free (firstId : Nat) (as : List (Action TaskId π)) : Prop :=
  ∀ id ∈ Action.idsOf as, id.index < firstId

theorem map_id_jobs (p : Prepared) (firstId : Nat) :
    (p.jobs firstId).map Job.id = (List.range p.order.length).map (jobId firstId) := by
  refine List.ext_getElem? fun i => ?_
  simp only [jobs, List.getElem?_map, List.getElem?_mapIdx, Option.map_map]
  rcases Nat.lt_or_ge i p.order.length with hi | hi
  · rw [List.getElem?_eq_getElem hi, List.getElem?_range hi]
    rfl
  · rw [List.getElem?_eq_none hi, List.getElem?_eq_none (by simpa using hi)]
    rfl

/-- A batch can be submitted under free identities. -/
theorem nodup_idsOf_submit {as : List (Action TaskId π)} (h : pool.Reached as q)
    (hfree : Free firstId as) :
    (Action.idsOf (as ++ [.runBatch (p.jobs firstId) params (p.barrier firstId)])).Nodup := by
  have hids : Action.idsOf [.runBatch (p.jobs firstId) params (p.barrier firstId)] =
      (List.range (p.order.length + 1)).map (jobId firstId) := by
    rw [List.range_succ, List.map_append, ← map_id_jobs, Action.idsOf_cons, Action.ids]
    exact (List.append_nil _).trans (Pool.ids_runBatch _ _)
  rw [Action.idsOf_append, hids]
  refine List.Nodup.append h.distinct (List.nodup_range.map (jobId_injective firstId)) ?_
  intro id hid hnew
  obtain ⟨i, -, rfl⟩ := List.mem_map.mp hnew
  exact absurd (hfree _ hid) (Nat.not_lt_of_le (Nat.le_add_right firstId i))

/-- Where a run of a renderer has an answer, the batch is over with this answer. -/
theorem ends_execute {verdict : Verdict π} {as : List (Action TaskId π)} {ok : Bool}
    {q' : Pool TaskId π} (h : pool.Reached as q) (hfree : Free firstId as)
    (hok : Renderer.execute verdict p params firstId q = (.ok ok, q')) :
    p.Ends firstId params pool q' ok := by
  unfold Renderer.execute at hok
  split at hok
  · next hempty =>
      cases hok
      exact .empty (List.isEmpty_iff.mp hempty)
  · next hne =>
      cases hsubmit : q.runBatch (p.jobs firstId) params (p.barrier firstId) with
      | error e =>
          rw [hsubmit] at hok
          cases hok
      | ok r =>
          rw [hsubmit] at hok
          dsimp only at hok
          have hreached : pool.Reached
              (as ++ [.runBatch (p.jobs firstId) params (p.barrier firstId)]) r := by
            refine h.extend (nodup_idsOf_submit h hfree) ?_
            simp only [Pool.run?, Pool.step?, hsubmit, Option.bind_some]
          have hbody : ∀ task job ps, (Renderer.body verdict p.graph task job ps).1 = ps :=
            fun _ _ _ => rfl
          have hworks := Pool.works_pump hbody (p.order.length + 1) Pool.bothLanes
            (p.order.length + 1) (r, ())
          obtain ⟨bs, -, hpumped⟩ := hreached.works hworks
          rw [List.append_assoc] at hpumped
          split at hok
          · next hout =>
              cases hok
              exact .answered (fun h => hne (List.isEmpty_iff.mpr h)) hpumped hout
          · cases hok

end Prepared

/-- What is well-formed can be planned. -/
theorem Graph.resolves_of_wellFormed {g : Graph} {list : List TaskId} (h : g.WellFormed list) :
    g.Resolves list := by
  intro id hid
  have hsound : g.SoundAt id := h id hid
  obtain ⟨n, hn⟩ := hsound.exists_node
  refine ⟨n, hn, fun sub hsub => ?_⟩
  obtain ⟨slot, hslot, rfl⟩ := List.mem_filterMap.mp hsub
  exact ((hsound.subTask ⟨n, hn, hslot⟩) sub (.refl sub)).1

namespace Renderer

open Prepared

variable {r : Renderer} {rules : RuleId → Rule σ} {registry : Registry} {user : σ} {graph : Graph}
  {list : List TaskId} {p : Prepared}

/-- What is prepared is the optimized list with its plan. -/
structure Prepares (r : Renderer) (rules : RuleId → Rule σ) (registry : Registry) (user : σ)
    (graph : Graph) (list : List TaskId) (p : Prepared) : Prop where
  checked : graph.WellFormed list
  optimized : ((r.setup rules registry).optimize user graph (list.map some)).result = .ok p.stats
  graph_eq : p.graph = ((r.setup rules registry).optimize user graph (list.map some)).graph
  order_eq : p.order.map some = ((r.setup rules registry).optimize user graph (list.map some)).list
  plan_eq : HazardPlan.ofList p.graph p.order = .ok p.plan

theorem planned_eq_ok {g : Graph} {l : List (Option TaskId)} {stats : OptimizeStats}
    (h : planned g l stats = .ok p) :
    p.graph = g ∧ p.order = l.filterMap id ∧ p.stats = stats ∧
      HazardPlan.ofList g p.order = .ok p.plan := by
  dsimp only [planned] at h
  cases hplan : HazardPlan.ofList g (l.filterMap id) with
  | error f =>
      rw [hplan] at h
      cases h
  | ok plan =>
      rw [hplan] at h
      cases h
      exact ⟨rfl, rfl, rfl, hplan⟩

theorem afterOptimizing_eq_ok {maxSteps : Nat} {o : Optimized σ}
    (h : (r.afterOptimizing maxSteps o).2 = .ok p) :
    ∃ stats, o.result = .ok stats ∧ planned o.graph o.list stats = .ok p := by
  unfold afterOptimizing at h
  cases hresult : o.result with
  | error stop =>
      rw [hresult] at h
      cases h
  | ok stats =>
      rw [hresult] at h
      dsimp only at h
      cases hplanned : planned o.graph o.list stats with
      | error f =>
          rw [hplanned] at h
          split at h <;> cases h
      | ok p' =>
          rw [hplanned] at h
          split at h
          · cases h
          · cases h
            exact ⟨stats, rfl, hplanned⟩

/-- Where a list can be prepared, it was checked, optimized and planned. -/
theorem prepares (h : (r.prepare rules registry user graph list).result = .ok p) :
    r.Prepares rules registry user graph list p := by
  unfold prepare at h
  cases hcheck : graph.check list with
  | error e =>
      rw [hcheck] at h
      cases h
  | ok _ =>
      rw [hcheck] at h
      dsimp only at h
      split at h
      · cases h
      · obtain ⟨stats, hresult, hplanned⟩ := afterOptimizing_eq_ok h
        obtain ⟨hgraph, horder, rfl, hplan⟩ := planned_eq_ok hplanned
        refine ⟨Graph.check_eq_ok_iff.mp hcheck, hresult, hgraph, ?_, hgraph ▸ hplan⟩
        rw [horder, ← filter_isSome]
        exact List.filter_eq_self.mpr (Setup.isSome_of_optimize hresult)

theorem exists_listing {g : Graph} {l : List (Option TaskId)}
    (h : g.WellFormed (l.filterMap id)) (r : Renderer) (title : String) :
    ∃ lines, r.listing g l title = .ok lines := by
  unfold listing
  split
  · exact Graph.exists_dump (fun id hid => h id (List.mem_filterMap.mpr ⟨_, hid, rfl⟩)) title
  · exact ⟨[], rfl⟩

/-- A list whose trees are in order before and after the rules is prepared. -/
theorem exists_prepared (hchecked : graph.WellFormed list) {stats : OptimizeStats}
    (hresult : ((r.setup rules registry).optimize user graph (list.map some)).result = .ok stats)
    (hwf : ((r.setup rules registry).optimize user graph (list.map some)).graph.WellFormed
      (((r.setup rules registry).optimize user graph (list.map some)).list.filterMap id)) :
    ∃ p, (r.prepare rules registry user graph list).result = .ok p := by
  have hentries : (list.map some).filterMap id = list := by simp
  obtain ⟨before, hbefore⟩ := r.exists_listing (hentries.symm ▸ hchecked) "list"
  obtain ⟨after, hafter⟩ := r.exists_listing hwf "optimized list"
  obtain ⟨p, hplanned, -⟩ :=
    Prepared.exists_planned stats (Graph.resolves_of_wellFormed hwf)
  refine ⟨p, ?_⟩
  unfold prepare
  rw [Graph.check_eq_ok_iff.mpr hchecked]
  dsimp only
  rw [hbefore]
  dsimp only [afterOptimizing]
  rw [hresult]
  dsimp only
  rw [hafter, hplanned]
  rfl

/-- Once the rules are done, nothing is refused any more; all that can happen is a fault. -/
theorem fault_of_prepare {e : Failure} (hchecked : graph.WellFormed list) {stats : OptimizeStats}
    (hresult : ((r.setup rules registry).optimize user graph (list.map some)).result = .ok stats)
    (h : (r.prepare rules registry user graph list).result = .error e) : ∃ f, e = .fault f := by
  unfold prepare at h
  rw [Graph.check_eq_ok_iff.mpr hchecked] at h
  dsimp only at h
  split at h
  · cases h
    exact ⟨_, rfl⟩
  · dsimp only [afterOptimizing] at h
    rw [hresult] at h
    dsimp only at h
    split at h
    · cases h
      exact ⟨_, rfl⟩
    · dsimp only at h
      revert h
      cases planned _ _ stats with
      | ok p => exact nofun
      | error f =>
          intro h
          cases h
          exact ⟨f, rfl⟩

/-- Where a run has a report, its batch is over, and the report is about it. -/
theorem ends_run {verdict : Verdict π} {params : π} {firstId : Nat} {pool q : Pool TaskId π}
    {as : List (Action TaskId π)} {report : RunReport} (h : pool.Reached as q)
    (hfree : Free firstId as)
    (hreport : (r.run verdict rules registry user graph list params firstId q).result = .ok report) :
    ∃ p ok, (r.prepare rules registry user graph list).result = .ok p ∧
      p.Ends firstId params pool
        (r.run verdict rules registry user graph list params firstId q).pool ok ∧
      report = p.report list.length ok := by
  dsimp only [run] at hreport ⊢
  cases hprepared : (r.prepare rules registry user graph list).result with
  | error f =>
      rw [hprepared] at hreport
      cases hreport
  | ok p =>
      rw [hprepared] at hreport
      dsimp only at hreport ⊢
      rcases hexecuted : execute verdict p params firstId q with ⟨_ | ok, q'⟩
      · rw [hexecuted] at hreport
        cases hreport
      · rw [hexecuted] at hreport
        cases hreport
        exact ⟨p, ok, rfl, ends_execute h hfree hexecuted, rfl⟩

/-- **Failures follow chains of conflicts.** Prepare any list with any rules. Submit its batch to any
pool, at any time and among whatever else clients and workers do, and wait until it is over. Then
every entry of the optimized list was run once; it was told of a failure exactly if a chain of
conflicts leads to it from an earlier entry that failed; and the report says whether some entry failed,
how long the list is, and how many edges its plan has. A run that takes one task after the other is
one of these runs. -/
theorem tells_of_prepare (h : (r.prepare rules registry user graph list).result = .ok p) :
    r.Prepares rules registry user graph list p ∧
      (∀ (π : Type) (firstId : Nat) (params : π) (pool q : Pool TaskId π) (ok : Bool),
        p.Ends firstId params pool q ok →
          p.Tells firstId params q (p.report list.length ok)) ∧
      ∀ (π : Type) (firstId : Nat) (params : π) (pool q : Pool TaskId π)
        (as : List (Action TaskId π)) (verdict : Verdict π) (report : RunReport),
        pool.Reached as q → Free firstId as →
          let ran := r.run verdict rules registry user graph list params firstId q
          ran.result = .ok report → p.Tells firstId params ran.pool report := by
  have hprepares := prepares h
  have hplanned : p.IsPlanned := HazardPlan.orders_of_ofList hprepares.plan_eq
  refine ⟨hprepares, ?_, ?_⟩
  · intro π firstId params pool q ok hends
    exact tells hplanned hends list.length
  · intro π firstId params pool q as verdict report hreached hfree ran hreport
    obtain ⟨p', ok, hp', hends, rfl⟩ := ends_run hreached hfree hreport
    obtain rfl : p = p' := Except.ok.inj (h.symm.trans hp')
    exact tells hplanned hends list.length

/-! ### One of two writers fails

The second task says no. The third one is told, since it waits for both writers, and so is the fourth
one, which reads the third. The last entry is the third task again. Its only edge leads to the fourth
entry, and it is told too. -/

/-- A renderer that takes only few steps. -/
def brief : Renderer := ⟨0, ⟨0⟩, { optimizer := { maxSteps := 40 } }⟩

/-- A rule that applies nowhere. -/
def restingRule : Rule Unit where
  name := "rest"
  descriptor := .ofCategory .common

/-- The four tasks, with the third one twice. -/
def stripList : List TaskId := [⟨0⟩, ⟨1⟩, ⟨2⟩, ⟨3⟩, ⟨2⟩]

/-- The list, planned. -/
def plannedStrips : Prepared :=
  ⟨HazardPlan.stripGraph, stripList, ⟨[[], [], [1, 0], [2], [3]]⟩, ⟨7, 0⟩⟩

theorem prepare_strips :
    (brief.prepare (fun _ => restingRule) .empty () HazardPlan.stripGraph stripList).result =
      .ok plannedStrips := by
  have hchecked : HazardPlan.stripGraph.check stripList = .ok () :=
    Graph.check_eq_ok_iff.mpr (Graph.wellFormed_of_older (by decide) (by decide))
  have hplanned : planned HazardPlan.stripGraph (stripList.map some) ⟨7, 0⟩ = .ok plannedStrips := by
    change (HazardPlan.ofList HazardPlan.stripGraph [⟨0⟩, ⟨1⟩, ⟨2⟩, ⟨3⟩, ⟨2⟩]).bind _ = _
    rw [HazardPlan.ofList_strips]
    rfl
  unfold prepare
  rw [hchecked]
  exact congrArg (Except.mapError Failure.fault) hplanned

/-- Two workers begin with the writers; then the first one does the rest. -/
def failingSchedule : List (Action TaskId Unit) :=
  [.runBatch (plannedStrips.jobs 0) () (plannedStrips.barrier 0), .check 0, .check 1,
    .run 1 false, .report 1, .run 0 true, .report 0, .check 0, .run 0 true, .report 0, .check 0,
    .run 0 true, .report 0, .check 0, .run 0 true, .report 0, .check 0, .run 0 true]

theorem tells_of_prepare_strips :
    (brief.prepare (fun _ => restingRule) .empty () HazardPlan.stripGraph stripList).result =
        .ok plannedStrips ∧
      ∃ q, plannedStrips.Ends 0 () Pool.pair q false ∧ brokenIds q.history = [⟨1⟩] ∧
        (jobsBegun q.history).map (fun job => (job.id.index, job.sound)) =
          [(5, false), (4, false), (3, false), (2, false), (1, true), (0, true)] ∧
        plannedStrips.Tells 0 () q (plannedStrips.report 5 false) := by
  obtain ⟨-, htells, -⟩ := tells_of_prepare prepare_strips
  have hq : Pool.pair.Reached failingSchedule _ := ⟨Pool.exists_create_pair, by decide, rfl⟩
  have hends : plannedStrips.Ends 0 () Pool.pair _ false :=
    @Ends.answered _ _ _ _ _ _ [] _ _ (by decide) hq rfl
  exact ⟨prepare_strips, _, hends, rfl, rfl, htells Unit 0 () _ _ false hends⟩

end Renderer

end RenderPlan
