/-
# RenderPlan.Proofs.Bench.Rendering -- the frame in closed form

The stages put together. The frame is a grid of cells; the rules drop every seventh tile and list
what is left, row by row; the plan of that list has one edge for each tile; and since every task of
the frame is willing, the batch succeeds in every schedule. So the report of a run is known from the
sizes alone (`frameReport`).
-/
import RenderPlan.Bench.Session
import RenderPlan.Proofs.Bench.Planned
import RenderPlan.Proofs.Render.Success

namespace RenderPlan.Bench

open Prepared

variable {a : Arguments} {g : Graph} {top : Nat → TaskId}

/-! ## Before and after the rules -/

theorem wellFormed_frame : (frameGraph a).WellFormed (composites a) := by
  intro id hid
  obtain ⟨r, hr, rfl⟩ := List.mem_map.mp hid
  exact soundAt_frame (List.mem_range.mp hr)

theorem Holds.wellFormed (ha : a.Ordinary) (h : Holds a g top) : g.WellFormed (order a top) := by
  intro id hid
  obtain ⟨⟨r, c⟩, hx, rfl⟩ := List.mem_map.mp hid
  obtain ⟨hr, hc⟩ := mem_cells.mp hx
  exact h.soundAt ha hr (by omega)

/-- A task that exists says yes unless it is told of a failure. -/
theorem willing_of_wellFormed {p : Prepared} (h : p.graph.WellFormed p.order) : p.Willing verdict := by
  intro task htask _
  obtain ⟨n, hn, -⟩ := Graph.resolves_of_wellFormed h task htask
  rw [verdict, hn]
  rfl

/-- A row is not too wide to be walked. -/
theorem columns_le_visitLimit (ha : a.Ordinary) : a.columns + 2 ≤ Setup.defaultVisitLimit := by
  have hrow : a.columns * 1 ≤ a.tiles := Nat.mul_le_mul_left _ (Arguments.rows_pos ha.tile_pos ha.height_pos)
  have hlt := ha.nodes_lt
  unfold Setup.defaultVisitLimit
  omega

/-! ## The report -/

/-- What a run of the frame reports. -/
def frameReport (a : Arguments) : RunReport where
  success := true
  inputTasks := a.rows
  optimizedTasks := a.tiles - a.tiles / 7 + a.rows
  dependencyEdges := a.tiles - a.tiles / 7
  optimizerSteps := 9
  optimizerRestarts := 0

/-- The frame, prepared. -/
structure IsFrame (a : Arguments) (p : Prepared) : Prop where
  planned : p.IsPlanned
  willing : p.Willing verdict
  report : p.report (Frame.build a).roots.length true = frameReport a

/-- **The frame is prepared**, if nine steps are allowed. -/
theorem exists_prepared_frame (ha : a.Ordinary) {r : Renderer}
    (hsteps : 9 ≤ r.options.optimizer.maxSteps.toNat) :
    ∃ rulebook p, registry = .ok rulebook ∧
      (r.prepare rules rulebook () (Frame.build a).graph (Frame.build a).roots).result = .ok p ∧
      IsFrame a p := by
  obtain ⟨rulebook, hregistry, happlies⟩ := exists_registry
  have hs : Applies (r.setup rules rulebook) := happlies _ rfl rfl
  obtain ⟨top, hresult, hlist, hholds⟩ :=
    optimize_frame ha hs hsteps (columns_le_visitLimit ha)
  have hentries : ((order a top).map some).filterMap id = order a top := by simp
  have hwf := hholds.wellFormed ha
  obtain ⟨p, hp⟩ := Renderer.exists_prepared wellFormed_frame hresult
    (by rw [hlist, hentries]; exact hwf)
  have hprepares := Renderer.prepares hp
  have horder : p.order = order a top := by
    have hsame := hprepares.order_eq.trans hlist
    exact List.map_injective_iff.mpr (Option.some_injective _) hsame
  rw [← hprepares.graph_eq] at hholds hwf
  have hplan : HazardPlan.ofList p.graph (order a top) = .ok p.plan := horder ▸ hprepares.plan_eq
  have hstats : p.stats = ⟨9, 0⟩ := Except.ok.inj (hprepares.optimized.symm.trans hresult)
  refine ⟨rulebook, p, hregistry, by rw [build_eq]; exact hp,
    HazardPlan.orders_of_ofList hprepares.plan_eq, willing_of_wellFormed (horder ▸ hwf), ?_⟩
  have hroots : (Frame.build a).roots.length = a.rows := by
    rw [build_eq]
    exact (List.length_map ..).trans List.length_range
  rw [Prepared.report, hroots, hstats, horder, length_order, edges_order ha hholds hplan]
  rfl

section Running

variable {p : Prepared} {rulebook : Registry} {pool q : Pool TaskId Unit}
  {as : List (Action TaskId Unit)} {r : Renderer} {firstId : Nat}

theorem IsFrame.run_eq_ok (h : IsFrame a p)
    (hprepared : (r.prepare rules rulebook () (Frame.build a).graph (Frame.build a).roots).result =
      .ok p)
    (hreached : pool.Reached as q) (hfree : Free firstId as) (hidle : q.Idle) :
    (r.run verdict rules rulebook () (Frame.build a).graph (Frame.build a).roots () firstId
      q).result = .ok (frameReport a) :=
  h.report ▸ Renderer.run_eq_ok hprepared h.willing hreached hfree hidle

/-- A run of the benchmark on a new pool has this report. -/
theorem renderFrame_eq_ok (ha : a.Ordinary) {available : Nat} {o : QueueOptions}
    (hpool : Pool.create available o = .ok pool) : renderFrame a pool = .ok (frameReport a) := by
  obtain ⟨rulebook, p, hregistry, hprepared, hframe⟩ :=
    exists_prepared_frame ha (r := ⟨0, ⟨0⟩, {}⟩) (by decide)
  have hreached : pool.Reached [] pool := ⟨⟨available, o, hpool⟩, List.nodup_nil, rfl⟩
  have hfree : Free 0 ([] : List (Action TaskId Unit)) := List.forall_mem_nil _
  have hrun := hframe.run_eq_ok hprepared hreached hfree (Pool.idle_of_create hpool)
  simp only [renderFrame, hregistry, Except.mapError, bind, Except.bind, hrun]
  rfl

/-- **The frame in closed form.** For all sizes within the limits of 32-bit words, and for every
renderer that is allowed nine steps, the frame is prepared. Whatever order the workers of a running
queue take, and whatever else happens to the pool, its batch succeeds. The report has a task for each
tile that is not empty and for each row, one edge for each of these tiles, whatever the overlap, nine
steps and no restart. A run that takes one task after the other ends with this report, and so does a
run of the benchmark on any new pool. -/
theorem renders_frame (ha : a.Ordinary) (r : Renderer)
    (hsteps : 9 ≤ r.options.optimizer.maxSteps.toNat) :
    ∃ rulebook p, registry = .ok rulebook ∧
      (r.prepare rules rulebook () (Frame.build a).graph (Frame.build a).roots).result = .ok p ∧
      p.Succeeds verdict ∧ p.report (Frame.build a).roots.length true = frameReport a ∧
      (∀ (pool q : Pool TaskId Unit) (as : List (Action TaskId Unit)) (firstId : Nat),
        pool.Reached as q → Free firstId as → q.Idle →
          (r.run verdict rules rulebook () (Frame.build a).graph (Frame.build a).roots () firstId
            q).result = .ok (frameReport a)) ∧
      ∀ (available : Nat) (o : QueueOptions) (pool : Pool TaskId Unit),
        Pool.create available o = .ok pool → renderFrame a pool = .ok (frameReport a) := by
  obtain ⟨rulebook, p, hregistry, hprepared, hframe⟩ := exists_prepared_frame ha hsteps
  refine ⟨rulebook, p, hregistry, hprepared, succeeds hframe.planned hframe.willing, hframe.report,
    ?_, ?_⟩
  · intro pool q as firstId hreached hfree hidle
    exact hframe.run_eq_ok hprepared hreached hfree hidle
  · intro available o pool hpool
    exact renderFrame_eq_ok ha hpool

/-! ### A frame with a gap

Three rows of three tiles, of which the seventh one is empty. Each tile reaches over both of the tiles
to its right. -/

/-- The frame. -/
def gapped : Arguments := { width := 5, height := 5, tile := 2, overlap := 3 }

/-- Its report. -/
def gappedReport : RunReport := ⟨true, 3, 11, 8, 9, 0⟩

theorem renders_frame_gapped :
    gapped.Ordinary ∧ 9 ≤ Renderer.brief.options.optimizer.maxSteps.toNat ∧
      renderFrame gapped Pool.pair = .ok gappedReport ∧
        ∃ (p : Prepared) (r : Pool TaskId Unit),
          p.report (Frame.build gapped).roots.length true = gappedReport ∧
            Pool.pair.runBatch (p.jobs 0) () (p.barrier 0) = .ok r ∧
              Inevitable (Pool.Labors (p.Allowed verdict 0))
                (fun s => s.outcome? (p.barrier 0) = some (.completed true)) r := by
  have hgapped : gapped.Ordinary := by constructor <;> decide
  have hsteps : 9 ≤ Renderer.brief.options.optimizer.maxSteps.toNat := by decide
  have hgappedReport : frameReport gapped = gappedReport := by decide
  obtain ⟨available, o, hpair⟩ := Pool.exists_create_pair (α := TaskId) (π := Unit)
  have hreached : Pool.pair.Reached ([] : List (Action TaskId Unit)) Pool.pair :=
    ⟨⟨available, o, hpair⟩, List.nodup_nil, rfl⟩
  have hfree : Free 0 ([] : List (Action TaskId Unit)) := List.forall_mem_nil _
  obtain ⟨rulebook, p, -, -, hsucceeds, hreport, -, hbench⟩ :=
    renders_frame hgapped Renderer.brief hsteps
  rw [hgappedReport] at hreport hbench
  obtain ⟨r, hr, hrunning, hobeys⟩ : ∃ r, Pool.pair.runBatch (p.jobs 0) () (p.barrier 0) = .ok r ∧
      r.queue.running = true ∧ r.Obeys (p.Allowed verdict 0) :=
    hsucceeds.accepted hreached hfree rfl
  have hsubmitted : Pool.pair.Reached ([] ++ [.runBatch (p.jobs 0) () (p.barrier 0)]) r := by
    refine hreached.extend (nodup_idsOf_submit hreached hfree) ?_
    simp only [Pool.run?, Pool.step?, hr, Option.bind_some]
  exact ⟨hgapped, hsteps, hbench available o Pool.pair hpair, p, r, hreport, hr,
    hsucceeds.comes hsubmitted hobeys hrunning List.not_mem_nil⟩

end Running

end RenderPlan.Bench
