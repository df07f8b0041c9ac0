/-
# RenderPlan.Proofs.Bench.Optimized -- what the rules make of the frame

The first rule takes the empty tiles out of the frame: a row that has some is copied, and its copy has
holes in their place. The second rule puts the tiles that are left, row by row and each row before its
composite, into a list. What comes out is again a grid of cells (`Holds`), with fewer cells listed
(`order`).

The optimization takes nine steps, one for each rule and one to leave each category, and never goes
back (`optimize_frame`).
-/
import RenderPlan.Proofs.Bench.Grid
import RenderPlan.Proofs.Graph.PostOrder
import RenderPlan.Proofs.Optimize.Culling
import RenderPlan.Proofs.Optimize.QuietRun

namespace RenderPlan.Bench

open Work

/-! ## What is left of the frame -/

/-- The task is no empty tile. -/
def occupied (g : Graph) (id : TaskId) : Bool := g.name? id ≠ some "tile-empty"

section Cells

variable (a : Arguments)

/-- A cell of the optimized frame. A composite has holes for the empty tiles of its row. -/
def keptNode (r c : Nat) : Node :=
  (cellNode a r c).culled (occupied (frameGraph a)) (cellNode a r c).subTasks.length

/-- The columns of a row whose tiles are not empty. -/
def keptColumns (r : Nat) : List Nat := (List.range a.columns).filter fun c => ¬ a.Empty r c

/-- The cells that are listed, row by row, the composite of a row behind its tiles. -/
def cells : List (Nat × Nat) :=
  (List.range a.rows).flatMap fun r => (keptColumns a r).map (r, ·) ++ [(r, a.columns)]

variable {a}

theorem keptNode_tile {r c : Nat} (hc : c < a.columns) : keptNode a r c = cellNode a r c := by
  rw [keptNode, subTasks_tile hc]
  rfl

theorem mem_cells {r c : Nat} :
    (r, c) ∈ cells a ↔ r < a.rows ∧ (c < a.columns ∧ ¬ a.Empty r c ∨ c = a.columns) := by
  simp [cells, keptColumns]
  grind

variable (a) in
/-- The one cell stands before the other. -/
def Stands (x y : Nat × Nat) : Prop := (a.place x.1 x.2).index < (a.place y.1 y.2).index

/-- Each cell is listed behind those before it. -/
theorem pairwise_cells : (cells a).Pairwise (Stands a) := by
  have hcolumns : ∀ r, ∀ c ∈ keptColumns a r, c < a.columns := by
    intro r c hc
    exact List.mem_range.mp (List.mem_filter.mp hc).1
  refine List.pairwise_flatMap.mpr ⟨fun r _ => ?_, ?_⟩
  · refine List.pairwise_append.mpr ⟨?_, List.pairwise_singleton _ _, ?_⟩
    · refine List.pairwise_map.mpr ((List.pairwise_lt_range.filter _).imp ?_)
      exact fun h => Nat.add_lt_add_left h _
    · rintro _ hx _ hy
      obtain ⟨c, hc, rfl⟩ := List.mem_map.mp hx
      obtain rfl := List.mem_singleton.mp hy
      exact Nat.add_lt_add_left (hcolumns r c hc) _
  · refine List.pairwise_lt_range.imp fun {r r'} hlt x hx y hy => ?_
    have hx' : x.1 = r ∧ x.2 ≤ a.columns := by
      rcases List.mem_append.mp hx with hx | hx
      · obtain ⟨c, hc, rfl⟩ := List.mem_map.mp hx
        exact ⟨rfl, Nat.le_of_lt (hcolumns r c hc)⟩
      · obtain rfl := List.mem_singleton.mp hx
        exact ⟨rfl, Nat.le_refl _⟩
    have hy' : y.1 = r' := by
      rcases List.mem_append.mp hy with hy | hy
      · obtain ⟨c, -, rfl⟩ := List.mem_map.mp hy
        rfl
      · obtain rfl := List.mem_singleton.mp hy
        rfl
    rw [Stands, hx'.1, hy']
    exact Arguments.place_lt_of_row_lt hx'.2 hlt

variable (a) in
/-- Where a cell is kept: a tile stays in its place, and `top` has the composites. -/
def spot (top : Nat → TaskId) (r c : Nat) : TaskId := if c < a.columns then a.place r c else top r

variable (a) in
/-- The list of the optimized frame. -/
def order (top : Nat → TaskId) : List TaskId := (cells a).map fun x => spot a top x.1 x.2

variable (a) in
/-- The graph has the cells of the optimized frame. -/
def Holds (g : Graph) (top : Nat → TaskId) : Prop :=
  ∀ r < a.rows, ∀ c ≤ a.columns, g.get? (spot a top r c) = some (keptNode a r c)

variable {g : Graph} {top : Nat → TaskId} {r c : Nat}

theorem Holds.get?_tile (h : Holds a g top) (hr : r < a.rows) (hc : c < a.columns) :
    g.get? (a.place r c) = some (cellNode a r c) := by
  have hcell := h r hr c (Nat.le_of_lt hc)
  rwa [spot, if_pos hc, keptNode_tile hc] at hcell

theorem Holds.get?_top (h : Holds a g top) (hr : r < a.rows) :
    g.get? (top r) = some (keptNode a r a.columns) := by
  have hcell := h r hr a.columns (Nat.le_refl _)
  rwa [spot, if_neg (Nat.lt_irrefl _)] at hcell

/-- The kinds of the cells tell them apart. -/
theorem Holds.nodup_order (h : Holds a g top) : (order a top).Nodup := by
  refine List.pairwise_map.mpr (pairwise_cells.imp_of_mem ?_)
  rintro ⟨r, c⟩ ⟨r', c'⟩ hx hy hlt heq
  obtain ⟨hr, hc⟩ := mem_cells.mp hx
  obtain ⟨hr', hc'⟩ := mem_cells.mp hy
  have hcell := h r hr c (by omega)
  rw [show spot a top r c = spot a top r' c' from heq, h r' hr' c' (by omega)] at hcell
  have hserial := congrArg (fun n => n.kind.serial) (Option.some.inj hcell)
  exact absurd hserial.symm (Nat.ne_of_lt hlt)

variable (ha : a.Ordinary)

include ha

theorem occupied_place (hr : r < a.rows) (hc : c < a.columns) :
    occupied (frameGraph a) (a.place r c) = decide (¬ a.Empty r c) := by
  have hname : (frameGraph a).name? (a.place r c) = some (cellNode a r c).name := by
    rw [Graph.name?, get?_frameGraph hr (Nat.le_of_lt hc), Option.map_some]
  rw [occupied, hname, name_tile ha hr hc]
  split
  · next hempty => simp [hempty]
  · next hfull => simp [hfull]

/-- The sub-tasks of a composite are the tiles of its row that are left. -/
theorem children_composite (hr : r < a.rows) :
    (keptNode a r a.columns).children = (keptColumns a r).map (a.place r) := by
  rw [keptNode, Node.children_culled, children_cellNode, List.filter_map]
  congr 1
  refine List.filter_congr fun c hc => ?_
  exact occupied_place ha hr (List.mem_range.mp hc)

theorem Holds.leaves (h : Holds a g top) (hr : r < a.rows) :
    ∀ sub ∈ (keptNode a r a.columns).children, ∃ m, g.get? sub = some m ∧ m.children = [] := by
  rw [children_composite ha hr]
  intro sub hsub
  obtain ⟨c, hc, rfl⟩ := List.mem_map.mp hsub
  have hlt := List.mem_range.mp (List.mem_filter.mp hc).1
  exact ⟨_, h.get?_tile hr hlt, children_tile hlt⟩

/-- Every cell is the top of a sound tree. -/
theorem Holds.soundAt (h : Holds a g top) (hr : r < a.rows) (hc : c ≤ a.columns) :
    g.SoundAt (spot a top r c) := by
  rcases Nat.lt_or_eq_of_le hc with hc | rfl
  · refine Graph.soundAt_of_shallow (h r hr c (Nat.le_of_lt hc)) fun sub hsub => ?_
    rw [keptNode_tile hc, children_tile hc] at hsub
    cases hsub
  · exact Graph.soundAt_of_shallow (h r hr _ hc) (h.leaves ha hr)

/-- The composites, each behind the tiles of its row. -/
theorem Holds.postOrder (h : Holds a g top) :
    g.postOrder (((List.range a.rows).map top).map some) = .ok (order a top) := by
  have hlist : (((List.range a.rows).map top).flatMap fun id => g.subTasks (some id) ++ [id]) =
      order a top := by
    rw [order, cells, List.map_flatMap, List.flatMap_map]
    refine List.flatMap_congr fun r hr => ?_
    have hsubs : g.subTasks (some (top r)) = (keptColumns a r).map (a.place r) := by
      rw [Graph.subTasks, Option.bind_some, h.get?_top (List.mem_range.mp hr)]
      exact children_composite ha (List.mem_range.mp hr)
    rw [hsubs, List.map_append, List.map_map, List.map_singleton, spot, if_neg (Nat.lt_irrefl _)]
    congr 1
    refine List.map_congr_left fun c hc => ?_
    have hlt := List.mem_range.mp (List.mem_filter.mp hc).1
    exact (if_pos hlt).symm
  rw [← hlist]
  refine Graph.postOrder_of_shallow ?_ ?_ (hlist ▸ h.nodup_order)
  all_goals
    intro id hid
    obtain ⟨r, hr, rfl⟩ := List.mem_map.mp hid
    have htop := h.get?_top (List.mem_range.mp hr)
  · exact ⟨_, htop, by rw [Graph.subTasks, Option.bind_some, htop]⟩
  · rw [Graph.subTasks, Option.bind_some, htop]
    exact h.leaves ha (List.mem_range.mp hr)

end Cells

/-! ## The rule that drops empty tiles -/

/-- The first rule of the benchmark. -/
def dropper : Member Unit := ⟨⟨0⟩, dropEmptyTiles⟩

/-- The step of the first rule. -/
def dropStep : Step Unit := ⟨.common, [dropper]⟩

section Dropping

open Visit

variable {a : Arguments} {w : Workspace Unit} {v : TaskView} {task : TaskId} {maxSteps limit : Nat}

/-- The rule leaves a task alone, or removes it. -/
theorem callRule_dropper (hv : Untouched v) (htask : v.task = some task) :
    ∃ w', (callRule dropper v).outcome w =
        (.ok { v with task := (some task).filter (occupied w.graph) }, w') ∧
      w'.graph = w.graph ∧ w'.steps = w.steps := by
  have haffects : v.affects = ∅ := hv.affects
  have hmode : v.mode = .none := hv.mode
  have hanswer : (answer dropper v w).fault = none ∧ (answer dropper v w).call.graph = w.graph ∧
      (answer dropper v w).call.view = { v with task := (some task).filter (occupied w.graph) } := by
    have hname : v.task.bind w.graph.name? = w.graph.name? task := by rw [htask, Option.bind_some]
    simp only [answer, dropper, dropEmptyTiles, hname]
    split
    · next hempty =>
        have hgone : (some task).filter (occupied w.graph) = none := by
          rw [Option.filter_some, occupied, hempty, if_neg (by simp)]
        exact ⟨rfl, rfl, by rw [hgone]⟩
    · next hfull =>
        have hkept : (some task).filter (occupied w.graph) = v.task := by
          rw [Option.filter_some, occupied, if_pos (decide_eq_true hfull), htask]
        exact ⟨rfl, rfl, by rw [hkept]⟩
  obtain ⟨hfault, hgraph, hview⟩ := hanswer
  have hreported : (record dropper v w).reported = ∅ := by
    simp only [record, hview, haffects]
    split <;> rfl
  have hafter : viewAfter dropper v w = { v with task := (some task).filter (occupied w.graph) } := by
    rw [viewAfter, hreported, hview, haffects, hmode]
    rfl
  refine ⟨workspaceAfter dropper v w, ?_, hgraph, rfl⟩
  rw [outcome_callRule, hfault, hafter]

/-- The rules that come before the sub-tasks. -/
theorem applyRules_dropper (hv : Untouched v) (htask : v.task = some task) :
    ∃ w', (applyRules false [dropper] v).outcome w =
        (.ok ({ v with task := (some task).filter (occupied w.graph) }, occupied w.graph task), w') ∧
      w'.graph = w.graph ∧ w'.steps = w.steps := by
  obtain ⟨w', hcall, hgraph, hsteps⟩ := callRule_dropper (w := w) hv htask
  refine ⟨w', ?_, hgraph, hsteps⟩
  rw [applyRules, if_pos ⟨rfl, rfl⟩, outcome_bind, hcall]
  have hclean : v.affects.intersects v.gate = false := hv.clean
  cases hocc : occupied w.graph task with
  | true => simp [TaskView.isStale, hclean, hocc, applyRules]; rfl
  | false => simp [TaskView.isStale, hocc]; rfl

/-- No rule comes after the sub-tasks. -/
theorem applyRules_late (v : TaskView) : applyRules true [dropper] v = pure (v, true) := by
  rw [applyRules, if_neg (fun h => Bool.false_ne_true h.1)]
  rfl

/-- An empty tile goes, and any other task without sub-tasks stays. -/
theorem visit_leaf (maxSteps limit : Nat) (v : TaskView) {child : TaskId} {n : Node}
    (hn : w.graph.get? child = some n) (hleaf : n.subTasks = []) :
    ∃ seen w', (visit maxSteps [dropper] true (limit + 2) (v.ofChild child)).outcome w =
        (.ok seen, w') ∧
      seen.task = (some child).filter (occupied w.graph) ∧ Untouched seen ∧
      w'.graph = w.graph ∧ w'.steps = w.steps := by
  have hv := untouched_ofChild v child
  obtain ⟨w', hrules, hgraph, hsteps⟩ := applyRules_dropper (w := w) hv rfl
  refine ⟨{ v.ofChild child with task := (some child).filter (occupied w.graph) }, w', ?_, rfl,
    ⟨rfl, rfl⟩, hgraph, hsteps⟩
  rw [visit_succ, hv.fresh rfl, if_neg Bool.false_ne_true, outcome_bind, hrules]
  cases hocc : occupied w.graph child with
  | false => rfl
  | true =>
      -- there is no slot to visit, and no rule is left
      have hkept : (some child).filter (occupied w.graph) = some child := by simp [hocc]
      have hend : n.subTasks[0]? = none := by rw [hleaf]; rfl
      have hslots : (visitSlots maxSteps (visit maxSteps [dropper] true (limit + 1)) (limit + 1)
          false 0 (v.ofChild child)).outcome w' = (.ok (v.ofChild child, true), w') := by
        rw [visitSlots_succ (p := ⟨false, 0, v.ofChild child⟩) _ _ _ rfl, outcome_bind,
          outcome_fetch, hgraph, hn]
        dsimp only
        rw [hend]
        rfl
      have hsame : { v.ofChild child with task := some child } = v.ofChild child := rfl
      rw [hkept, hsame]
      dsimp only
      rw [if_pos rfl, if_pos rfl, outcome_bind, hslots]
      dsimp only [finish]
      rw [if_pos rfl, applyRules_late]
      rfl

/-- A visit of a tile tells whether the frame has something there. -/
theorem visit_tile (maxSteps : Nat) {r c : Nat} (hr : r < a.rows) (hc : c < a.columns)
    (hext : (frameGraph a).Extends w.graph) (hlimit : 2 ≤ limit) (v : TaskView) :
    ∃ seen w', (visit maxSteps [dropper] true limit (v.ofChild (a.place r c))).outcome w =
        (.ok seen, w') ∧
      seen.task = (some (a.place r c)).filter (occupied (frameGraph a)) ∧ Untouched seen ∧
      w'.graph = w.graph ∧ w'.steps = w.steps := by
  have htile := get?_frameGraph hr (Nat.le_of_lt hc)
  have hthere := hext _ _ htile
  have hname : occupied w.graph (a.place r c) = occupied (frameGraph a) (a.place r c) := by
    rw [occupied, occupied, Graph.name?, Graph.name?, hthere, htile]
  obtain ⟨limit, rfl⟩ : ∃ k, limit = k + 2 := ⟨limit - 2, by omega⟩
  obtain ⟨seen, w', hvisit, hseen, hrest⟩ := visit_leaf maxSteps limit v hthere (subTasks_tile hc)
  refine ⟨seen, w', hvisit, ?_, hrest⟩
  rw [hseen, Option.filter_some, Option.filter_some, hname]

/-- A composite comes back with its empty tiles taken out, and nothing else is changed. -/
theorem visit_composite (maxSteps : Nat) (ha : a.Ordinary) {r : Nat} (hr : r < a.rows)
    (hext : (frameGraph a).Extends w.graph) (hlimit : a.columns + 2 ≤ limit) (hv : Untouched v)
    (htask : v.task = some (a.place r a.columns)) :
    ∃ task w', (visit maxSteps [dropper] true limit v).outcome w =
        (.ok { v with task := some task }, w') ∧
      w'.graph.get? task = some (keptNode a r a.columns) ∧
      w.graph.Extends w'.graph ∧ w'.steps = w.steps := by
  obtain ⟨limit, rfl⟩ : ∃ k, limit = k + 1 := ⟨limit - 1, by omega⟩
  have hframe := get?_frameGraph hr (Nat.le_refl a.columns)
  have hnode := hext _ _ hframe
  have hocc : occupied w.graph (a.place r a.columns) = true := by
    rw [occupied, Graph.name?, hnode, cellNode_composite]
    rfl
  obtain ⟨w', hrules, hgraph, hsteps⟩ := applyRules_dropper (w := w) hv htask
  rw [hocc, Option.filter_some, if_pos hocc, ← htask] at hrules
  have hchild : ∀ child ∈ (cellNode a r a.columns).children, ∀ (v : TaskView) (u : Workspace Unit),
      w.graph.Extends u.graph → ∃ seen u',
        (visit maxSteps [dropper] true limit (v.ofChild child)).outcome u = (.ok seen, u') ∧
        seen.task = (some child).filter (occupied (frameGraph a)) ∧ Untouched seen ∧
        u'.graph = u.graph ∧ u'.steps = u.steps := by
    intro child hchild v u hu
    rw [children_cellNode] at hchild
    obtain ⟨c, hc, rfl⟩ := List.mem_map.mp hchild
    have hpos := Arguments.columns_pos ha.tile_pos ha.width_pos
    exact visit_tile maxSteps hr (List.mem_range.mp hc) (hext.trans hu) (by omega) v
  have hlength : (cellNode a r a.columns).subTasks.length = a.columns := by
    rw [subTasks_composite, List.length_map, List.length_map, List.length_range]
  obtain ⟨task, u, hslots, hkept, hgrown, hsteps'⟩ := visitSlots_culls maxSteps limit
    (p := ⟨false, 0, v⟩) (w := w') hchild
    ⟨hv, htask, hgraph.symm ▸ hnode, (absurd · Bool.false_ne_true), hgraph.symm ▸ .refl _,
      Nat.zero_le _⟩
    (by rw [hlength]; dsimp only; omega)
  refine ⟨task, u, ?_, hkept, hgrown, hsteps'.trans hsteps⟩
  rw [visit_succ, hv.fresh htask, if_neg Bool.false_ne_true, outcome_bind, hrules]
  dsimp only
  rw [if_pos rfl, if_pos rfl, outcome_bind, hslots]
  dsimp only [finish]
  rw [if_pos rfl, applyRules_late]
  rfl

end Dropping

/-! ## The whole optimization -/

section Running

open Sweep

variable {a : Arguments} {setup : Setup Unit} {s : Sweep} {w : Workspace Unit}

/-- The second rule of the benchmark. -/
def lister : Member Unit := ⟨⟨1⟩, linearize⟩

/-- The setup has the rules of the benchmark, and no others. -/
structure Applies (setup : Setup Unit) : Prop where
  common : members setup .common = [dropper]
  linear : members setup .linear = [lister]
  others : ∀ c, c ≠ .common → c ≠ .linear → members setup c = []

theorem Applies.eq_nil (hs : Applies setup) {cs : List Category} (hcommon : .common ∉ cs)
    (hlinear : .linear ∉ cs) : ∀ c ∈ cs, members setup c = [] := by
  intro c hc
  exact hs.others c (fun h => hcommon (h ▸ hc)) (fun h => hlinear (h ▸ hc))

/-- The registry of the benchmark is accepted. -/
theorem exists_registry : ∃ r, registry = .ok r ∧ ∀ setup : Setup Unit, setup.rules = rules →
    setup.registry = r → Applies setup := by
  refine ⟨_, rfl, ?_⟩
  intro setup hrules hregistry
  have hmembers : ∀ c, members setup c = (setup.registry.rules c).map fun id => ⟨id, rules id⟩ := by
    intro c
    rw [members, hrules]
  refine ⟨?_, ?_, fun c hc hl => ?_⟩
  · rw [hmembers, hregistry]
    rfl
  · rw [hmembers, hregistry]
    rfl
  · rw [hmembers, hregistry]
    cases c <;> first | rfl | exact absurd rfl hc | exact absurd rfl hl

/-- The rows are visited from top to bottom, and each composite comes back without its empty tiles. -/
theorem path_dropping (ha : a.Ordinary) (hlimit : a.columns + 2 ≤ setup.visitLimit)
    (hclean : ¬ s.Dirty dropStep) (haffected : s.affected = ∅) (before : List (Option TaskId))
    {rest : List Nat} (hrest : ∀ r ∈ rest, r < a.rows) (hnodup : rest.Nodup)
    (hext : (frameGraph a).Extends w.graph) :
    ∃ (top : Nat → TaskId) (w' : Workspace Unit), Path setup
        ⟨.visiting dropStep before (rest.map fun r => some (a.place r a.columns)), s, w⟩
        ⟨.visiting dropStep ((rest.map fun r => some (top r)).reverse ++ before) [], s, w'⟩ ∧
      (∀ r ∈ rest, w'.graph.get? (top r) = some (keptNode a r a.columns)) ∧
      w.graph.Extends w'.graph ∧ w'.steps = w.steps := by
  induction rest generalizing before w with
  | nil => exact ⟨fun _ => ⟨0⟩, w, .refl, nofun, .refl _, rfl⟩
  | cons r rest ih =>
      obtain ⟨hr, hrest⟩ := List.forall_mem_cons.mp hrest
      obtain ⟨hnew, hnodup⟩ := List.nodup_cons.mp hnodup
      let view : TaskView := .ofEntry (before.reverse ++ some (a.place r a.columns) ::
        rest.map fun r => some (a.place r a.columns)) dropStep.gate (a.place r a.columns)
      obtain ⟨task, u, hvisit, hkept, hgrown, hsteps⟩ :=
        visit_composite setup.maxSteps (v := view) ha hr hext hlimit ⟨rfl, rfl⟩ rfl
      have hdone : ¬ TaskView.Repeats { view with task := some task } (a.place r a.columns) := by
        rintro ⟨_, _, _, hagain⟩
        have honce : RepeatMode.none.contains .last = false := rfl
        exact Bool.false_ne_true (honce.symm.trans hagain)
      have hmove := Move.visit hclean hvisit hdone
      have hsame : s.report (TaskView.affects { view with task := some task }) = s :=
        report_empty haffected
      rw [hsame] at hmove
      obtain ⟨top, w', hpath, htops, hgrown', hsteps'⟩ := ih (some task :: before) hrest hnodup
        (w := u.note (listEntry before.length (a.place r a.columns) { view with task := some task }))
        (hext.trans hgrown)
      have hothers : ∀ r' ∈ rest, Function.update top r task r' = top r' := by
        intro r' hr'
        refine Function.update_of_ne ?_ _ _
        rintro rfl
        exact hnew hr'
      refine ⟨Function.update top r task, w', ?_, ?_, hgrown.trans hgrown', hsteps'.trans hsteps⟩
      · have hlist : rest.map (fun r' => some (Function.update top r task r')) =
            rest.map fun r' => some (top r') :=
          List.map_congr_left fun r' hr' => by rw [hothers r' hr']
        rw [List.map_cons, List.map_cons, hlist, Function.update_self, List.reverse_cons,
          List.append_assoc]
        exact .head hmove hpath
      · intro r' hr'
        rcases List.mem_cons.mp hr' with rfl | hr'
        · rw [Function.update_self]
          exact hgrown' _ _ hkept
        · rw [hothers r' hr']
          exact htops r' hr'

/-- The frame itself is in order. -/
theorem soundAt_frame {r : Nat} (hr : r < a.rows) :
    (frameGraph a).SoundAt (a.place r a.columns) := by
  refine Graph.soundAt_of_shallow (get?_frameGraph hr (Nat.le_refl _)) fun sub hsub => ?_
  rw [children_cellNode] at hsub
  obtain ⟨c, hc, rfl⟩ := List.mem_map.mp hsub
  have hlt := List.mem_range.mp hc
  exact ⟨_, get?_frameGraph hr (Nat.le_of_lt hlt), children_tile hlt⟩

/-- The step of the first rule: the composites are replaced by those without empty tiles. -/
theorem path_dropStep (ha : a.Ordinary) (hs : Applies setup) (hlimit : a.columns + 2 ≤ setup.visitLimit)
    (h : s.QuietAt Category.common.index 0 ((composites a).map some)) (hg : w.graph = frameGraph a)
    (hbudget : w.steps + 1 ≤ setup.maxSteps) :
    ∃ (top : Nat → TaskId) (s' : Sweep) (w' : Workspace Unit),
      Path setup ⟨.between, s, w⟩ ⟨.between, s', w'⟩ ∧
      s'.QuietAt Category.common.index 1 (((List.range a.rows).map top).map some) ∧
      Holds a w'.graph top ∧ w'.steps = w.steps + 1 := by
  have hstep : dropStep = stepAt setup .common dropper := by
    rw [stepAt, if_pos (show Category.common.simultaneous = true from rfl), hs.common]
    rfl
  have hsound : ∀ task, some task ∈ (composites a).map some → w.graph.SoundAt task := by
    intro task htask
    obtain ⟨r, hr, rfl⟩ :=
      List.mem_map.mp ((List.mem_map_of_injective (Option.some_injective _)).mp htask)
    exact hg ▸ soundAt_frame (List.mem_range.mp hr)
  obtain ⟨t, u, hentered, ht, hclean, hu⟩ :=
    h.path_enter (by rw [hs.common]; rfl) (fun _ => rfl) hstep hsound hbudget
  have hframe : u.graph = frameGraph a := hu.graph.trans hg
  have hrows : ∀ r ∈ List.range a.rows, r < a.rows := fun r hr => List.mem_range.mp hr
  obtain ⟨top, w', hvisits, htops, hgrown, hsteps⟩ := path_dropping (w := u) ha hlimit hclean
    ht.affected [] hrows List.nodup_range (hframe ▸ .refl _)
  have hlist : t.list = (List.range a.rows).map fun r => some (a.place r a.columns) := by
    rw [ht.entries, composites, List.map_map]
    rfl
  rw [List.append_nil, ← hlist] at hvisits
  refine ⟨top, _, w', (((hentered.tail (.skip hclean rfl)).tail (.descend hclean rfl)).trans
    hvisits).tail (.finish hclean), ?_, ?_, hsteps.trans hu.steps⟩
  · exact { ht with
      nextRule := congrArg (· + 1) ht.nextRule
      entries := by
        dsimp only [behind]
        rw [List.reverse_reverse, List.map_map]
        rfl }
  · intro r hr c hc
    rcases Nat.lt_or_eq_of_le hc with hc | rfl
    · rw [spot, if_pos hc, keptNode_tile hc]
      exact hgrown _ _ (hframe ▸ get?_frameGraph hr (Nat.le_of_lt hc))
    · rw [spot, if_neg (Nat.lt_irrefl _)]
      exact htops r (List.mem_range.mpr hr)

/-- The step of the second rule: the trees are laid out in a row. -/
theorem path_listStep (ha : a.Ordinary) (hs : Applies setup) {top : Nat → TaskId}
    (h : s.QuietAt Category.linear.index 0 (((List.range a.rows).map top).map some))
    (hg : Holds a w.graph top) (hbudget : w.steps + 1 ≤ setup.maxSteps) :
    ∃ s' w', Path setup ⟨.between, s, w⟩ ⟨.between, s', w'⟩ ∧
      s'.QuietAt Category.linear.index 1 ((order a top).map some) ∧
      w'.graph = w.graph ∧ w'.steps = w.steps + 1 := by
  have hstep : (⟨.linear, [lister]⟩ : Step Unit) = stepAt setup .linear lister := by
    rw [stepAt, if_neg (by decide)]
  have hsound : ∀ task, some task ∈ ((List.range a.rows).map top).map some →
      w.graph.SoundAt task := by
    intro task htask
    obtain ⟨r, hr, rfl⟩ :=
      List.mem_map.mp ((List.mem_map_of_injective (Option.some_injective _)).mp htask)
    have htop := hg.soundAt ha (List.mem_range.mp hr) (Nat.le_refl _)
    rwa [spot, if_neg (Nat.lt_irrefl _)] at htop
  obtain ⟨t, u, hentered, ht, hclean, hu⟩ :=
    h.path_enter (by rw [hs.linear]; rfl) (fun _ => rfl) hstep hsound hbudget
  have horder : u.graph.postOrder t.list = .ok (order a top) := by
    rw [hu.graph, ht.entries]
    exact hg.postOrder ha
  have hanswer : answer (⟨.linear, [lister]⟩ : Step Unit).gate lister t u =
      { call := ⟨u.user, u.graph, (order a top).map some,
          (⟨.linear, [lister]⟩ : Step Unit).gate, ∅⟩ } := by
    simp only [answer, lister, linearize, horder]
  have hreported : (record (⟨.linear, [lister]⟩ : Step Unit).gate lister t u).reported = ∅ := by
    simp only [record, hanswer]
    split <;> rfl
  have hcall : Move setup ⟨.listing ⟨.linear, [lister]⟩ [lister], t, u⟩
      ⟨.listing ⟨.linear, [lister]⟩ [], _, _⟩ := .call hclean rfl (by rw [hanswer])
  rw [hreported, report_empty (s := withList _ _ t u) ht.affected] at hcall
  refine ⟨_, _, (hentered.tail hcall).tail (.finishList hclean rfl), ?_, ?_, hu.steps⟩
  · exact { ht with
      nextRule := congrArg (· + 1) ht.nextRule
      entries := by rw [behind, withList, hanswer] }
  · show (answer _ lister t u).call.graph = _
    rw [hanswer]
    exact hu.graph

/-- **Nine steps and no way back.** -/
theorem optimize_frame (ha : a.Ordinary) (hs : Applies setup) (hbudget : 9 ≤ setup.maxSteps)
    (hlimit : a.columns + 2 ≤ setup.visitLimit) :
    let done := setup.optimize () (frameGraph a) ((composites a).map some)
    ∃ top, done.result = .ok ⟨9, 0⟩ ∧ done.list = (order a top).map some ∧
      Holds a done.graph top := by
  obtain ⟨top, s₁, w₁, hpath₁, h₁, hholds, hsteps₁⟩ := path_dropStep ha hs hlimit
    (w := ⟨(), frameGraph a, 0, []⟩) (quietAt_start _) rfl (by dsimp only; omega)
  replace hsteps₁ : w₁.steps = 1 := hsteps₁
  obtain ⟨s₂, w₂, hpath₂, h₂, hw₂⟩ := h₁.path_settle (w := w₁) (by rw [hs.common]; rfl) (by omega)
  have hsteps₂ := hw₂.steps
  -- four categories without rules stand between those of the two rules, and one behind them
  have hbetween : [.preSpecialize, .specialize, .postSpecialize, .convert] <+:
      Category.all.drop 1 := by decide
  obtain ⟨s₃, w₃, hpath₃, h₃, hw₃⟩ := QuietAt.path_skip (w := w₂) hbetween
    (hs.eq_nil (by decide) (by decide)) h₂ (show w₂.steps + 4 ≤ setup.maxSteps by omega)
  have hsteps₃ : w₃.steps = w₂.steps + 4 := hw₃.steps
  have hgraph₃ : w₃.graph = w₁.graph := hw₃.graph.trans hw₂.graph
  obtain ⟨s₄, w₄, hpath₄, h₄, hgraph₄, hsteps₄⟩ :=
    path_listStep ha hs h₃ (hgraph₃ ▸ hholds) (by omega)
  obtain ⟨s₅, w₅, hpath₅, h₅, hw₅⟩ := h₄.path_settle (w := w₄) (by rw [hs.linear]; rfl) (by omega)
  have hsteps₅ := hw₅.steps
  have hbehind : [.list] <+: Category.all.drop 6 := by decide
  obtain ⟨s₆, w₆, hpath₆, h₆, hw₆⟩ := QuietAt.path_skip (w := w₅) hbehind
    (hs.eq_nil (by decide) (by decide)) h₅ (show w₅.steps + 1 ≤ setup.maxSteps by omega)
  have hsteps₆ : w₆.steps = w₅.steps + 1 := hw₆.steps
  have hgraph : w₆.graph = w₁.graph := by rw [hw₆.graph, hw₅.graph, hgraph₄, hgraph₃]
  have hpath := ((((hpath₁.trans hpath₂).trans hpath₃).trans hpath₄).trans hpath₅).trans hpath₆
  rw [QuietAt.optimize_eq h₆ hpath]
  refine ⟨top, ?_, ?_, hgraph ▸ hholds⟩
  · dsimp only
    congr 2
    omega
  · dsimp only
    rw [List.filter_eq_self]
    intro entry hentry
    obtain ⟨id, -, rfl⟩ := List.mem_map.mp hentry
    rfl

end Running

end RenderPlan.Bench
