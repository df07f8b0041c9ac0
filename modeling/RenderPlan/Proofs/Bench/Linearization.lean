/-
# RenderPlan.Proofs.Bench.Linearization -- any list can be made linear

`linearize` is the rule of the benchmark that turns trees into a list. On the frame it only meets trees
of two levels. Here it is looked at on its own: whatever the trees are, with nodes that several of them
share, with holes, and with entries that lie below other entries, the list becomes a complete
topological order of what lies below its entries. Once it is in such an order the rule leaves it alone,
so a sweep with this rule comes to rest.
-/
import RenderPlan.Bench.Frame
import RenderPlan.Proofs.Graph.PostOrder

namespace RenderPlan.Bench

/-- What the rule does to a list that has a post-order. -/
theorem runList_linearize {c : ListCall Unit} {order : List TaskId}
    (h : c.graph.postOrder c.list = .ok order) :
    linearize.runList c = { call := { c with list := order.map some } } := by
  simp only [linearize, h]

/-- **Linearizing makes a complete topological order.** On every well-formed list the rule does not
give up and changes nothing but the list. The new list has no holes, and it has every task that can be
reached from the entries once and no other task. All sub-tasks of a task stand in front of it, and the
tasks stand in the order in which a walk from left to right through the unfolded entries is done with
them for the first time. Called again, the rule leaves this list as it is. -/
theorem linearize_flattens (c : ListCall Unit) (h : c.graph.WellFormed (c.list.filterMap id)) :
    ∃ order, linearize.runList c = { call := { c with list := order.map some } } ∧
      c.graph.Flattens c.list order ∧
      linearize.runList { c with list := order.map some } =
        { call := { c with list := order.map some } } := by
  have hsound : ∀ task, some task ∈ c.list → c.graph.SoundAt task :=
    fun task htask => h task (List.mem_filterMap.mpr ⟨_, htask, rfl⟩)
  obtain ⟨order, horder, hflattens⟩ := Graph.exists_postOrder hsound
  exact ⟨order, runList_linearize horder, hflattens, runList_linearize (hflattens.postOrder_eq hsound)⟩

/-! ### Entries below entries

The last entry is above all others, two of its sub-tasks share one of their own, and one of these
stands in front of everything else in the list. -/

/-- A task above others. -/
def above (slots : List (Option TaskId)) : Node :=
  { Node.ofKind ⟨0, "task", none, {}⟩ with subTasks := slots }

/-- Two leaves below a task with a hole, and a task above this one and a leaf. -/
def tangled : Graph :=
  ⟨#[above [], above [], above [some ⟨0⟩, none, some ⟨1⟩], above [some ⟨2⟩, some ⟨0⟩]]⟩

/-- Its list. -/
def tangledCall : ListCall Unit := ⟨(), tangled, [some ⟨1⟩, none, some ⟨3⟩, some ⟨2⟩, some ⟨3⟩], ∅, ∅⟩

theorem linearize_flattens_tangled :
    tangled.WellFormed (tangledCall.list.filterMap id) ∧
      (linearize.runList tangledCall).call.list = [some ⟨1⟩, some ⟨0⟩, some ⟨2⟩, some ⟨3⟩] ∧
      tangled.Flattens tangledCall.list [⟨1⟩, ⟨0⟩, ⟨2⟩, ⟨3⟩] := by
  have hwf : tangled.WellFormed (tangledCall.list.filterMap id) :=
    Graph.wellFormed_of_older (by decide) (by decide)
  have hlist : (linearize.runList tangledCall).call.list =
      [some ⟨1⟩, some ⟨0⟩, some ⟨2⟩, some ⟨3⟩] := by decide +kernel
  obtain ⟨order, hrun, hflattens, -⟩ := linearize_flattens tangledCall hwf
  have horder : order.map some = [⟨1⟩, ⟨0⟩, ⟨2⟩, ⟨3⟩].map some := by
    rw [hrun] at hlist
    exact hlist
  exact ⟨hwf, hlist, (List.map_inj_right fun _ _ => Option.some.inj).mp horder ▸ hflattens⟩

end RenderPlan.Bench
