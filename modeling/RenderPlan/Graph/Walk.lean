/-
# RenderPlan.Graph.Walk -- trees, and their nodes as a list

`Tree` is the unfolding of a node, and `Graph.unfold` computes it: a node that is reached twice stands
in two places. `Graph.postOrder` lists every node below a list of entries once, each behind all its
sub-tasks, in the order in which a walk from left to right is done with them.

Both go down at most as many levels as the graph has nodes: on a graph without cycles no path is longer.
-/
import RenderPlan.Graph.Basic

namespace RenderPlan

/-- An unfolded task tree: a hole, or a node and its slots in order. -/
inductive Tree where
  | hole
  | node (id : TaskId) (slots : List Tree)

namespace Graph

/-- The unfolding of a slot, down to `depth` levels of nodes. -/
def unfold (g : Graph) : Nat → Option TaskId → Except Fault Tree
  | _, none => .ok .hole
  | 0, some _ => .error .endless
  | depth + 1, some id => do
    let n ← g.fetch id
    return .node id (← n.subTasks.mapM (g.unfold depth))

/-- Adds what lies below `id`, and then `id`, to the nodes listed so far, the latest first. The walk
goes down everywhere, also below a node that is listed already, and lists a node when it is done with
it for the first time. So the list has the nodes of the unfolding, without repetitions
(`postOrder_eq`). -/
def place (g : Graph) : Nat → TaskId → List TaskId → Except Fault (List TaskId)
  | 0, _, _ => .error .endless
  | depth + 1, id, placed => do
    let n ← g.fetch id
    let placed ← n.children.foldlM (fun placed sub => g.place depth sub placed) placed
    return if id ∈ placed then placed else id :: placed

/-- Every node below the entries, sub-tasks first; holes are left out. -/
def postOrder (g : Graph) (list : List (Option TaskId)) : Except Fault (List TaskId) := do
  let placed ← (list.filterMap id).foldlM (fun placed id => g.place (g.size + 1) id placed) []
  return placed.reverse

end Graph

end RenderPlan
