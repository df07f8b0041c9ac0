/-
# RenderPlan.Hazard.Plan -- what each task of a list has to wait for

A task writes the rectangle of its target and reads what its sub-tasks write. Two tasks conflict
when they touch a common pixel of a buffer and at least one of them writes it: both write it, or
one writes what the other reads. `Conflicts` says so; `conflict` decides it, and meets a fault when
it has to look at a sub-task that does not exist.

A task of a list has to wait for every earlier one that it conflicts with. The plan records as few
edges as say so: the earlier tasks are looked at from the nearest to the farthest, and one that is
already ordered by the edges chosen before gets no edge. What is ordered is told by stamps. Each
position of the list carries one, and all tasks share them, so each task stamps with its own
position. An edge stamps the position that it leads to and whatever edges lead to from there.
-/
import RenderPlan.Graph.Basic

namespace RenderPlan

/-! ## Conflicts -/

namespace Graph

/-- `r` is a sub-task of `n`. -/
def Reads (g : Graph) (n r : Node) : Prop := ∃ id ∈ n.children, g.get? id = some r

/-- The later task touches pixels that the earlier one writes, or writes what the earlier one
reads. -/
def Conflicts (g : Graph) (earlier later : Node) : Prop :=
  later.Overlaps earlier ∨ (∃ r, g.Reads later r ∧ r.Overlaps earlier) ∨
    (∃ r, g.Reads earlier r ∧ later.Overlaps r)

/-- Whether one of the nodes satisfies a test. The nodes are looked up one by one, and none behind
the first that does. -/
def anyNode (g : Graph) (test : Node → Bool) : List TaskId → Except Fault Bool
  | [] => .ok false
  | id :: ids => do
    let n ← g.fetch id
    if test n then return true else g.anyNode test ids

/-- Whether the tasks conflict. -/
def conflict (g : Graph) (earlier later : Node) : Except Fault Bool := do
  if later.Overlaps earlier then return true
  if ← g.anyNode (fun r => r.Overlaps earlier) later.children then return true
  g.anyNode (fun r => later.Overlaps r) earlier.children

end Graph

/-! ## Edges -/

/-- The edges of a list. -/
structure HazardPlan where
  /-- For each position the positions it waits for. -/
  deps : List (List Nat)
  deriving DecidableEq, Repr

namespace HazardPlan

/-- How many edges there are. -/
def edges (p : HazardPlan) : Nat := (p.deps.map List.length).foldr (· + ·) 0

/-- The positions that an entry waits for. -/
def depsOf (p : HazardPlan) (i : Nat) : List Nat := p.deps[i]?.getD []

/-- A task of the list for which the edges are chosen. -/
structure Planned where
  node : Node
  /-- The positions that the task waits for, from the nearest to the farthest. -/
  deps : List Nat

/-- For each position of the list the task that stamped it last. -/
abbrev Stamps := Array (Option Nat)

/-- The positions that a planned task waits for. -/
def edgesFrom (planned : Array Planned) (x : Nat) : List Nat := (planned[x]?.map Planned.deps).getD []

/-- How much there is to do with positions that do not carry the stamp of the task at `i`: each has to
be stamped, and its edges have to be followed. The stamps are those of the positions from `x` on. -/
def workAhead (planned : Array Planned) (i : Nat) : Nat → List (Option Nat) → Nat
  | _, [] => 0
  | x, stamp :: stamps =>
    (if stamp = some i then 0 else (edgesFrom planned x).length + 1) + workAhead planned i (x + 1) stamps

/-- When a position is stamped, its work is no longer ahead. -/
theorem workAhead_set (planned : Array Planned) {i x : Nat} {stamps : List (Option Nat)} (k : Nat)
    (hk : k < stamps.length) (hnew : stamps[k] ≠ some i) :
    workAhead planned i x (stamps.set k (some i)) + ((edgesFrom planned (x + k)).length + 1) =
      workAhead planned i x stamps := by
  induction stamps generalizing x k with
  | nil => exact absurd hk (Nat.not_lt_zero k)
  | cons stamp stamps ih =>
      cases k with
      | zero =>
          have hnew : stamp ≠ some i := hnew
          rw [List.set_cons_zero, workAhead, workAhead, if_pos rfl, if_neg hnew, Nat.add_zero x]
          omega
      | succ k =>
          have hrest := ih (x := x + 1) k (Nat.lt_of_succ_lt_succ hk) hnew
          rw [Nat.add_right_comm x 1 k, Nat.add_assoc x k 1] at hrest
          rw [List.set_cons_succ, workAhead, workAhead]
          omega

/-- Stamps the positions on the stack, and all that edges lead to from there. A position that
carries the stamp already is passed over. Nothing outside the list gets on the stack. -/
def stampAll (planned : Array Planned) (i : Nat) (stamps : Stamps) : List Nat → Stamps
  | [] => stamps
  | x :: stack =>
    if _new : x < stamps.size ∧ stamps[x]? ≠ some (some i) then
      stampAll planned i (stamps.setIfInBounds x (some i)) ((edgesFrom planned x).reverse ++ stack)
    else stampAll planned i stamps stack
  termination_by stack => workAhead planned i 0 stamps.toList + stack.length
  decreasing_by
    · have hx : x < stamps.toList.length := by simpa using _new.1
      have hnew : stamps.toList[x] ≠ some i := by simpa [_new.1] using _new.2
      have hwork := workAhead_set planned (x := 0) x hx hnew
      rw [Nat.zero_add] at hwork
      simp only [Array.toList_setIfInBounds, List.length_append, List.length_reverse, List.length_cons]
      omega
    · simp

/-- Chooses edges from a task at position `i` to the tasks in front of a position, the nearest
first. -/
def choose (g : Graph) (planned : Array Planned) (i : Nat) (later : Node) :
    Nat → Stamps → Except Fault (List Nat × Stamps)
  | 0, stamps => .ok ([], stamps)
  | k + 1, stamps =>
    match planned[k]? with
    | none => choose g planned i later k stamps
    | some earlier => do
      if stamps[k]? = some (some i) then choose g planned i later k stamps
      else if ← g.conflict earlier.node later then
        let (deps, stamps) ← choose g planned i later k (stampAll planned i stamps [k])
        return (k :: deps, stamps)
      else choose g planned i later k stamps

/-- The next task of the list. One without target and without slots touches nothing. -/
def planNext (g : Graph) (planned : Array Planned) (stamps : Stamps) (id : TaskId) :
    Except Fault (Planned × Stamps) := do
  let n ← g.fetch id
  let i := planned.size
  let (deps, stamps) ←
    if n.target.isSome || !n.subTasks.isEmpty then choose g planned i n i stamps
    else pure ([], stamps)
  return (⟨n, deps⟩, stamps)

/-- Plans a list behind the tasks that are planned already. -/
def planFrom (g : Graph) (planned : Array Planned) (stamps : Stamps) :
    List TaskId → Except Fault (Array Planned)
  | [] => .ok planned
  | id :: ids => do
    let (p, stamps) ← planNext g planned stamps id
    planFrom g (planned.push p) stamps ids

/-- The edges of a list. -/
def ofList (g : Graph) (list : List TaskId) : Except Fault HazardPlan := do
  let planned ← planFrom g #[] (Array.replicate list.length none) list
  return ⟨planned.toList.map Planned.deps⟩

end HazardPlan

end RenderPlan
