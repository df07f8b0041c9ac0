/-
# RenderPlan.Optimize.Visit -- one visit of a task tree

A visit applies the rules of one step to a task: first the rules that come before the sub-tasks,
then the visit of each sub-task from left to right, then the rules that come after. It ends early
when the task is gone or a category that the rules rely on was unsettled.

Nodes that exist are never changed. When the first sub-task comes back changed, the visit takes one
copy of the node, and that copy receives all changed slots from then on.

A visit is bounded by a limit on nested visits and on the slots looked at in one node. The limit is
no part of the budget: rules that keep growing a tree below the present place are stopped by
nothing else, and running into the limit is an outcome of its own.
-/
import RenderPlan.Optimize.Journal

namespace RenderPlan

/-- Why an optimization ended before its end. -/
inductive Stop where
  /-- The step budget was used up. -/
  | exhausted
  /-- A fault, of the trees or of a rule. -/
  | fault (f : Fault)
  /-- The limit on visits was reached. -/
  | visitLimit
  deriving DecidableEq, Repr

/-- What an optimization works on, apart from the list: what the rules remember, the graph, the
steps spent, and the journal. -/
structure Workspace (σ : Type) where
  user : σ
  graph : Graph
  steps : Nat
  journal : Journal

/-- The workspace with one more event in the journal. -/
def Workspace.note {σ : Type} (e : Entry) (w : Workspace σ) : Workspace σ :=
  { w with journal := e :: w.journal }

/-- A part of an optimization. It may stop, and what it did to the workspace before remains. -/
abbrev Work (σ α : Type) := ExceptT Stop (StateM (Workspace σ)) α

namespace Work

variable {σ : Type}

/-- Takes one step out of a budget. The step that goes beyond it stops the optimization. -/
def spend (maxSteps : Nat) : Work σ Unit := do
  modify fun w => { w with steps := w.steps + 1 }
  if maxSteps < (← get).steps then
    modify (Workspace.note (.exhausted maxSteps))
    throw .exhausted

/-- The node with an id; a missing one stops the optimization. -/
def fetch (id : TaskId) : Work σ Node := do
  match (← get).graph.get? id with
  | some n => return n
  | none => throw (.fault (.missingTask id))

/-- Adds a copy of a node to the graph. -/
def copy (id : TaskId) : Work σ TaskId := do
  let n ← fetch id
  modifyGet fun w => (w.graph.nextId, { w with graph := w.graph.insert n })

/-- Writes a slot of a node. -/
def setSlot (id : TaskId) (slot : Nat) (sub : Option TaskId) : Work σ Unit := do
  let n ← fetch id
  if slot < n.subTasks.length then
    modify fun w => { w with
      graph := w.graph.modify id fun n => { n with subTasks := n.subTasks.set slot sub } }
  else throw (.fault (.missingSlot id slot))

end Work

/-- A rule with its identity. -/
structure Member (σ : Type) where
  id : RuleId
  rule : Rule σ

namespace Visit

open Work

variable {σ : Type}

/-- Calls a rule for a task. The categories of its descriptor count as unsettled when the task was
replaced or removed; the list, the gate and the parent stay what they were. -/
def callRule (m : Member σ) (v : TaskView) : Work σ TaskView := do
  let w ← get
  let answer := m.rule.runTask ⟨w.user, w.graph, v⟩
  let after := answer.call.view
  let changed : Bool := after.task ≠ v.task
  let reported := if changed then after.affects ∪ m.rule.descriptor.affects else after.affects
  set { w with
    user := answer.call.user
    graph := answer.call.graph
    journal := .call ⟨m.id, .task v, reported, changed⟩ :: w.journal }
  match answer.fault with
  | some f => throw (.fault f)
  | none =>
    return { v with
      task := after.task
      affects := v.affects ∪ reported
      mode := v.mode ∪ after.mode }

/-- Applies those rules that come before the sub-tasks, or those that come after. The answer says
whether the visit goes on. -/
def applyRules (deepFirst : Bool) : List (Member σ) → TaskView → Work σ (TaskView × Bool)
  | [], v => return (v, true)
  | m :: rest, v => do
    let d := m.rule.descriptor
    if d.deepFirst = deepFirst ∧ d.appliesToTask v.parent.isSome then
      let v ← callRule m v
      if v.isStale then return (v, false) else applyRules deepFirst rest v
    else applyRules deepFirst rest v

/-- Takes over what the visit of a sub-task reported. A request to repeat is handed on only if it
says so, and then as a whole. -/
def absorb (v seen : TaskView) : TaskView :=
  { v with
    affects := v.affects ∪ seen.affects
    mode := if seen.mode.contains .parent then v.mode ∪ seen.mode else v.mode }

/-- Visits the sub-tasks of a node from the slot `i` on. `copied` tells whether the node was copied
for the sake of an earlier slot. The answer says whether all slots were done. -/
def visitSlots (maxSteps : Nat) (visitChild : TaskView → Work σ TaskView) :
    Nat → Bool → Nat → TaskView → Work σ (TaskView × Bool)
  | 0, _, _, _ => throw .visitLimit
  | limit + 1, copied, i, v => do
    match v.task with
    | none => return (v, false)
    | some task =>
      let n ← fetch task
      match n.subTasks[i]? with
      | none => return (v, true)
      | some none => visitSlots maxSteps visitChild limit copied (i + 1) v
      | some (some child) =>
        let seen ← visitChild (v.ofChild child)
        modify (Workspace.note (.visit (.slot task i) child seen.task seen.mode))
        if seen.task = some child then
          let v := absorb v seen
          if v.affects.intersects v.gate then return (v, false)
          else visitSlots maxSteps visitChild limit copied (i + 1) v
        else
          let parent ← if copied then pure task else copy task
          setSlot parent i seen.task
          let again := seen.mode.contains .last
          if again then spend maxSteps
          let v := absorb { v with task := some parent } seen
          if v.affects.intersects v.gate then return (v, false)
          else visitSlots maxSteps visitChild limit true (if again then i else i + 1) v

/-- Visits a task; with `deep` off its sub-tasks are left alone. -/
def visit (maxSteps : Nat) (rules : List (Member σ)) (deep : Bool) :
    Nat → TaskView → Work σ TaskView
  | 0, _ => throw .visitLimit
  | limit + 1, v => do
    if v.isStale then return v
    let (v, goesOn) ← applyRules false rules v
    if !goesOn then return v
    let (v, goesOn) ←
      if deep then visitSlots maxSteps (visit maxSteps rules deep limit) limit false 0 v
      else pure (v, true)
    if !goesOn then return v
    let (v, _) ← applyRules true rules v
    return v

end Visit

end RenderPlan
