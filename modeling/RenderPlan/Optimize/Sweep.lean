/-
# RenderPlan.Optimize.Sweep -- from category to category until all are settled

A sweep holds the set of categories that are still to be processed. It goes through the categories
in order and, in a category that is in the set, through its rules in steps: all rules at once in a
simultaneous category, else one rule a step. When the last rule is done the category leaves the
set, unless one of its own rules unsettled it in the meantime. Whatever a rule unsettles goes back
into the set, and when a step finds that a category its rules rely on is in the set, the sweep
starts again from the first category.

Each turn takes one step out of the budget, also one that only passes over a category, and so does
each repeated visit of a place. The sweep ends when the set is empty. It ends by no other test: a
bit that names no category stays in the set for ever, and then the budget runs out.
-/
import RenderPlan.Optimize.Visit
import RenderPlan.Graph.Show

namespace RenderPlan

/-- Rules and limits of an optimization. -/
structure Setup (σ : Type) where
  /-- What a registered identity stands for. -/
  rules : RuleId → Rule σ
  registry : Registry
  maxSteps : Nat
  /-- Log the list before each step. -/
  logSteps : Bool
  /-- How deep visits may nest, and how many slots of one node they may look at. -/
  visitLimit : Nat

/-- Where a sweep stands. -/
structure Sweep where
  /-- The position of the category in processing order; one too many after the last. -/
  position : Nat
  /-- The first rule of the next step. -/
  nextRule : Nat
  /-- What the present pass over the category unsettled. -/
  affected : Mask
  /-- The categories that are still to be processed. -/
  pending : Mask
  list : List (Option TaskId)
  restarts : Nat
  /-- Turns taken. -/
  turns : Nat
  stopped : Option Stop

namespace Sweep

/-- The sweep over a list, with every category to be processed. -/
def start (list : List (Option TaskId)) : Sweep := ⟨0, 0, ∅, .full, list, 0, 0, none⟩

/-- Back to the first rule of the first category. -/
def rewind (s : Sweep) : Sweep := { s with position := 0, nextRule := 0, affected := ∅ }

/-- Back to the first category because something there is unsettled. -/
def restart (s : Sweep) : Sweep := { s.rewind with restarts := s.restarts + 1 }

/-- On to the next category. -/
def advance (s : Sweep) : Sweep :=
  { s with position := s.position + 1, nextRule := 0, affected := ∅ }

/-- The category is done; it stays in the set if the pass unsettled it. -/
def settle (c : Category) (s : Sweep) : Sweep :=
  { s with pending := (s.pending \ c.mask) ∪ s.affected }.advance

/-- Takes in what a rule unsettled. -/
def report (m : Mask) (s : Sweep) : Sweep :=
  { s with affected := s.affected ∪ m, pending := s.pending ∪ (s.affected ∪ m) }

/-- The sweep, stopped. -/
def halt (stop : Stop) (s : Sweep) : Sweep := { s with stopped := some stop }

end Sweep

/-- A step: rules of one category that run together. -/
structure Step (σ : Type) where
  category : Category
  members : List (Member σ)

namespace Step

variable {σ : Type}

/-- The categories before its own that some rule of the step relies on. -/
def gate (step : Step σ) : Mask :=
  step.members.foldl (fun acc m => acc ∪ (step.category.below ∩ m.rule.descriptor.dependsFrom)) ∅

/-- Some rule transforms tasks at any depth. -/
def forTask (step : Step σ) : Bool := step.members.any fun m => m.rule.descriptor.forTask

/-- Some rule transforms entries of the list. -/
def forEntries (step : Step σ) : Bool :=
  step.members.any fun m => m.rule.descriptor.forTask || m.rule.descriptor.forRootTask

end Step

namespace Sweep

open Work

variable {σ : Type}

/-! ## The list as a whole -/

/-- Calls a rule for the list. What it does to the list remains even if it gives up. -/
def callListRule (gate : Mask) (m : Member σ) (s : Sweep) : StateM (Workspace σ) Sweep := do
  let w ← get
  let answer := m.rule.runList ⟨w.user, w.graph, s.list, gate, ∅⟩
  let after := answer.call
  let changed : Bool := after.list ≠ s.list
  let reported := if changed then after.affects ∪ m.rule.descriptor.affects else after.affects
  set { w with
    user := after.user
    graph := after.graph
    journal := .call ⟨m.id, .list s.list, reported, changed⟩ :: w.journal }
  let s := { s with list := after.list }
  match answer.fault with
  | some f => return s.halt (.fault f)
  | none => return s.report reported

/-- Calls the list rules of a step in order, as long as all that the step relies on is settled. -/
def listRules (gate : Mask) : List (Member σ) → Sweep → StateM (Workspace σ) Sweep
  | [], s => return s
  | m :: rest, s => do
    if s.pending.intersects gate then return s
    if m.rule.descriptor.forList then
      let s ← callListRule gate m s
      if s.stopped.isSome then return s
      listRules gate rest s
    else listRules gate rest s

/-! ## The entries one by one -/

/-- Visits an entry until it asks for no further visit, and answers what then stands in its place.
`before` are the entries in front of it, the latest first. -/
def visitEntry (setup : Setup σ) (step : Step σ) (before after : List (Option TaskId)) :
    Nat → TaskId → Sweep → StateM (Workspace σ) (Sweep × Option TaskId)
  | 0, task, s => return (s.halt .exhausted, some task)
  | visits + 1, task, s => do
    let list := before.reverse ++ some task :: after
    let view := TaskView.ofEntry list step.gate task
    match ← (Visit.visit setup.maxSteps step.members step.forTask setup.visitLimit view).run with
    | .error stop => return (s.halt stop, some task)
    | .ok seen =>
      modify (Workspace.note (.visit (.entry before.length) task seen.task seen.mode))
      let s := s.report seen.affects
      match seen.task with
      | none => return (s, none)
      | some new =>
        if new ≠ task ∧ seen.mode.contains .last then
          match ← (spend setup.maxSteps).run with
          | .error stop => return (s.halt stop, some new)
          | .ok () =>
            if s.pending.intersects step.gate then return (s, some new)
            visitEntry setup step before after visits new s
        else return (s, some new)

/-- Visits the entries from left to right, as long as all that the step relies on is settled.
Holes and removed entries are taken out. -/
def visitEntries (setup : Setup σ) (step : Step σ) :
    List (Option TaskId) → List (Option TaskId) → Sweep → StateM (Workspace σ) Sweep
  | before, [], s => return { s with list := before.reverse }
  | before, entry :: after, s => do
    if s.pending.intersects step.gate then
      return { s with list := before.reverse ++ entry :: after }
    match entry with
    | none => visitEntries setup step before after s
    | some task =>
      let (s, kept) ← visitEntry setup step before after (setup.maxSteps + 1) task s
      let before := match kept with
        | some task => some task :: before
        | none => before
      if s.stopped.isSome then return { s with list := before.reverse ++ after }
      visitEntries setup step before after s

/-! ## Steps and turns -/

/-- Logs the list, if this is wanted. -/
def logList (setup : Setup σ) (s : Sweep) : StateM (Workspace σ) Sweep := do
  if setup.logSteps then
    let title := "before optimize category " ++ toString s.position ++ " index " ++
      toString s.nextRule
    match (← get).graph.dump s.list title with
    | .ok lines =>
      modify (Workspace.note (.dump lines))
      return s
    | .error f => return s.halt (.fault f)
  else return s

/-- Goes back to the first category. -/
def restartFor (cause : RestartCause) (s : Sweep) : StateM (Workspace σ) Sweep := do
  modify (Workspace.note (.restart cause))
  return s.restart

/-- Runs the rules of a step over the list and then over its entries. Afterwards the sweep is
behind the step, or back at the first category if something the step relies on was unsettled. -/
def runStep (setup : Setup σ) (step : Step σ) (s : Sweep) : StateM (Workspace σ) Sweep := do
  modify (Workspace.note
    (.step step.category s.nextRule (step.members.map Member.id) step.gate))
  let s ← logList setup s
  if s.stopped.isSome then return s
  let s ← listRules step.gate step.members s
  if s.stopped.isSome then return s
  let s ← if step.forEntries then visitEntries setup step [] s.list s else pure s
  if s.stopped.isSome then return s
  if s.pending.intersects step.gate then
    restartFor (.gateDirty step.category (s.pending ∩ step.gate)) s
  else return { s with nextRule := s.nextRule + step.members.length }

/-- The rules of a category with their identities. -/
def members (setup : Setup σ) (c : Category) : List (Member σ) :=
  (setup.registry.rules c).map fun id => ⟨id, setup.rules id⟩

/-- Runs the next step of a category, or finds that there is none and settles it. A rule that
relies on its own category is not started when this pass already unsettled it. -/
def runCategory (setup : Setup σ) (c : Category) (s : Sweep) : StateM (Workspace σ) Sweep := do
  let all := members setup c
  match all[s.nextRule]? with
  | none =>
    modify (Workspace.note (.settled c))
    return s.settle c
  | some next =>
    if c.simultaneous then runStep setup ⟨c, all⟩ s
    else if s.affected.intersects (next.rule.descriptor.dependsFrom ∩ c.mask) then
      restartFor (.selfDirty c next.rule.name) s
    else runStep setup ⟨c, [next]⟩ s

/-- One turn: process the present category if it is in the set, else pass over it; behind the last
category go back to the first. -/
def turn (setup : Setup σ) (s : Sweep) : StateM (Workspace σ) Sweep :=
  let s := { s with turns := s.turns + 1 }
  match Category.ofIndex? s.position with
  | none => return s.rewind
  | some c => if s.pending.contains c.mask then runCategory setup c s else return s.advance

/-- Turns until the set is empty, at most `turns` of them. Since each turn takes a step out of the
budget, a bound of one more than the budget is never the reason to stop. -/
def run (setup : Setup σ) : Nat → Sweep → StateM (Workspace σ) Sweep
  | 0, s => return s.halt .exhausted
  | turns + 1, s => do
    if s.pending.isEmpty then return s
    match ← (spend setup.maxSteps).run with
    | .error stop => return s.halt stop
    | .ok () =>
      let s ← turn setup s
      if s.stopped.isSome then return s
      run setup turns s

end Sweep

/-! ## The whole optimization -/

/-- Counters of a completed optimization. -/
structure OptimizeStats where
  /-- Turns of the sweep and repeated visits. -/
  steps : Nat
  /-- How often the sweep went back to the first category for something unsettled. -/
  restarts : Nat
  deriving DecidableEq, Repr

/-- What is left behind by an optimization, completed or not. -/
structure Optimized (σ : Type) where
  result : Except Stop OptimizeStats
  list : List (Option TaskId)
  user : σ
  graph : Graph
  journal : Journal
  /-- Turns of the sweep. -/
  turns : Nat

namespace Setup

variable {σ : Type}

/-- A limit on visits that no tree of practical size comes near. -/
def defaultVisitLimit : Nat := 0x1000000000000000

/-- Transforms a list and the trees below it until no category is unsettled. A completed
optimization leaves no holes in the list; one that stopped leaves the list as it was at that
moment. -/
def optimize (setup : Setup σ) (user : σ) (graph : Graph) (list : List (Option TaskId)) :
    Optimized σ :=
  let (s, w) := (Sweep.run setup (setup.maxSteps + 1) (.start list)).run ⟨user, graph, 0, []⟩
  match s.stopped with
  | none =>
    ⟨.ok ⟨w.steps, s.restarts⟩, s.list.filter Option.isSome, w.user, w.graph, w.journal, s.turns⟩
  | some stop => ⟨.error stop, s.list, w.user, w.graph, w.journal, s.turns⟩

end Setup

end RenderPlan
