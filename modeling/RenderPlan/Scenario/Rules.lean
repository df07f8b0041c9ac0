/-
# RenderPlan.Scenario.Rules -- rules described by data

A scripted rule is a list of clauses for tasks and one for lists. A call performs the actions of
the first clause whose conditions hold, and nothing if there is none. What the rules remember is a
`Ledger`: how often each clause was chosen, how often each rule was called, and the first calls as
they looked when they began.
-/
import RenderPlan.Optimize.Sweep
import RenderPlan.Graph.Walk

namespace RenderPlan.Scenario

/-! ## Changes of nodes -/

/-- New values for some of the fields of a node. -/
structure Patch where
  rect : Option Rect := none
  target : Option (Option Buffer) := none
  bounds : Option (Option Bounds) := none
  subTasks : Option (List (Option TaskId)) := none

namespace Patch

/-- The node with the new values. -/
def apply (p : Patch) (n : Node) : Node :=
  { n with
    rect := p.rect.getD n.rect
    target := p.target.getD n.target
    bounds := p.bounds.getD n.bounds
    subTasks := p.subTasks.getD n.subTasks }

end Patch

/-- A node with a kind of its own that differs in the name. -/
def relabelled (s : String) (n : Node) : Node := { n with kind := { n.kind with name := s } }

/-- A node over a single sub-task. -/
def wrapping (s : String) (sub : TaskId) : Node :=
  { Node.ofKind ⟨0, s, some .shared, {}⟩ with subTasks := [some sub] }

/-! ## Conditions -/

/-- What has to hold for a clause about a task. A condition that was not given always holds. -/
structure TaskCondition where
  maxFires : Option Nat := none
  name : Option String := none
  hasParent : Option Bool := none
  parentName : Option String := none
  slots : Option Nat := none
  maxSlots : Option Nat := none
  /-- The number of slots that are no holes. -/
  live : Option Nat := none
  listLength : Option Nat := none
  modeHas : Option RepeatMode := none
  affectsHas : Option Mask := none

/-- What has to hold for a clause about a list. -/
structure ListCondition where
  maxFires : Option Nat := none
  length : Option Nat := none
  minLength : Option Nat := none
  /-- Some entry has this name. -/
  has : Option String := none

/-- A condition that may be absent. -/
def holds {α : Type} (test : α → Bool) : Option α → Bool
  | none => true
  | some a => test a

namespace TaskCondition

/-- The conditions on the node of the task. They fail when it does not exist. -/
def holdsOfNode (c : TaskCondition) (n : Option Node) : Bool :=
  let onNode {α : Type} (test : Node → α → Bool) : Option α → Bool :=
    holds fun a => match n with
      | some n => test n a
      | none => false
  onNode (fun n s => n.name = s) c.name &&
    onNode (fun n k => n.subTasks.length = k) c.slots &&
    onNode (fun n k => n.subTasks.length ≤ k) c.maxSlots &&
    onNode (fun n k => n.children.length = k) c.live

/-- All conditions hold for a call, where the clause was chosen `fires` times before. -/
def holdsFor (c : TaskCondition) (fires : Nat) (g : Graph) (v : TaskView) : Bool :=
  holds (fun n => fires < n) c.maxFires &&
    c.holdsOfNode (v.task.bind g.get?) &&
    holds (fun b => v.parent.isSome = b) c.hasParent &&
    holds (fun s => v.parent.bind g.name? = some s) c.parentName &&
    holds (fun n => v.list.length = n) c.listLength &&
    holds (fun m => v.mode.contains m) c.modeHas &&
    holds (fun m => v.affects.contains m) c.affectsHas

end TaskCondition

namespace ListCondition

/-- All conditions hold for a call, where the clause was chosen `fires` times before. -/
def holdsFor (c : ListCondition) (fires : Nat) (g : Graph) (list : List (Option TaskId)) : Bool :=
  holds (fun n => fires < n) c.maxFires &&
    holds (fun n => list.length = n) c.length &&
    holds (fun n => n ≤ list.length) c.minLength &&
    holds (fun s => list.any fun e => e.bind g.name? = some s) c.has

end ListCondition

/-! ## Actions -/

/-- What a clause can do to a task. All but the first seven need a task that exists. -/
inductive TaskAction where
  | affects (m : Mask)
  | clearAffects
  | mode (m : RepeatMode)
  | dependsFrom (m : Mask)
  | parent (id : Option TaskId)
  | set (id : Option TaskId)
  | insert (n : Node)
  | remove (m : Mask)
  | relabel (s : String)
  | hoist (slot : Nat)
  | wrap (s : String)
  | clone
  | addChild (n : Node)
  | addHole
  | dropChild (slot : Nat)
  | edit (p : Patch)

/-- What a clause can do to a list. -/
inductive ListAction where
  | affects (m : Mask)
  | dependsFrom (m : Mask)
  | flatten
  | drop (s : String)
  | relabel (s t : String)
  | compact
  | reverse
  | sort
  | truncate (n : Nat)
  | rotate (n : Nat)
  | push (n : Node)
  | pushId (id : Option TaskId)
  | insertId (id : Option TaskId)

section Perform

variable {σ : Type}

/-- The call with another task in its place. -/
def replaceTask (c : TaskCall σ) (task : Option TaskId) : TaskCall σ :=
  { c with view := { c.view with task } }

/-- The call with a new node in the graph, and with that node in place of the task. -/
def replaceByNode (c : TaskCall σ) (n : Node) : TaskCall σ :=
  let id := c.graph.nextId
  replaceTask { c with graph := c.graph.insert n } (some id)

/-- The same for a node with a kind of its own. -/
def replaceByNew (c : TaskCall σ) (n : Node) : TaskCall σ :=
  let id := c.graph.nextId
  replaceTask { c with graph := c.graph.insertNew n } (some id)

/-- What an action does to the node of the task. -/
def TaskAction.performOn (id : TaskId) (n : Node) (c : TaskCall σ) : TaskAction → TaskCall σ
  | remove m =>
    let c := replaceTask c none
    { c with view := { c.view with affects := c.view.affects ∪ m } }
  | relabel s => replaceByNew c (relabelled s n)
  | hoist slot => replaceTask c (n.subTasks[slot]?.join)
  | wrap s => replaceByNew c (wrapping s id)
  | clone => replaceByNode c n
  | addChild child =>
    let sub := c.graph.nextId
    replaceByNode { c with graph := c.graph.insertNew child }
      { n with subTasks := n.subTasks ++ [some sub] }
  | addHole => replaceByNode c { n with subTasks := n.subTasks ++ [none] }
  | dropChild slot => replaceByNode c { n with subTasks := n.subTasks.set slot none }
  | edit p => replaceByNode c (p.apply n)
  | _ => c

/-- What an action does to a call for a task. -/
def TaskAction.perform (c : TaskCall σ) : TaskAction → TaskCall σ
  | affects m => { c with view := { c.view with affects := c.view.affects ∪ m } }
  | clearAffects => { c with view := { c.view with affects := ∅ } }
  | mode m => { c with view := { c.view with mode := c.view.mode ∪ m } }
  | dependsFrom m => { c with view := { c.view with gate := m } }
  | parent id => { c with view := { c.view with parent := id } }
  | set id => replaceTask c id
  | insert n => { c with graph := c.graph.insertNew n }
  | action =>
    match c.view.task with
    | none => c
    | some id =>
      match c.graph.get? id with
      | none => c
      | some n => action.performOn id n c

/-- Whether the node of an entry has a name. -/
def isNamed (g : Graph) (s : String) (entry : Option TaskId) : Bool :=
  entry.bind g.name? = some s

/-- Replaces each entry of a name by a copy with another name. -/
def relabelEntries (s t : String) (g : Graph) :
    List (Option TaskId) → Graph × List (Option TaskId)
  | [] => (g, [])
  | entry :: rest =>
    let (g, entry) := match entry.bind g.get? with
      | some n => if n.name = s then (g.insertNew (relabelled t n), some g.nextId) else (g, entry)
      | none => (g, entry)
    let (g, rest) := relabelEntries s t g rest
    (g, entry :: rest)

/-- The list turned to the left. -/
def rotated {α : Type} (n : Nat) (list : List α) : List α :=
  let k := n % list.length
  list.drop k ++ list.take k

/-- The order of entries by name; holes and missing nodes come first. -/
def nameLe (g : Graph) (a b : Option TaskId) : Bool :=
  match a.bind g.name?, b.bind g.name? with
  | none, _ => true
  | some _, none => false
  | some s, some t => !decide (t < s)

/-- What an action does to a call for a list. Only flattening can meet a fault. -/
def ListAction.perform (c : ListCall σ) : ListAction → Except Fault (ListCall σ)
  | affects m => .ok { c with affects := c.affects ∪ m }
  | dependsFrom m => .ok { c with gate := m }
  | flatten => (c.graph.postOrder c.list).map fun ids => { c with list := ids.map some }
  | drop s => .ok { c with list := c.list.map fun e => if isNamed c.graph s e then none else e }
  | relabel s t =>
    let (graph, list) := relabelEntries s t c.graph c.list
    .ok { c with graph, list }
  | compact => .ok { c with list := c.list.filter Option.isSome }
  | reverse => .ok { c with list := c.list.reverse }
  | sort => .ok { c with list := c.list.mergeSort (nameLe c.graph) }
  | truncate n => .ok { c with list := c.list.take n }
  | rotate n => .ok { c with list := rotated n c.list }
  | push n =>
    .ok { c with graph := c.graph.insertNew n, list := c.list ++ [some c.graph.nextId] }
  | pushId id => .ok { c with list := c.list ++ [id] }
  | insertId id => .ok { c with list := id :: c.list }

/-- Performs actions in order; what was done before a fault remains. -/
def performAll (c : ListCall σ) : List ListAction → Answered (ListCall σ)
  | [] => { call := c }
  | a :: as =>
    match a.perform c with
    | .ok c => performAll c as
    | .error f => { call := c, fault := some f }

end Perform

/-! ## Scripts -/

/-- Conditions and what to do when they hold. -/
structure Clause (κ α : Type) where
  condition : κ
  actions : List α

/-- A rule described by data. A bare rule never does anything, and leaves no mark in the ledger. -/
structure Script extends RuleHeader where
  bare : Bool
  onTask : List (Clause TaskCondition TaskAction)
  onList : List (Clause ListCondition ListAction)

/-- A call as it looked when it began. -/
inductive TraceLine where
  | task (rule : String) (view : TaskView)
  | list (rule : String) (list : List (Option TaskId)) (gate affects : Mask)

/-- A clause of a rule: whether it is about lists, and its position. -/
structure ClauseId where
  rule : RuleId
  aboutList : Bool
  position : Nat
  deriving DecidableEq, Repr

/-- What scripted rules remember. -/
structure Ledger where
  /-- How often each clause was chosen. -/
  fires : List (ClauseId × Nat)
  /-- How often the rules of each name were called, in the order of the first calls. -/
  calls : List (String × Nat)
  /-- The first calls, the latest first. -/
  trace : List TraceLine
  /-- How many calls are kept. -/
  traced : Nat

namespace Ledger

/-- Nothing has happened yet. -/
def empty : Ledger := ⟨[], [], [], 0⟩

/-- How many calls are kept at most. -/
def traceLimit : Nat := 400

/-- Adds one to the count of a key. -/
def increment {κ : Type} [DecidableEq κ] (key : κ) : List (κ × Nat) → List (κ × Nat)
  | [] => [(key, 1)]
  | (k, n) :: rest => if k = key then (k, n + 1) :: rest else (k, n) :: increment key rest

/-- How often a clause was chosen. -/
def firesOf (l : Ledger) (c : ClauseId) : Nat := (l.fires.lookup c).getD 0

/-- Notes that a call began. -/
def began (rule : String) (line : TraceLine) (l : Ledger) : Ledger :=
  let l := { l with calls := increment rule l.calls }
  if l.traced < traceLimit then { l with trace := line :: l.trace, traced := l.traced + 1 } else l

/-- Notes that a clause was chosen. -/
def chose (c : ClauseId) (l : Ledger) : Ledger := { l with fires := increment c l.fires }

end Ledger

namespace Script

/-- The first clause whose conditions hold, with its position. -/
def firstClause {κ α : Type} (test : Nat → κ → Bool) (clauses : List (Clause κ α)) :
    Option (Nat × Clause κ α) :=
  (clauses.mapIdx fun i c => (i, c)).find? fun e => test e.1 e.2.condition

/-- A call for a task. -/
def runTask (id : RuleId) (s : Script) (c : TaskCall Ledger) : TaskCall Ledger :=
  let ledger := c.user.began s.name (.task s.name c.view)
  let clauseId (i : Nat) : ClauseId := ⟨id, false, i⟩
  let fires (i : Nat) := ledger.firesOf (clauseId i)
  match firstClause (fun i k => k.holdsFor (fires i) c.graph c.view) s.onTask with
  | none => { c with user := ledger }
  | some (i, clause) =>
    clause.actions.foldl TaskAction.perform { c with user := ledger.chose (clauseId i) }

/-- A call for a list. -/
def runList (id : RuleId) (s : Script) (c : ListCall Ledger) : Answered (ListCall Ledger) :=
  let ledger := c.user.began s.name (.list s.name c.list c.gate c.affects)
  let clauseId (i : Nat) : ClauseId := ⟨id, true, i⟩
  let fires (i : Nat) := ledger.firesOf (clauseId i)
  match firstClause (fun i k => k.holdsFor (fires i) c.graph c.list) s.onList with
  | none => { call := { c with user := ledger } }
  | some (i, clause) => performAll { c with user := ledger.chose (clauseId i) } clause.actions

/-- The rule that a script describes. -/
def toRule (id : RuleId) (s : Script) : Rule Ledger :=
  if s.bare then { toRuleHeader := s.toRuleHeader }
  else {
    toRuleHeader := s.toRuleHeader
    runTask := fun c => { call := runTask id s c }
    runList := runList id s }

end Script

/-- An entry of a list of rules: a rule of its own, or the same rule as an earlier entry. -/
inductive RuleEntry where
  | script (s : Script)
  | sameAs (position : Nat)

/-- Rules by identity. The identity of a rule is the position of its first entry. -/
structure RuleBook where
  entries : List RuleEntry

namespace RuleBook

/-- The identity of the rule at a position. Following at most `depth` references. -/
def resolve (b : RuleBook) : Nat → Nat → RuleId
  | 0, i => ⟨i⟩
  | depth + 1, i =>
    match b.entries[i]? with
    | some (.sameAs j) => b.resolve depth j
    | _ => ⟨i⟩

/-- The identity of the rule at a position. -/
def idOf (b : RuleBook) (i : Nat) : RuleId := b.resolve b.entries.length i

/-- The script of a rule; an empty one for an identity that stands for none. -/
def scriptOf (b : RuleBook) (id : RuleId) : Script :=
  match b.entries[id.index]? with
  | some (.script s) => s
  | _ => ⟨⟨"", .ofCategory .common⟩, true, [], []⟩

/-- The rule of an identity. -/
def ruleOf (b : RuleBook) (id : RuleId) : Rule Ledger := (b.scriptOf id).toRule id

/-- Registers the entries in order, and answers what became of each. -/
def registerAll (b : RuleBook) : Registry × List (Except Error Unit) :=
  (List.range b.entries.length).foldl
    (fun (r, answers) i =>
      let id := b.idOf i
      match r.register id (b.scriptOf id).toRuleHeader with
      | .ok r => (r, answers ++ [.ok ()])
      | .error e => (r, answers ++ [.error e]))
    (.empty, [])

end RuleBook

end RenderPlan.Scenario
