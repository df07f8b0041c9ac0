/-
# RenderPlan.Graph.Basic -- task nodes and the arena that holds them

A graph is an arena of nodes. A node says what it is for (its kind), which part of which buffer it
writes, and which nodes are its sub-tasks. Sub-tasks are named by their position in the arena, so
trees may share nodes; a slot may be a hole, and nothing keeps a slot from naming a node that does
not exist. Nodes are only ever added, so an id keeps its meaning while the graph grows.

Looking up a missing node is a `Fault`: it ends the operation that did it, and is no `Error` that a
caller could handle.
-/
import RenderPlan.Geometry.Rect

namespace RenderPlan

/-- The place of a node in its graph, as a number without a bound. Handles of 32 bits tell the places of
`2 ^ 32` nodes apart, and all later nodes would share the last one. So what is said about a graph is said
about such handles as long as it has at most `2 ^ 32` nodes. -/
structure TaskId where
  index : Nat
  deriving DecidableEq, Repr

namespace TaskId

/-- The form used in messages. -/
def text (id : TaskId) : String := "#" ++ toString id.index

/-- The form used when a whole node is shown. -/
def debugText (id : TaskId) : String := "TaskId(" ++ toString id.index ++ ")"

end TaskId

/-- A misuse that no result can report: it ends the operation that meets it. -/
inductive Fault where
  /-- A task id that names no node was looked up. -/
  | missingTask (id : TaskId)
  /-- A slot was written that the node does not have. -/
  | missingSlot (id : TaskId) (slot : Nat)
  /-- Following sub-tasks led back to where it began, so the walk has no end. -/
  | endless
  /-- Code supplied by the caller gave up. -/
  | raised
  deriving DecidableEq, Repr

/-- The group of workers that may run a task. -/
inductive Lane where
  /-- Ordinary work, for any shared worker. -/
  | shared
  /-- Work pinned to the one dedicated worker. -/
  | dedicated
  deriving DecidableEq, Repr

namespace Lane

/-- The spelling of the lane. -/
def name : Lane → String
  | shared => "Shared"
  | dedicated => "Dedicated"

/-- The lane with a given spelling. -/
def ofName? (s : String) : Option Lane := [shared, dedicated].find? fun l => l.name = s

end Lane

/-- A buffer that tasks write into. Its pixels play no part here. Two buffers are the same exactly
when their serial numbers are. -/
structure Buffer where
  serial : Nat
  ownName : Option String
  width : UInt32
  height : UInt32
  deriving DecidableEq, Repr

namespace Buffer

/-- The name for dumps; a buffer without a name of its own is called `buffer`. -/
def name (b : Buffer) : String := b.ownName.getD "buffer"

/-- The form used in dumps, with the serial number for the identity. -/
def text (b : Buffer) : String :=
  b.name ++ " (" ++ toString b.width.toNat ++ "x" ++ toString b.height.toNat ++ ") @" ++
    toString b.serial

end Buffer

/-- How a task fares when it runs. -/
structure Conduct where
  /-- What it answers when nothing speaks against it. -/
  succeeds : Bool := true
  /-- It gives up instead of answering. -/
  panics : Bool := false
  /-- It fails when something it waited for failed. -/
  needsSound : Bool := false
  deriving DecidableEq, Repr

/-- What a task is. Copies of a node share their kind, which the serial number tells. -/
structure Kind where
  serial : Nat
  name : String
  /-- The lane the kind asks for; most kinds ask for none. -/
  ownLane : Option Lane
  conduct : Conduct
  deriving DecidableEq, Repr

namespace Kind

/-- The lane of the task, shared unless the kind asks for another. -/
def lane (k : Kind) : Lane := k.ownLane.getD .shared

end Kind

/-- One node of a task tree. -/
structure Node where
  kind : Kind
  /-- The buffer that the task writes. -/
  target : Option Buffer
  /-- The part of the target that it writes. -/
  rect : Rect
  bounds : Option Bounds
  /-- The sub-tasks in order, with holes. -/
  subTasks : List (Option TaskId)
  deriving DecidableEq, Repr

namespace Node

/-- A node that writes nothing and has no sub-tasks. -/
def ofKind (k : Kind) : Node := ⟨k, none, .unset, none, []⟩

def name (n : Node) : String := n.kind.name

def lane (n : Node) : Lane := n.kind.lane

/-- The ids of the sub-tasks that are no holes, in order. -/
def children (n : Node) : List TaskId := n.subTasks.filterMap id

/-- Both nodes write the same buffer, and a pixel of it that they share. -/
def Overlaps (a b : Node) : Prop :=
  match a.target, b.target with
  | some s, some t => s.serial = t.serial ∧ a.rect.Intersects b.rect
  | _, _ => False

instance (a b : Node) : Decidable (a.Overlaps b) := by
  unfold Overlaps
  split <;> infer_instance

end Node

/-- An arena of nodes. -/
structure Graph where
  nodes : Array Node

namespace Graph

/-- The graph without nodes. -/
def empty : Graph := ⟨#[]⟩

instance : Inhabited Graph := ⟨empty⟩

/-- How many nodes were ever added. -/
def size (g : Graph) : Nat := g.nodes.size

/-- The node with an id. -/
def get? (g : Graph) (id : TaskId) : Option Node := g.nodes[id.index]?

/-- The node with an id, a fault when there is none. -/
def fetch (g : Graph) (id : TaskId) : Except Fault Node :=
  match g.get? id with
  | some n => .ok n
  | none => .error (.missingTask id)

/-- The id that the next node will get. A handle of 32 bits would be `min g.size (2 ^ 32 - 1)`, which is the
same in a graph of fewer than `2 ^ 32` nodes. -/
def nextId (g : Graph) : TaskId := ⟨g.size⟩

/-- The graph with one more node, which gets `g.nextId`. -/
def insert (g : Graph) (n : Node) : Graph := ⟨g.nodes.push n⟩

/-- The graph with one more node of a kind of its own: the kind takes the serial number of the
place where it is stored first. -/
def insertNew (g : Graph) (n : Node) : Graph :=
  g.insert { n with kind := { n.kind with serial := g.size } }

/-- The graph with one node changed in place. A missing node stays missing. -/
def modify (g : Graph) (id : TaskId) (f : Node → Node) : Graph := ⟨g.nodes.modify id.index f⟩

/-- The graph with a copy of a node at its end; the copy shares the kind. -/
def copy (g : Graph) (id : TaskId) : Except Fault Graph :=
  (g.fetch id).map g.insert

/-- The slots of a node, none for a missing node. -/
def slots (g : Graph) (id : TaskId) : List (Option TaskId) :=
  match g.get? id with
  | some n => n.subTasks
  | none => []

/-- The name of a node, if it exists. -/
def name? (g : Graph) (id : TaskId) : Option String := (g.get? id).map Node.name

theorem size_insert (g : Graph) (n : Node) : (g.insert n).size = g.size + 1 := by
  simp [insert, size]

theorem size_modify (g : Graph) (id : TaskId) (f : Node → Node) :
    (g.modify id f).size = g.size := by
  simp [modify, size]

theorem get?_insert_nextId (g : Graph) (n : Node) : (g.insert n).get? g.nextId = some n := by
  simp [get?, insert, nextId, size]

/-- An id keeps its meaning when a node is added. -/
theorem get?_insert_of_get?_eq_some {g : Graph} {id : TaskId} {n m : Node}
    (h : g.get? id = some n) : (g.insert m).get? id = some n := by
  unfold get? insert at *
  have hlt : id.index < g.nodes.size := by
    rcases Nat.lt_or_ge id.index g.nodes.size with h' | h'
    · exact h'
    · simp [Array.getElem?_eq_none h'] at h
  simp only [Array.getElem?_push]
  split
  · omega
  · exact h

end Graph

end RenderPlan
