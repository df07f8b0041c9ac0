/-
# RenderPlan.Rule.Basic -- rules that transform tasks

A rule is supplied by a caller. It says where it applies (its `Descriptor`) and how it transforms a
single task or the whole list. A call hands the rule a record of what it may look at and change,
and the rule hands the record back; what the driver makes of the changes is the business of
`RenderPlan.Optimize`.

Rules may remember things between calls. All that any rule remembers is one value of a type `σ`
that goes through every call.
-/
import RenderPlan.Category.Mask
import RenderPlan.Graph.Basic

namespace RenderPlan

/-! ## Requests to repeat -/

/-- What a rule asks for after a change, as an 8-bit word: bit 0 to apply the same rules to the
replacement before going on, bit 1 to hand the request on to the level above. Other bits are kept
and mean nothing. -/
structure RepeatMode where
  bits : UInt8
  deriving DecidableEq, Repr

namespace RepeatMode

def none : RepeatMode := ⟨0⟩

/-- Apply the rules to the replacement before going on. -/
def last : RepeatMode := ⟨1⟩

/-- Hand the request on to the level above. -/
def parent : RepeatMode := ⟨2⟩

/-- Both requests, so that a whole branch is repeated. -/
def branch : RepeatMode := ⟨3⟩

instance : Inhabited RepeatMode := ⟨none⟩
instance : Union RepeatMode := ⟨fun a b => ⟨a.bits ||| b.bits⟩⟩

/-- Every bit of `b` is set in `a`. -/
def contains (a b : RepeatMode) : Bool := a.bits &&& b.bits = b.bits

/-- The names of the flags. -/
def table : Text.FlagTable := [("REPEAT_LAST", 1), ("REPEAT_PARENT", 2)]

/-- The form shown to people. -/
def debugText (m : RepeatMode) : String := table.debugText "OptimizeMode" m.bits.toUInt32

end RepeatMode

/-! ## Where a rule applies -/

/-- Where a rule applies and how it bears on other categories. -/
structure Descriptor where
  category : Category
  /-- It transforms the list as a whole. -/
  forList : Bool
  /-- It transforms every task, at any depth. -/
  forTask : Bool
  /-- It transforms the entries of the list and nothing below them. -/
  forRootTask : Bool
  /-- It comes after the sub-tasks instead of before them. -/
  deepFirst : Bool
  /-- The categories that the rule relies on being settled. -/
  dependsFrom : Mask
  /-- The categories that a change by this rule unsettles. -/
  affects : Mask
  deriving DecidableEq, Repr

namespace Descriptor

/-- A descriptor that applies nowhere. -/
def ofCategory (c : Category) : Descriptor := ⟨c, false, false, false, false, ∅, ∅⟩

/-- Whether the rule is called for a task that has, or has not, a parent. -/
def appliesToTask (d : Descriptor) (hasParent : Bool) : Bool :=
  d.forTask || (d.forRootTask && !hasParent)

/-- The categories that a rule of this category may rely on: its own and those before it. -/
def allowed (d : Descriptor) : Mask := d.category.below ∪ d.category.mask

end Descriptor

/-! ## Calls -/

/-- What a rule sees of a task, and may change. -/
structure TaskView where
  /-- The list as it was when the sweep came to the present entry. -/
  list : List (Option TaskId)
  /-- The categories whose unrest ends the visit of a task. -/
  gate : Mask
  /-- The task; none removes it. -/
  task : Option TaskId
  /-- The task above, none for an entry of the list. -/
  parent : Option TaskId
  /-- The categories unsettled so far during the visit. -/
  affects : Mask
  /-- The repeats asked for so far during the visit. -/
  mode : RepeatMode
  deriving DecidableEq, Repr

namespace TaskView

/-- The view of an entry of the list. -/
def ofEntry (list : List (Option TaskId)) (gate : Mask) (task : TaskId) : TaskView :=
  ⟨list, gate, some task, none, ∅, .none⟩

/-- The view of a sub-task, seen from its parent. -/
def ofChild (v : TaskView) (child : TaskId) : TaskView :=
  { v with task := some child, parent := v.task, affects := ∅, mode := .none }

/-- The task is gone, or a category that the rules rely on was unsettled. -/
def isStale (v : TaskView) : Bool := v.task.isNone || v.affects.intersects v.gate

end TaskView

/-- A call of a rule for one task. -/
structure TaskCall (σ : Type) where
  user : σ
  graph : Graph
  view : TaskView

/-- A call of a rule for the list. -/
structure ListCall (σ : Type) where
  user : σ
  graph : Graph
  list : List (Option TaskId)
  gate : Mask
  affects : Mask

/-- What a rule does is to change the record of the call; it may also give up, and then the
changes made so far remain. -/
structure Answered (α : Type) where
  call : α
  fault : Option Fault := none

/-- The name and the place of a rule. -/
structure RuleHeader where
  name : String
  descriptor : Descriptor
  deriving DecidableEq, Repr

/-- A rule. One that says nothing about tasks or lists leaves them alone. -/
structure Rule (σ : Type) extends RuleHeader where
  runTask : TaskCall σ → Answered (TaskCall σ) := fun c => { call := c }
  runList : ListCall σ → Answered (ListCall σ) := fun c => { call := c }

end RenderPlan
