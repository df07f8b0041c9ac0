/-
# RenderPlan.Error -- what can be refused, and in which words

An `Error` is a cause. Its kind says who refused, `Error.message` is its wording and nothing else
in the library words a refusal. Some refusals also leave a line in the event log; that line is
`Error.logLine?`.

A task that fails is not an error: failure travels as the answer of the task.
-/
import RenderPlan.Category.Mask
import RenderPlan.Graph.Basic
import RenderPlan.Json.Shape

namespace RenderPlan

/-- Who refused. -/
inductive ErrorKind where
  | validation
  | registry
  | optimizer
  | scheduler
  | other
  deriving DecidableEq, Repr

namespace ErrorKind

/-- The spelling of the kind. -/
def name : ErrorKind → String
  | validation => "Validation"
  | registry => "Registry"
  | optimizer => "Optimizer"
  | scheduler => "Scheduler"
  | other => "Other"

/-- What stands in front of the detail; a foreign error speaks for itself. -/
def label : ErrorKind → String
  | validation => "validation error: "
  | registry => "registry error: "
  | optimizer => "optimizer error: "
  | scheduler => "scheduler error: "
  | other => ""

end ErrorKind

/-- The options that are read from text. -/
inductive OptionsKind where
  | queue
  | context
  | optimizer
  | render
  deriving DecidableEq, Repr

namespace OptionsKind

/-- The word for the options in messages. -/
def name : OptionsKind → String
  | queue => "queue"
  | context => "context"
  | optimizer => "optimizer"
  | render => "render"

end OptionsKind

/-- A refusal and its cause. -/
inductive Error where
  /-- The text is no JSON, or it does not fit these options at the given place. -/
  | invalidOptions (what : OptionsKind) (place : Option Json.Mismatch)
  /-- A pool without workers was asked for. -/
  | noThreads
  /-- A root names no node. -/
  | unknownRoot (root : TaskId)
  /-- A slot of `task` names no node. -/
  | unknownSubTask (task sub : TaskId)
  /-- A sub-task is one of its own ancestors. -/
  | cycle (through : TaskId)
  /-- A rule relies on categories that are processed after its own. -/
  | laterDependency (rule : String) (category : Category) (later : Mask)
  /-- The renderer works on the queue of another context. -/
  | foreignRenderer (name : String)
  | duplicateRule (rule : String)
  | duplicateRenderer (name : String)
  | unknownRenderer (name : String)
  /-- The sweep over the categories used up its steps. -/
  | noFixpoint (maxSteps : Nat)
  /-- Jobs were submitted to a stopped queue. -/
  | queueStopped
  /-- The queue stopped before the end of a batch. -/
  | batchAbandoned
  /-- A refusal worded by a caller. -/
  | reported (kind : ErrorKind) (detail : String)
  /-- An error from elsewhere, as the messages from the outermost to the root cause. -/
  | foreign (message : String) (causes : List String)
  deriving DecidableEq, Repr

namespace Error

/-- Who refused. -/
def kind : Error → ErrorKind
  | invalidOptions _ _ | noThreads | unknownRoot _ | unknownSubTask _ _ | cycle _
  | laterDependency _ _ _ | foreignRenderer _ => .validation
  | duplicateRule _ | duplicateRenderer _ | unknownRenderer _ => .registry
  | noFixpoint _ => .optimizer
  | queueStopped | batchAbandoned => .scheduler
  | reported k _ => k
  | foreign _ _ => .other

/-- The cause in words. -/
def detail : Error → String
  | invalidOptions what place =>
    "invalid " ++ what.name ++ " options json" ++ match place with
      | some m => ": " ++ m.message
      | none => ""
  | noThreads => "queue 'threads' must be >= 1 when set"
  | unknownRoot root => "task " ++ root.text ++ " does not belong to this graph"
  | unknownSubTask task sub => "task " ++ task.text ++ " references unknown sub-task " ++ sub.text
  | cycle through => "task tree contains a cycle through " ++ through.text
  | laterDependency rule category later =>
    "optimizer '" ++ rule ++ "' in " ++ category.name ++ " depends on later categories " ++
      later.debugText
  | foreignRenderer name => "renderer '" ++ name ++ "' is bound to another context's queue"
  | duplicateRule rule => "optimizer '" ++ rule ++ "' already registered"
  | duplicateRenderer name => "renderer '" ++ name ++ "' already registered"
  | unknownRenderer name => "renderer '" ++ name ++ "' not registered"
  | noFixpoint maxSteps => "no fixpoint after " ++ toString maxSteps ++ " steps"
  | queueStopped => "task queue is stopped"
  | batchAbandoned => "task queue stopped before the batch completed"
  | reported _ detail => detail
  | foreign message _ => message

/-- The full wording. -/
def message (e : Error) : String := e.kind.label ++ e.detail

/-- How many causes lie behind the error. -/
def depth : Error → Nat
  | foreign _ causes => causes.length
  | _ => 0

/-- The line that the refusal leaves in the event log. -/
def logLine? : Error → Option String
  | invalidOptions what place =>
    some ("ERROR invalid " ++ what.name ++ " options json" ++ match place with
      | some m => " e=" ++ m.message
      | none => "")
  | duplicateRule rule => some ("ERROR optimizer already registered rule=" ++ rule)
  | laterDependency rule _ _ =>
    some ("ERROR optimizer depends on a category that runs after its own rule=" ++ rule)
  | noFixpoint maxSteps =>
    some ("ERROR optimizer did not reach a fixpoint, a rule misreports its affected categories " ++
      "max_steps=" ++ toString maxSteps)
  | duplicateRenderer name => some ("ERROR renderer already registered name=" ++ name)
  | foreignRenderer name => some ("ERROR renderer bound to another queue name=" ++ name)
  | unknownRenderer name => some ("ERROR renderer not registered name=" ++ name)
  | _ => none

end Error

end RenderPlan
