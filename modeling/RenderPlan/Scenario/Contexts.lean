/-
# RenderPlan.Scenario.Contexts -- contexts and renderers by name, step by step

Each step is one call on a context or a renderer that is known by name. A step about something
that does not exist answers that it is absent and changes nothing.
-/
import RenderPlan.Scenario.Renders
import RenderPlan.Options.Json

namespace RenderPlan.Scenario

/-- A call on a context, whose name comes first, or on a renderer. -/
inductive ContextStep where
  /-- Open a context with settings given as text. -/
  | openContext (context : String) (settings : String)
  /-- Make a renderer with settings given as text. -/
  | create (context : String) (name : String) (settings : String)
  | register (context : String) (name : String) (renderer : String)
  | unregister (context : String) (name : String)
  | lookup (context : String) (name : String)
  | list (context : String)
  | unregisterAll (context : String)
  | drop (context : String)
  | isRunning (context : String)
  | stopQueue (context : String)
  | run (renderer : String) (params : RenderParams)

/-- What a step answers. -/
inductive ContextAnswer where
  | done
  | absent
  | refused (e : Error)
  | lanes (lanes : List (Option Lane))
  | settings (o : RenderOptions)
  | renderer (name : String)
  /-- The names that are registered, each with the name of its renderer, if it has one. -/
  | renderers (names : List (String × Option String))
  | running (b : Bool)
  | performance (p : Stage.Performance)

namespace Stage

/-- Changes nothing and says what was refused. -/
def refuse (s : Stage) (e : Error) : Stage × ContextAnswer × List String :=
  (s, .refused e, e.logLine?.toList)

/-- Puts a changed context in the place of the old one. -/
def setContext (s : Stage) (name : String) (c : Context) : Stage :=
  { s with contexts := assign name c s.contexts }

/-- How a renderer is reported: by the name that stands for it, or as absent without one. -/
def rendererAnswer (s : Stage) (r : Renderer) : ContextAnswer :=
  match s.nameOf r with
  | some name => .renderer name
  | none => .absent

/-- Performs a step on a graph and a list that stay the same throughout. The lines are those of
the event log. -/
def step (graph : Graph) (tasks : List TaskId) (s : Stage) :
    ContextStep → Stage × ContextAnswer × List String
  | .openContext name settings =>
    match (ContextOptions.parse settings).bind (s.openContext name) with
    | .error e => s.refuse e
    | .ok (pool, s) =>
      (s, .lanes (pool.workers.map Worker.lane), Context.startLines pool.threadCount)
  | .create context name settings =>
    match s.contexts.lookup context with
    | none => (s, .absent, [])
    | some c =>
      match RenderOptions.parse settings with
      | .error e => s.refuse e
      | .ok o => (s.createRenderer c name o .empty, .settings o, [])
  | .register context name renderer =>
    match s.contexts.lookup context, s.actor? renderer with
    | some c, some a =>
      match c.register name a.renderer with
      | .error e => s.refuse e
      | .ok c => (s.setContext context c, .done, [])
    | _, _ => (s, .absent, [])
  | .unregister context name =>
    match s.contexts.lookup context with
    | none => (s, .absent, [])
    | some c =>
      match c.unregister name with
      | .error e => s.refuse e
      | .ok (r, c) => (s.setContext context c, s.rendererAnswer r, [])
  | .lookup context name =>
    match (s.contexts.lookup context).bind fun c => c.get? name with
    | some r => (s, s.rendererAnswer r, [])
    | none => (s, .absent, [])
  | .list context =>
    match s.contexts.lookup context with
    | none => (s, .absent, [])
    | some c =>
      (s, .renderers (c.renderers.map fun e => (e.1, s.nameOf e.2)), [])
  | .unregisterAll context =>
    match s.contexts.lookup context with
    | none => (s, .absent, [])
    | some c => (s.setContext context c.unregisterAll, .done, [])
  | .drop context => (s.dropContext context, .done, [])
  | .isRunning context =>
    match (s.latest.lookup context).bind s.pool? with
    | some pool => (s, .running pool.isRunning, [])
    | none => (s, .absent, [])
  | .stopQueue context =>
    match s.latest.lookup context with
    | some id => (s.modifyPool id Pool.stop, .done, [])
    | none => (s, .done, [])
  | .run renderer params =>
    match s.actor? renderer with
    | none => (s, .absent, [])
    | some a =>
      let (s, p) := s.perform a (fun _ => { toRuleHeader := ⟨"", .ofCategory .common⟩ }) graph
        tasks params
      (s, .performance p, p.log)

/-- Performs steps in order. -/
def steps (graph : Graph) (tasks : List TaskId) :
    Stage → List ContextStep → List (ContextAnswer × List String)
  | _, [] => []
  | s, a :: as =>
    let (s, answer, lines) := s.step graph tasks a
    (answer, lines) :: steps graph tasks s as

end Stage

end RenderPlan.Scenario
