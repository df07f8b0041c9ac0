/-
# RenderPlan.Render.Context -- named renderers over one pool

A context owns a pool and knows renderers by name. Only renderers that are bound to its own pool
can be registered. The names are kept in increasing order, so that listing them needs no sorting.
-/
import RenderPlan.Render.Renderer

namespace RenderPlan

/-- A pool and the renderers that are registered under names, in increasing order of the names. -/
structure Context where
  queue : QueueId
  renderers : List (String × Renderer)
  deriving DecidableEq, Repr

namespace Context

/-- A context over a pool, without renderers. -/
def ofQueue (queue : QueueId) : Context := ⟨queue, []⟩

/-- The lines that starting a pool leaves in the event log. -/
def startLines (threads : Nat) : List String :=
  ["INFO rendering threads " ++ toString threads ++ " threads=" ++ toString threads]

/-- A renderer on the pool of the context. It is not registered. -/
def createRenderer (c : Context) (serial : Nat) (options : RenderOptions) : Renderer :=
  ⟨serial, c.queue, options⟩

/-- The renderer of a name. -/
def get? (c : Context) (name : String) : Option Renderer := c.renderers.lookup name

/-- The list with one more name at its place. -/
def insertSorted (name : String) (r : Renderer) :
    List (String × Renderer) → List (String × Renderer)
  | [] => [(name, r)]
  | e :: es => if name < e.1 then (name, r) :: e :: es else e :: insertSorted name r es

/-- Registers a renderer under a name that is free. -/
def register (c : Context) (name : String) (r : Renderer) : Except Error Context :=
  if (c.get? name).isSome then .error (.duplicateRenderer name)
  else if r.queue = c.queue then
    .ok { c with renderers := insertSorted name r c.renderers }
  else .error (.foreignRenderer name)

/-- Takes a name out, and hands back the renderer that it stood for. -/
def unregister (c : Context) (name : String) : Except Error (Renderer × Context) :=
  match c.get? name with
  | some r => .ok (r, { c with renderers := c.renderers.filter fun e => e.1 ≠ name })
  | none => .error (.unknownRenderer name)

/-- Takes all names out. -/
def unregisterAll (c : Context) : Context := { c with renderers := [] }

end Context

end RenderPlan
