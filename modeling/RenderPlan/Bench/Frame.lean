/-
# RenderPlan.Bench.Frame -- a synthetic frame of tiles

A frame is cut into rows, and each row into tiles that reach over their right neighbour by the
overlap. Every seventh tile is empty. All tiles write one buffer; a composite for each row reads
its tiles and writes the row of another buffer. The composites are the list that is rendered.

Positions and sizes are 32-bit words. Sums of them wrap around, and edges are the words taken as
signed numbers, so only frames well below those limits have the tiles that one expects.
-/
import RenderPlan.Bench.Arguments
import RenderPlan.Render.Renderer
import RenderPlan.Graph.Walk

namespace RenderPlan.Bench

/-- The buffer that tiles write. -/
def layer (a : Arguments) : Buffer := ⟨0, some "plane", a.width, a.height⟩

/-- The buffer that composites write. -/
def canvas (a : Arguments) : Buffer := ⟨1, some "plane", a.width, a.height⟩

/-- The multiples of `step` below `limit`. -/
def multiples (limit step : UInt32) : List UInt32 :=
  (List.range ((limit.toNat + step.toNat - 1) / step.toNat)).map fun i =>
    UInt32.ofNat (i * step.toNat)

/-- The right or lower edge of a tile: so far from its position, but not beyond the frame. -/
def farEdge (position extent limit : UInt32) : UInt32 := min (position + extent) limit

/-- The rectangle of the tile at a position. -/
def tileRect (a : Arguments) (x y : UInt32) : Rect :=
  ⟨x.toInt32, y.toInt32, (farEdge x (a.tile + a.overlap) a.width).toInt32,
    (farEdge y a.tile a.height).toInt32⟩

/-- The rectangle of a row. -/
def rowRect (a : Arguments) (y : UInt32) : Rect :=
  ⟨0, y.toInt32, a.width.toInt32, (farEdge y a.tile a.height).toInt32⟩

/-- The tile with a number. -/
def tileNode (a : Arguments) (number : UInt32) (x y : UInt32) : Node :=
  let kind : Kind := ⟨0, if number % 7 = 6 then "tile-empty" else "tile", none, {}⟩
  { Node.ofKind kind with target := some (layer a), rect := tileRect a x y }

/-- The composite of a row. It answers whether its tiles are sound. -/
def compositeNode (a : Arguments) (y : UInt32) (tiles : List TaskId) : Node :=
  let kind : Kind := ⟨0, "composite", none, { needsSound := true }⟩
  { Node.ofKind kind with
    target := some (canvas a)
    rect := rowRect a y
    subTasks := tiles.map some }

/-- A frame that is being built. -/
structure Frame where
  graph : Graph
  /-- The composites, in order. -/
  roots : List TaskId
  /-- The number of the next tile. -/
  number : UInt32

namespace Frame

/-- Adds a tile, and its id to those of its row. -/
def addTile (a : Arguments) (y : UInt32) (row : Frame × List TaskId) (x : UInt32) :
    Frame × List TaskId :=
  let (f, tiles) := row
  ({ f with graph := f.graph.insertNew (tileNode a f.number x y), number := f.number + 1 },
    tiles ++ [f.graph.nextId])

/-- Adds a row: its tiles from left to right, and then its composite. -/
def addRow (a : Arguments) (f : Frame) (y : UInt32) : Frame :=
  let (f, tiles) := (multiples a.width a.tile).foldl (addTile a y) (f, [])
  { f with
    graph := f.graph.insertNew (compositeNode a y tiles)
    roots := f.roots ++ [f.graph.nextId] }

/-- The frame for these arguments. -/
def build (a : Arguments) : Frame :=
  (multiples a.height a.tile).foldl (addRow a) ⟨.empty, [], 0⟩

end Frame

/-! ## The rules -/

/-- Drops empty tiles. -/
def dropEmptyTiles : Rule Unit where
  name := "drop-empty-tiles"
  descriptor := { Descriptor.ofCategory .common with forTask := true }
  runTask := fun c =>
    if c.view.task.bind c.graph.name? = some "tile-empty" then
      { call := { c with view := { c.view with task := none } } }
    else { call := c }

/-- Makes a list of the trees, sub-tasks first. -/
def linearize : Rule Unit where
  name := "linearize"
  descriptor := { Descriptor.ofCategory .linear with forList := true }
  runList := fun c =>
    match c.graph.postOrder c.list with
    | .ok ids => { call := { c with list := ids.map some } }
    | .error f => { call := c, fault := some f }

/-- The rules of the benchmark by identity. -/
def rules (id : RuleId) : Rule Unit := if id.index = 0 then dropEmptyTiles else linearize

/-- The registry of the benchmark. -/
def registry : Except Error Registry := do
  let r ← Registry.empty.register ⟨0⟩ dropEmptyTiles.toRuleHeader
  r.register ⟨1⟩ linearize.toRuleHeader

/-- What a task of the frame answers. -/
def verdict : Verdict Unit := fun g id _ sound =>
  match g.get? id with
  | some n => sound || !n.kind.conduct.needsSound
  | none => false

end RenderPlan.Bench
