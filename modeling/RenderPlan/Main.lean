/-
# RenderPlan.Main -- the command line of the benchmark

Renders the frame once per warmup and per run, takes the time of the stages, and prints what
`Bench.transcript` makes of them.
-/
import RenderPlan.Bench.Session

open RenderPlan RenderPlan.Bench

/-- The nanoseconds that an action takes, with its answer. -/
def timed {α : Type} (act : Unit → IO α) : IO (α × Nat) := do
  let before ← IO.monoNanosNow
  let a ← act ()
  let after ← IO.monoNanosNow
  return (a, after - before)

/-- Builds, optimizes and renders one frame. -/
def timedRun (a : Arguments) (pool : Pool TaskId Unit) (registry : Registry) : IO Times := do
  let (frame, build) ← timed fun _ => pure (Frame.build a)
  let r : Renderer := ⟨0, ⟨0⟩, {}⟩
  let (_, optimize) ← timed fun _ => do
    let o := (r.setup rules registry).optimize () frame.graph (frame.roots.map some)
    pure o.list.length
  let (_, total) ← timed fun _ => do
    let ran := r.run verdict rules registry () frame.graph frame.roots () 0 pool
    pure ran.result.isOk
  return ⟨build, optimize, total⟩

/-- The times of all runs, after the warmup. -/
def timedRuns (available : Nat) (args : List String) : IO (List Times) := do
  match Request.parse args with
  | .ok (.run a) =>
    match startPool available a, registry with
    | .ok pool, .ok registry =>
      for _ in [0 : a.warmup.toNat] do
        let _ ← timedRun a pool registry
      let mut times := #[]
      for _ in [0 : a.repeats.toNat] do
        times := times.push (← timedRun a pool registry)
      return times.toList
    | _, _ => return []
  | _ => return []

/-- Runs the benchmark on a machine that runs so many workers at once. -/
def bench (available : Nat) (args : List String) : IO UInt32 := do
  let times ← timedRuns available args
  let t := transcript available (fun _ => times) args
  for line in t.lines do
    IO.eprintln line
  match t.summary with
  | some doc => IO.println doc.render
  | none => pure ()
  return t.code.toUInt32

/-- Runs the benchmark. The machine is not asked how many workers it runs at once: it counts as one that
runs two, the fewest that a pool has. Only the number of workers in the first line depends on it, and that
only if the arguments do not give it. -/
def main (args : List String) : IO UInt32 := bench 2 args
