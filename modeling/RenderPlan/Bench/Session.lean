/-
# RenderPlan.Bench.Session -- what the benchmark prints

A session is the pure part of the benchmark: from the arguments to the lines, the summary and the
exit code. All runs of a session render the same frame on an idle pool, so they have the same
outcome and one of them stands for all. Only the times differ; they are measured outside and come
in as a list.
-/
import RenderPlan.Bench.Frame
import RenderPlan.Bench.Report
import RenderPlan.Options.Json

namespace RenderPlan.Bench

/-- Why the benchmark gives up. -/
inductive BenchFault where
  | arguments (f : ArgumentFault)
  | emptyFrame
  | emptyTile
  /-- The settings of the pool cannot be read. -/
  | settings (e : Error)
  /-- The pool cannot be started. -/
  | start (e : Error)
  | refused (e : Error)
  | fault (f : Fault)
  | failedTasks
  deriving DecidableEq, Repr

namespace BenchFault

def text : BenchFault → String
  | arguments f => f.text
  | emptyFrame => "--width/--height must be > 0"
  | emptyTile => "--tile must be > 0"
  | settings e => "parse --queue-json: " ++ e.message
  | start e => "start render context: " ++ e.message
  | refused e => e.message
  | fault _ => "task trees are not well-formed"
  | failedTasks => "bench frame reported failed tasks"

end BenchFault

/-- What the benchmark prints, and its exit code. -/
structure Transcript where
  code : UInt8
  /-- The lines on the error stream. -/
  lines : List String
  /-- The summary on the output stream, if it was asked for. -/
  summary : Option Json

/-- Settings of the pool: those given as text, with the number of workers from the command
line. -/
def queueOptions (a : Arguments) : Except BenchFault QueueOptions := do
  let o ← match a.queueText with
    | some text => (QueueOptions.parse text).mapError .settings
    | none => .ok {}
  return { o with threads := a.threads.or o.threads }

/-- Refuses arguments that leave nothing to render, and starts the pool. -/
def startPool (available : Nat) (a : Arguments) : Except BenchFault (Pool TaskId Unit) := do
  if a.width = 0 ∨ a.height = 0 then throw .emptyFrame
  if a.tile = 0 then throw .emptyTile
  (Pool.create available (← queueOptions a)).mapError .start

/-- Renders the frame once on an idle pool. -/
def renderFrame (a : Arguments) (pool : Pool TaskId Unit) : Except BenchFault RunReport := do
  let registry ← registry.mapError .refused
  let f := Frame.build a
  let r : Renderer := ⟨0, ⟨0⟩, {}⟩
  match (r.run verdict rules registry () f.graph f.roots () 0 pool).result with
  | .error (.error e) => throw (.refused e)
  | .error (.fault f) => throw (.fault f)
  | .ok report => if report.success then return report else throw .failedTasks

/-- What a run had to do, if there is any run. -/
def totals (a : Arguments) (pool : Pool TaskId Unit) : Except BenchFault Totals := do
  if a.warmup = 0 ∧ a.repeats = 0 then return {}
  let report ← renderFrame a pool
  if a.repeats = 0 then return {}
  return ⟨report.optimizedTasks, report.dependencyEdges⟩

/-- The lines before the report. -/
def headLines (a : Arguments) (threads : Nat) : List String :=
  let word (n : UInt32) := toString n.toNat
  ["bench: " ++ word a.repeats ++ " run(s) (release build), " ++ word a.width ++ "x" ++
    word a.height ++ " tiles of " ++ word a.tile ++ "px, overlap=" ++ word a.overlap ++
    ", work=" ++ word a.work ++ ", threads=" ++ toString threads] ++
  (if a.warmup = 0 then [] else ["warmup: " ++ word a.warmup ++ " run(s)"])

/-- A session that gives up after some lines. -/
def givingUp (lines : List String) (f : BenchFault) : Transcript := ⟨1, lines ++ [f.text], none⟩

/-- A session with given times, one for each run. `available` is how many workers the machine runs
at once. -/
def transcript (available : Nat) (times : Arguments → List Times) (args : List String) :
    Transcript :=
  match Request.parse args with
  | .error f => givingUp [] (.arguments f)
  | .ok .help => ⟨0, helpLines, none⟩
  | .ok (.run a) =>
    match startPool available a with
    | .error f => givingUp [] f
    | .ok pool =>
      let head := headLines a pool.threadCount
      match totals a pool with
      | .error f => givingUp head f
      | .ok totals =>
        let runs := times a
        ⟨0, head ++ reportLines totals runs, if a.json then some (summary totals runs) else none⟩

/-- Times of a clock that stands still. -/
def noTimes (a : Arguments) : List Times := List.replicate a.repeats.toNat {}

end RenderPlan.Bench
