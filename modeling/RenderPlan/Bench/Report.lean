/-
# RenderPlan.Bench.Report -- percentiles of the stages

The benchmark times three stages of each run and reports three percentiles of each. A percentile is
the value of a rank in the sorted times, so it is always a time that occurred. Times are counted in
nanoseconds and shown in milliseconds.
-/
import RenderPlan.Json.Printer
import RenderPlan.Decimal.Double

namespace RenderPlan.Bench

/-- The times of one run. -/
structure Times where
  build : Nat := 0
  optimize : Nat := 0
  total : Nat := 0
  deriving DecidableEq, Repr

/-- The stages in the order of the report, with their times. -/
def stages : List (String × (Times → Nat)) :=
  [("build", Times.build), ("optimize", Times.optimize), ("run_total", Times.total)]

/-- The percentiles that are reported. -/
def percents : List Nat := [50, 90, 99]

/-- The value at `percent` of the way through the sorted times; zero if there are none. -/
def percentile (percent : Nat) (sorted : List Nat) : Nat :=
  let rank := max 1 ((percent * sorted.length + 99) / 100)
  sorted[rank - 1]?.getD 0

/-- Milliseconds with three decimals. -/
def milliseconds (nanoseconds : Nat) : String :=
  let thousandths := Decimal.roundDiv nanoseconds 1000
  toString (thousandths / 1000) ++ "." ++ Decimal.padded 3 (thousandths % 1000)

/-- The text moved to the right end of a field. -/
def alignRight (width : Nat) (s : String) : String :=
  String.ofList (List.replicate (width - s.length) ' ') ++ s

/-- The text moved to the left end of a field. -/
def alignLeft (width : Nat) (s : String) : String :=
  s ++ String.ofList (List.replicate (width - s.length) ' ')

/-- The times of a stage in increasing order. -/
def sortedTimes (time : Times → Nat) (runs : List Times) : List Nat :=
  (runs.map time).mergeSort

/-- The line of a stage. -/
def stageLine (runs : List Times) (stage : String × (Times → Nat)) : String :=
  let sorted := sortedTimes stage.2 runs
  let fields := percents.map fun p =>
    "p" ++ toString p ++ "=" ++ alignRight 10 (milliseconds (percentile p sorted)) ++ "ms"
  "  " ++ alignLeft 10 stage.1 ++ " " ++ "  ".intercalate fields

/-- What the last run had to do; nothing if there was none. -/
structure Totals where
  tasks : Nat := 0
  edges : Nat := 0
  deriving DecidableEq, Repr

/-- The lines of the report. -/
def reportLines (totals : Totals) (runs : List Times) : List String :=
  ["", "scheduled " ++ toString totals.tasks ++ " task(s), " ++ toString totals.edges ++
      " dependency edge(s) per frame",
    "percentiles across runs (p50/p90/p99):"] ++ stages.map (stageLine runs)

/-- Milliseconds as a number. -/
def millisecondsJson (nanoseconds : Nat) : Json :=
  .decimal ⟨false, .normal nanoseconds (-6)⟩

/-- The summary as a document. -/
def summary (totals : Totals) (runs : List Times) : Json :=
  let stageJson (stage : String × (Times → Nat)) : String × Json :=
    let sorted := sortedTimes stage.2 runs
    (stage.1, .ofMembers (percents.map fun p =>
      ("p" ++ toString p ++ "_ms", millisecondsJson (percentile p sorted))))
  .ofMembers [
    ("edges", .ofNat totals.edges),
    ("runs", .ofNat runs.length),
    ("stages", .ofMembers (stages.map stageJson)),
    ("tasks", .ofNat totals.tasks)]

end RenderPlan.Bench
