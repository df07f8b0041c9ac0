/-
# RenderPlan.Bench.Arguments -- the command line of the benchmark

Arguments are read from left to right and a later one overrides an earlier one. The first fault
ends the reading, and so does a request for help.
-/
import RenderPlan.Error

namespace RenderPlan.Bench

/-- What the benchmark is asked to do. -/
structure Arguments where
  width : UInt32 := 1920
  height : UInt32 := 1080
  /-- The edge of a tile. -/
  tile : UInt32 := 64
  /-- How far a tile reaches over its right neighbour. -/
  overlap : UInt32 := 2
  /-- Iterations of busy work for each row of a tile. -/
  work : UInt32 := 200
  warmup : UInt32 := 2
  repeats : UInt32 := 50
  threads : Option UInt64 := none
  queueText : Option String := none
  json : Bool := false
  deriving DecidableEq, Repr

/-- Why a text is no number. -/
inductive NumberFault where
  | empty
  | invalidDigit
  | tooLarge
  deriving DecidableEq, Repr

namespace NumberFault

def text : NumberFault → String
  | empty => "cannot parse integer from empty string"
  | invalidDigit => "invalid digit found in string"
  | tooLarge => "number too large to fit in target type"

end NumberFault

/-- Why the arguments are refused. -/
inductive ArgumentFault where
  | missing (flag : String)
  | missingQueueText
  | badNumber (flag value : String) (why : NumberFault)
  | unknown (arg : String)
  deriving DecidableEq, Repr

namespace ArgumentFault

def text : ArgumentFault → String
  | missing flag => "missing value for " ++ flag
  | missingQueueText => "missing value for --queue-json (expected a JSON object)"
  | badNumber flag value why => "parse " ++ flag ++ " value '" ++ value ++ "': " ++ why.text
  | unknown arg => "unknown arg '" ++ arg ++ "' (try --help)"

end ArgumentFault

/-- Reads on with decimal digits, up to a largest value. The first offence counts. -/
def readDigits (largest : Nat) : Nat → List Char → Except NumberFault Nat
  | n, [] => .ok n
  | n, c :: cs =>
    if c.isDigit then
      let n := 10 * n + (c.toNat - '0'.toNat)
      if n ≤ largest then readDigits largest n cs else .error .tooLarge
    else .error .invalidDigit

/-- Reads a natural number, with an optional plus sign. -/
def readNumber (largest : Nat) (s : String) : Except NumberFault Nat :=
  match s.toList with
  | [] => .error .empty
  | '+' :: c :: cs => readDigits largest 0 (c :: cs)
  | cs => readDigits largest 0 cs

/-- The number behind a flag. -/
def numberFor (largest : Nat) (flag : String) : List String →
    Except ArgumentFault (Nat × List String)
  | [] => .error (.missing flag)
  | value :: rest =>
    match readNumber largest value with
    | .ok n => .ok (n, rest)
    | .error why => .error (.badNumber flag value why)

/-- A 32-bit number behind a flag. -/
def word32For (flag : String) (rest : List String) : Except ArgumentFault (UInt32 × List String) :=
  (numberFor 0xFFFFFFFF flag rest).map fun r => (UInt32.ofNat r.1, r.2)

/-- What the command line asks for. -/
inductive Request where
  | help
  | run (a : Arguments)
  deriving DecidableEq, Repr

/-- Reads one argument with its value: the arguments so far and what is left, none for help. -/
def readOne (a : Arguments) (arg : String) (rest : List String) :
    Except ArgumentFault (Option (Arguments × List String)) := do
  match arg with
  | "--width" =>
    let (n, rest) ← word32For arg rest
    return some ({ a with width := n }, rest)
  | "--height" =>
    let (n, rest) ← word32For arg rest
    return some ({ a with height := n }, rest)
  | "--tile" =>
    let (n, rest) ← word32For arg rest
    return some ({ a with tile := n }, rest)
  | "--overlap" =>
    let (n, rest) ← word32For arg rest
    return some ({ a with overlap := n }, rest)
  | "--work" =>
    let (n, rest) ← word32For arg rest
    return some ({ a with work := n }, rest)
  | "--warmup" =>
    let (n, rest) ← word32For arg rest
    return some ({ a with warmup := n }, rest)
  | "--repeats" =>
    let (n, rest) ← word32For arg rest
    return some ({ a with repeats := n }, rest)
  | "--threads" =>
    let (n, rest) ← numberFor 0xFFFFFFFFFFFFFFFF arg rest
    return some ({ a with threads := some (UInt64.ofNat n) }, rest)
  | "--queue-json" =>
    match rest with
    | [] => throw .missingQueueText
    | text :: rest => return some ({ a with queueText := some text }, rest)
  | "--json" => return some ({ a with json := true }, rest)
  | "--help" | "-h" => return none
  | _ => throw (.unknown arg)

/-- Reads arguments; `bound` is at least their number. -/
def readAll : Nat → Arguments → List String → Except ArgumentFault Request
  | _, a, [] => .ok (.run a)
  | 0, a, _ => .ok (.run a)
  | bound + 1, a, arg :: rest => do
    match ← readOne a arg rest with
    | none => return .help
    | some (a, rest) => readAll bound a rest

/-- Reads a command line. -/
def Request.parse (args : List String) : Except ArgumentFault Request :=
  readAll args.length {} args

/-- The help text, line by line. -/
def helpLines : List String := [
  "rasterflow-bench",
  "",
  "Schedules a synthetic tiled frame repeatedly and reports p50/p90/p99 for each stage.",
  "",
  "Usage:",
  "  cargo run -q --release",
  "  cargo run -q --release -- --repeats 100 --tile 32",
  "  cargo run -q --release -- --threads 4 --json",
  "",
  "Args:",
  "  --width N        (default 1920)",
  "  --height N       (default 1080)",
  "  --tile N         tile edge in pixels (default 64)",
  "  --overlap N      horizontal overlap between neighbouring tiles (default 2)",
  "  --work N         busy-loop iterations per tile row (default 200)",
  "  --warmup N       (default 2)",
  "  --repeats N      (default 50)",
  "  --threads N      worker threads (default auto)",
  "  --queue-json S   queue options as JSON, e.g. '\x7b\"dedicated_lane\": false\x7d'",
  "  --json           print the percentile summary as JSON on stdout",
  ""]

end RenderPlan.Bench
