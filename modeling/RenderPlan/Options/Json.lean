/-
# RenderPlan.Options.Json -- settings and other values as JSON

Each group of settings is a record with a list of fields and a default for all of them, and a library for
JSON makes a codec of it. So absent fields take the default of their own group. Whatever the library does
not read is refused in the words of the group.

A rectangle is a record too, but none of its edges may be absent.
-/
import RenderPlan.Options.Basic
import RenderPlan.Json.Library
import RenderPlan.Error

namespace RenderPlan

open Json (Field Library)

section Settings

variable (lib : Library)

namespace QueueOptions

def fields : List (Field lib.Codec QueueOptions) := [
  ⟨"threads", Option UInt64, lib.optionalWord, threads, fun v o => { o with threads := v }⟩,
  ⟨"dedicated_lane", Bool, lib.truth, dedicatedLane, fun v o => { o with dedicatedLane := v }⟩,
  ⟨"trace_tasks", Bool, lib.truth, traceTasks, fun v o => { o with traceTasks := v }⟩,
  ⟨"trace_waits", Bool, lib.truth, traceWaits, fun v o => { o with traceWaits := v }⟩]

def codec : lib.Codec QueueOptions := lib.record "QueueOpts" {} (fields lib)

end QueueOptions

namespace ContextOptions

def fields : List (Field lib.Codec ContextOptions) := [
  ⟨"queue", QueueOptions, QueueOptions.codec lib, queue, fun v o => { o with queue := v }⟩]

def codec : lib.Codec ContextOptions := lib.record "ContextOpts" {} (fields lib)

end ContextOptions

namespace OptimizerOptions

def fields : List (Field lib.Codec OptimizerOptions) := [
  ⟨"max_steps", UInt64, lib.word, maxSteps, fun v o => { o with maxSteps := v }⟩,
  ⟨"log_steps", Bool, lib.truth, logSteps, fun v o => { o with logSteps := v }⟩]

def codec : lib.Codec OptimizerOptions := lib.record "OptimizerOpts" {} (fields lib)

end OptimizerOptions

namespace RenderOptions

def fields : List (Field lib.Codec RenderOptions) := [
  ⟨"optimizer", OptimizerOptions, OptimizerOptions.codec lib, optimizer,
    fun v o => { o with optimizer := v }⟩,
  ⟨"log_task_lists", Bool, lib.truth, logTaskLists, fun v o => { o with logTaskLists := v }⟩,
  ⟨"measure", Bool, lib.truth, measure, fun v o => { o with measure := v }⟩]

def codec : lib.Codec RenderOptions := lib.record "RenderOpts" {} (fields lib)

end RenderOptions

/-- Reads settings from text. -/
def OptionsKind.parse {α : Type} (what : OptionsKind) (codec : lib.Codec α) (text : String) :
    Except Error α :=
  (lib.ofText codec text).mapError (.invalidOptions what)

end Settings

/-! ## With the library at hand -/

namespace QueueOptions

def toJson : QueueOptions → Json := Library.own.encode (codec .own)

def parse : String → Except Error QueueOptions := OptionsKind.queue.parse .own (codec .own)

end QueueOptions

namespace ContextOptions

def toJson : ContextOptions → Json := Library.own.encode (codec .own)

def parse : String → Except Error ContextOptions := OptionsKind.context.parse .own (codec .own)

end ContextOptions

namespace OptimizerOptions

def toJson : OptimizerOptions → Json := Library.own.encode (codec .own)

def parse : String → Except Error OptimizerOptions := OptionsKind.optimizer.parse .own (codec .own)

end OptimizerOptions

namespace RenderOptions

def toJson : RenderOptions → Json := Library.own.encode (codec .own)

def parse : String → Except Error RenderOptions := OptionsKind.render.parse .own (codec .own)

end RenderOptions

/-! ## Other values -/

namespace Rect

def fieldNames : List String := ["min_x", "min_y", "max_x", "max_y"]

def toJson (r : Rect) : Json :=
  .ofMembers [
    ("min_x", .integer r.minX.toInt), ("min_y", .integer r.minY.toInt),
    ("max_x", .integer r.maxX.toInt), ("max_y", .integer r.maxY.toInt)]

def ofJson? (j : Json) : Option Rect := do
  match ← j.record? fieldNames with
  | [some minX, some minY, some maxX, some maxY] =>
    return ⟨← minX.int32?, ← minY.int32?, ← maxX.int32?, ← maxY.int32?⟩
  | _ => none

end Rect

def Lane.toJson (l : Lane) : Json := .ofString l.name

def Lane.ofJson? (j : Json) : Option Lane := j.name?.bind Lane.ofName?

def Category.toJson (c : Category) : Json := .ofString c.name

def Category.ofJson? (j : Json) : Option Category := j.name?.bind Category.ofName?

def Mask.toJson (m : Mask) : Json := .ofString m.text

def Mask.ofJson? (j : Json) : Option Mask := j.text?.bind Mask.read?

end RenderPlan
