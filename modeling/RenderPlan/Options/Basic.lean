/-
# RenderPlan.Options.Basic -- what can be set

Four groups of settings, each with a default for every field. A group inside another group has its
own defaults.
-/

namespace RenderPlan

/-- Settings of a worker pool. -/
structure QueueOptions where
  /-- The number of workers, by default as many as the machine runs at once. A pool never has
  fewer than two. -/
  threads : Option UInt64 := none
  /-- The first worker serves the dedicated lane and the others the shared one. When off, every
  worker serves every lane. -/
  dedicatedLane : Bool := true
  /-- Workers log the begin and the end of every job. -/
  traceTasks : Bool := false
  /-- Workers log when they sleep although jobs are pending. -/
  traceWaits : Bool := false
  deriving DecidableEq, Repr

/-- Settings of a rendering context. -/
structure ContextOptions where
  queue : QueueOptions := {}
  deriving DecidableEq, Repr

/-- Settings of the sweep over the rules. -/
structure OptimizerOptions where
  /-- How many steps the sweep may take. -/
  maxSteps : UInt64 := 1000000
  /-- Log the list before each step. -/
  logSteps : Bool := false
  deriving DecidableEq, Repr

/-- Settings of a renderer. -/
structure RenderOptions where
  optimizer : OptimizerOptions := {}
  /-- Log the submitted list and the optimized one. -/
  logTaskLists : Bool := false
  /-- Log how long the phases of a run take. -/
  measure : Bool := false
  deriving DecidableEq, Repr

end RenderPlan
