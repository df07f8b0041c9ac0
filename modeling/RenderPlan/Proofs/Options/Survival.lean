/-
# RenderPlan.Proofs.Options.Survival -- settings survive JSON

Settings that are written as JSON are read back as they were. And if somebody drops some of the fields on
the way, at any depth, puts the others into another order and adds members of other names, then, however
all of this is spelled, exactly the dropped fields are lost: each is what it is by default in the settings
that it belongs to (`without`). `SurvivesJson` says this for one kind of settings, `settings_survive_json` for
all four.

Text is written and read by a library of which no more is known than what is documented
(`Library.Documented`). A kind of settings contributes its fields, in the order of their names, and what is
left of it without some of them.
-/
import RenderPlan.Options.Json
import RenderPlan.Proofs.Json.Library

namespace RenderPlan

open Json (Dropped Trims Holds Printable Library Kept Keeps)

variable {lib : Library}

/-! ## The four kinds of settings -/

namespace QueueOptions

/-- The settings with the dropped fields at their defaults. -/
def without (drop : Dropped) (o : QueueOptions) : QueueOptions :=
  let d : QueueOptions := {}
  { threads := if drop.here "threads" then d.threads else o.threads
    dedicatedLane := if drop.here "dedicated_lane" then d.dedicatedLane else o.dedicatedLane
    traceTasks := if drop.here "trace_tasks" then d.traceTasks else o.traceTasks
    traceWaits := if drop.here "trace_waits" then d.traceWaits else o.traceWaits }

theorem kept (h : lib.Documented) : Kept lib (codec lib) without 1 := by
  have htruth := h.kept_truth
  refine .record h (.cons h.kept_optionalWord (.cons htruth (.cons htruth (.cons htruth .nil))))
    (show ["threads", "dedicated_lane", "trace_tasks", "trace_waits"].Nodup by decide) ?_ fun _ => rfl
  intro drop o
  rw [without]
  split_ifs <;> rfl

end QueueOptions

namespace ContextOptions

/-- The settings with the dropped fields at their defaults. If all settings of the pool are dropped, they
are those that a context has by default; if some of them are, these are what a pool has by default. -/
def without (drop : Dropped) (o : ContextOptions) : ContextOptions :=
  let d : ContextOptions := {}
  { queue := if drop.here "queue" then d.queue else o.queue.without (drop.within "queue") }

theorem kept (h : lib.Documented) : Kept lib (codec lib) without 2 := by
  refine .record h (.cons (QueueOptions.kept h) .nil) (List.nodup_singleton "queue") ?_ fun _ => rfl
  intro drop o
  rw [without]
  split_ifs <;> rfl

end ContextOptions

namespace OptimizerOptions

/-- The settings with the dropped fields at their defaults. -/
def without (drop : Dropped) (o : OptimizerOptions) : OptimizerOptions :=
  let d : OptimizerOptions := {}
  { maxSteps := if drop.here "max_steps" then d.maxSteps else o.maxSteps
    logSteps := if drop.here "log_steps" then d.logSteps else o.logSteps }

theorem kept (h : lib.Documented) : Kept lib (codec lib) without 1 := by
  refine .record h (.cons h.kept_word (.cons h.kept_truth .nil))
    (show ["max_steps", "log_steps"].Nodup by decide) ?_ fun _ => rfl
  intro drop o
  rw [without]
  split_ifs <;> rfl

end OptimizerOptions

namespace RenderOptions

/-- The settings with the dropped fields at their defaults. -/
def without (drop : Dropped) (o : RenderOptions) : RenderOptions :=
  let d : RenderOptions := {}
  { optimizer := if drop.here "optimizer" then d.optimizer
      else o.optimizer.without (drop.within "optimizer")
    logTaskLists := if drop.here "log_task_lists" then d.logTaskLists else o.logTaskLists
    measure := if drop.here "measure" then d.measure else o.measure }

theorem kept (h : lib.Documented) : Kept lib (codec lib) without 2 := by
  have htruth := h.kept_truth.mono (Nat.zero_le 1)
  refine .record h (.cons (OptimizerOptions.kept h) (.cons htruth (.cons htruth .nil)))
    (show ["optimizer", "log_task_lists", "measure"].Nodup by decide) ?_ fun _ => rfl
  intro drop o
  rw [without]
  split_ifs <;> rfl

end RenderOptions

/-! ## Text -/

/-- Settings of one kind survive JSON. Written and read they are as they were; and whatever text holds a
record that is made of theirs and not nested too deep, what is read is what was not dropped. -/
structure SurvivesJson {α : Type} (lib : Library) (what : OptionsKind) (codec : lib.Codec α)
    (without : Dropped → α → α) : Prop where
  written : ∀ o, Holds (lib.toText codec o) (lib.encode codec o)
  round_trip : ∀ o, what.parse lib codec (lib.toText codec o) = .ok o
  trimmed : ∀ o drop j text, Trims drop (lib.encode codec o) j → j.depth < 128 → Holds text j →
    what.parse lib codec text = .ok (without drop o)

theorem survivesJson_of_kept {α : Type} {codec : lib.Codec α} {without : Dropped → α → α} {n : Nat}
    (hlib : lib.Documented) (h : Kept lib codec without n) (hn : n < 128) (what : OptionsKind) :
    SurvivesJson lib what codec without := by
  have hwritten : ∀ o, Holds (lib.toText codec o) (lib.encode codec o) :=
    fun o => hlib.writes codec o (h.printable o)
  have htrimmed : ∀ o drop j text, Trims drop (lib.encode codec o) j → j.depth < 128 → Holds text j →
      what.parse lib codec text = .ok (without drop o) := by
    intro o drop j text htrims hdepth hholds
    rw [OptionsKind.parse, hlib.reads codec hholds hdepth (h.reads htrims)]
    rfl
  refine ⟨hwritten, fun o => ?_, htrimmed⟩
  have hdepth := (h.depth_le o).trans_lt hn
  rw [htrimmed o .nothing _ _ (h.trims_nothing o) hdepth (hwritten o), h.without_nothing]

/-- **Settings survive JSON.** With every library that does what is documented, all four kinds are read back
as they were written. From every text that holds some of the fields that were written, in any order and
among members of other names, exactly these fields are read, and each other one is the default of the
settings that it belongs to. -/
theorem settings_survive_json (hlib : lib.Documented) :
    SurvivesJson lib .queue (QueueOptions.codec lib) QueueOptions.without ∧
      SurvivesJson lib .context (ContextOptions.codec lib) ContextOptions.without ∧
      SurvivesJson lib .optimizer (OptimizerOptions.codec lib) OptimizerOptions.without ∧
      SurvivesJson lib .render (RenderOptions.codec lib) RenderOptions.without :=
  ⟨survivesJson_of_kept hlib (QueueOptions.kept hlib) (by decide) _,
    survivesJson_of_kept hlib (ContextOptions.kept hlib) (by decide) _,
    survivesJson_of_kept hlib (OptimizerOptions.kept hlib) (by decide) _,
    survivesJson_of_kept hlib (RenderOptions.kept hlib) (by decide) _⟩

/-! ### A text with less and with more

Two of the settings are missing, one of them inside others, the rest is in another order, and somebody has
added two members. -/

/-- The settings. -/
def thorough : RenderOptions :=
  { optimizer := { maxSteps := 7, logSteps := true }, logTaskLists := true, measure := true }

/-- What is dropped. -/
def twoDropped : Dropped := fun path => path ∈ [["optimizer", "max_steps"], ["log_task_lists"]]

/-- What is left of the inner settings. -/
def sparseInner : Json := .object [(some "hint", .ofString "fast"), (some "log_steps", .bool true)]

/-- What is left. -/
def sparse : Json :=
  .object [(some "newer", .array [.null]), (some "measure", .bool true), (some "optimizer", sparseInner)]

/-- What is read. -/
def recovered : RenderOptions := { optimizer := { logSteps := true }, measure := true }

theorem trims_sparseInner :
    Trims (twoDropped.within "optimizer") thorough.optimizer.toJson sparseInner := by
  change Trims _ (.ofMembers [("max_steps", .ofNat 7), ("log_steps", .bool true)]) _
  have hothers : ∀ m ∈ [(some "hint", Json.ofString "fast")],
      ∃ key, m.1 = some key ∧ key ∉ ["max_steps", "log_steps"] := by decide
  refine .object (fun _ => .bool true) ?_ hothers ?_
  · simp only [List.forall_mem_cons]
    exact ⟨fun hdrop => absurd hdrop (by decide), fun _ => .scalar nofun, List.forall_mem_nil _⟩
  · exact List.Perm.swap _ _ []

theorem trims_sparse : Trims twoDropped thorough.toJson sparse := by
  change Trims _ (.ofMembers [("optimizer", thorough.optimizer.toJson), ("log_task_lists", .bool true),
    ("measure", .bool true)]) _
  have hothers : ∀ m ∈ [(some "newer", Json.array [.null])],
      ∃ key, m.1 = some key ∧ key ∉ ["optimizer", "log_task_lists", "measure"] := by decide
  refine .object (fun key => if key = "optimizer" then sparseInner else .bool true) ?_ hothers ?_
  · simp only [List.forall_mem_cons]
    exact ⟨fun _ => trims_sparseInner, fun hdrop => absurd hdrop (by decide), fun _ => .scalar nofun,
      List.forall_mem_nil _⟩
  · exact List.reverse_perm [(some "optimizer", sparseInner), (some "measure", .bool true),
      (some "newer", .array [.null])]

theorem holds_sparse : Holds sparse.render sparse := by
  refine Json.holds_render (.object (by simp) ?_)
  simp only [List.forall_mem_cons]
  refine ⟨.array ?_, .bool true, .object (by simp) ?_, List.forall_mem_nil _⟩
  · exact List.forall_mem_singleton.mpr .null
  · simp only [List.forall_mem_cons]
    exact ⟨.string "fast", .bool true, List.forall_mem_nil _⟩

/-- Its text. -/
def sparseText : String :=
  "\x7b\"newer\":[null],\"measure\":true," ++
    "\"optimizer\":\x7b\"hint\":\"fast\",\"log_steps\":true\x7d\x7d"

theorem settings_survive_json_sparse :
    Library.own.Documented ∧ sparse.render = sparseText ∧ Trims twoDropped thorough.toJson sparse ∧
      sparse.depth < 128 ∧ Holds sparse.render sparse ∧
      RenderOptions.parse thorough.toJson.render = .ok thorough ∧
      RenderOptions.parse sparseText = .ok recovered := by
  obtain ⟨-, -, -, hrender⟩ := settings_survive_json Json.own_documented
  have htext : sparse.render = sparseText := by decide +kernel
  have hdepth : sparse.depth < 128 := by decide
  have hrecovered : thorough.without twoDropped = recovered := by decide
  have hparse := hrender.trimmed thorough twoDropped sparse _ trims_sparse hdepth holds_sparse
  rw [htext, hrecovered] at hparse
  exact ⟨Json.own_documented, htext, trims_sparse, hdepth, holds_sparse, hrender.round_trip thorough,
    hparse⟩

end RenderPlan
