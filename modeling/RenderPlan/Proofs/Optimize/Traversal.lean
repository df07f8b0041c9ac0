/-
# RenderPlan.Proofs.Optimize.Traversal -- which rules a visit calls, and in which order

Where rules find nothing to do, the order in which they are called depends on nothing but the rules,
the trees and the list. This module writes that order down as a list of calls that are due
(`taskCalls`, `entriesCalls`), without workspaces and without stops: for a task the rules that come
before the sub-tasks, then its sub-tasks from left to right, each with all that is below it, and then
the rules that come after.

Rules may remember things. So a call finds nothing to do not by itself, but with the memory that the
calls before it have left behind; `IdleAlong` says so of a whole list of calls. If all that is due is
idle, a visit makes exactly these calls (`visit_idle`), and its view comes back as it was.
-/
import RenderPlan.Proofs.Category.Membership
import RenderPlan.Proofs.Graph.Dump
import RenderPlan.Proofs.Optimize.Moves

namespace RenderPlan

variable {σ : Type}

/-! ## Calls that are due -/

/-- A call to be made: a rule, and what it is called for. -/
structure DueCall (σ : Type) where
  member : Member σ
  gate : Mask
  target : CallTarget

namespace DueCall

/-- The call finds nothing to do: the rule returns, leaves the graph and what it is called for as they
are, reports no category and asks for no repeat. -/
def Idle (c : DueCall σ) (g : Graph) (user : σ) : Prop :=
  match c.target with
  | .list list =>
    let a := c.member.rule.runList ⟨user, g, list, c.gate, ∅⟩
    a.fault = none ∧ a.call.graph = g ∧ a.call.list = list ∧ a.call.affects = ∅
  | .task v =>
    let a := c.member.rule.runTask ⟨user, g, v⟩
    a.fault = none ∧ a.call.graph = g ∧ a.call.view.task = v.task ∧ a.call.view.affects = ∅ ∧
      a.call.view.mode = .none

/-- What is remembered after the call. -/
def remembered (c : DueCall σ) (g : Graph) (user : σ) : σ :=
  match c.target with
  | .list list => (c.member.rule.runList ⟨user, g, list, c.gate, ∅⟩).call.user
  | .task v => (c.member.rule.runTask ⟨user, g, v⟩).call.user

/-- What the journal keeps of the call if it finds nothing to do. -/
def record (c : DueCall σ) : CallRecord := ⟨c.member.id, c.target, ∅, false⟩

end DueCall

/-- What is remembered after these calls, made one after the other. -/
def rememberedAlong (g : Graph) (user : σ) (cs : List (DueCall σ)) : σ :=
  cs.foldl (fun user c => c.remembered g user) user

/-- These calls, made one after the other, all find nothing to do. -/
def IdleAlong (g : Graph) : σ → List (DueCall σ) → Prop
  | _, [] => True
  | user, c :: cs => c.Idle g user ∧ IdleAlong g (c.remembered g user) cs

deriving instance DecidableEq for Graph

instance (c : DueCall σ) (g : Graph) (user : σ) : Decidable (c.Idle g user) :=
  match c with
  | ⟨_, _, .list _⟩ => inferInstanceAs (Decidable (_ ∧ _ ∧ _ ∧ _))
  | ⟨_, _, .task _⟩ => inferInstanceAs (Decidable (_ ∧ _ ∧ _ ∧ _ ∧ _))

instance decidableIdleAlong (g : Graph) :
    ∀ (user : σ) (cs : List (DueCall σ)), Decidable (IdleAlong g user cs)
  | _, [] => .isTrue trivial
  | user, c :: cs =>
    have := decidableIdleAlong g (c.remembered g user) cs
    inferInstanceAs (Decidable (_ ∧ _))

variable {g : Graph} {user : σ} {cs ds : List (DueCall σ)}

theorem rememberedAlong_append : rememberedAlong g user (cs ++ ds) =
    rememberedAlong g (rememberedAlong g user cs) ds :=
  List.foldl_append

theorem idleAlong_append : IdleAlong g user (cs ++ ds) ↔
    IdleAlong g user cs ∧ IdleAlong g (rememberedAlong g user cs) ds := by
  induction cs generalizing user with
  | nil => exact ⟨fun h => ⟨trivial, h⟩, And.right⟩
  | cons c cs ih =>
      simp only [List.cons_append, IdleAlong, ih, and_assoc]
      exact Iff.rfl

/-! ## The order -/

/-- The calls of the rules of a step for a task: of those that come before the sub-tasks, or of those
that come after. -/
def ruleCalls (deepFirst : Bool) (members : List (Member σ)) (v : TaskView) : List (DueCall σ) :=
  (members.filter fun m => m.rule.descriptor.deepFirst = deepFirst ∧
    m.rule.descriptor.appliesToTask v.parent.isSome).map fun m => ⟨m, v.gate, .task v⟩

/-- The sub-tasks of a task, from left to right. -/
def Graph.subTasks (g : Graph) (task : Option TaskId) : List TaskId :=
  match task.bind g.get? with
  | some n => n.children
  | none => []

/-- The most slots that a node has. -/
def Graph.width (g : Graph) : Nat := (g.nodes.toList.map fun n => n.subTasks.length).foldr max 0

theorem Graph.length_subTasks_le_width {task : TaskId} {n : Node} (hn : g.get? task = some n) :
    n.subTasks.length ≤ g.width := by
  have hmem : n ∈ g.nodes.toList := Array.mem_toList_iff.mpr (Array.mem_of_getElem? hn)
  unfold width
  generalize g.nodes.toList = nodes at hmem
  induction nodes with
  | nil => cases hmem
  | cons m nodes ih =>
      rw [List.map_cons, List.foldr_cons]
      rcases List.mem_cons.mp hmem with rfl | hmem
      · exact Nat.le_max_left _ _
      · exact Nat.le_trans (ih hmem) (Nat.le_max_right _ _)

/-- The calls for a task and, with `deep`, for all that is below it, down to so many levels. A task
that is reached twice has its calls twice. -/
def taskCalls (g : Graph) (members : List (Member σ)) (deep : Bool) :
    Nat → TaskView → List (DueCall σ)
  | 0, _ => []
  | levels + 1, v =>
    ruleCalls false members v ++
      (if deep then
        (g.subTasks v.task).flatMap fun child => taskCalls g members deep levels (v.ofChild child)
      else []) ++
      ruleCalls true members v

/-- The calls for the entries of a list from left to right. On a graph without cycles no path has
more nodes than the graph. -/
def entriesCalls (g : Graph) (step : Step σ) :
    List (Option TaskId) → List (Option TaskId) → List (DueCall σ)
  | _, [] => []
  | before, none :: after => entriesCalls g step before after
  | before, some task :: after =>
    taskCalls g step.members step.forTask (g.size + 1)
        (.ofEntry (before.reverse ++ some task :: after) step.gate task) ++
      entriesCalls g step (some task :: before) after

/-! ## Workspaces after idle calls -/

/-- The later workspace has come out of the earlier one by these calls, which found nothing to do, and
by so many steps of the budget. -/
structure Workspace.After (steps : Nat) (cs : List (DueCall σ)) (w w' : Workspace σ) : Prop where
  graph : w'.graph = w.graph
  user : w'.user = rememberedAlong w.graph w.user cs
  calls : w'.journal.calls = w.journal.calls ++ cs.map DueCall.record
  steps : w'.steps = w.steps + steps

namespace Workspace.After

variable {w w' w'' : Workspace σ} {n k : Nat}

theorem refl (w : Workspace σ) : w.After 0 [] w where
  graph := rfl
  user := rfl
  calls := (List.append_nil _).symm
  steps := rfl

theorem trans (h : w.After n cs w') (h' : w'.After k ds w'') : w.After (n + k) (cs ++ ds) w'' where
  graph := h'.graph.trans h.graph
  user := by rw [h'.user, h.graph, h.user, rememberedAlong_append]
  calls := by rw [h'.calls, h.calls, List.map_append, List.append_assoc]
  steps := by rw [h'.steps, h.steps, Nat.add_assoc]

/-- An event that is no call makes no difference. -/
theorem note (h : w.After n cs w') {e : Entry} (he : e.call? = none) :
    w.After n cs (w'.note e) where
  graph := h.graph
  user := h.user
  calls := by
    have hcalls : (w'.note e).journal.calls = w'.journal.calls := by
      simp [Workspace.note, Journal.calls_cons, he]
    exact hcalls.trans h.calls
  steps := h.steps

/-- What is still due is idle with what the calls have left behind. -/
theorem idle (h : w.After n cs w') (hidle : IdleAlong w.graph w.user (cs ++ ds)) :
    IdleAlong w'.graph w'.user ds := by
  rw [h.graph, h.user]
  exact (idleAlong_append.mp hidle).2

theorem idle_rest {c : DueCall σ} (h : w.After n [c] w')
    (hidle : IdleAlong w.graph w.user (c :: ds)) : IdleAlong w'.graph w'.user ds :=
  h.idle hidle

end Workspace.After

/-! ## Visits -/

namespace Visit

open Work

variable {w : Workspace σ} {maxSteps : Nat} {members : List (Member σ)} {v : TaskView}

/-- The view of a task before anything happened to it. -/
structure Untouched (v : TaskView) : Prop where
  affects : v.affects = ∅
  mode : v.mode = .none

theorem untouched_ofChild (v : TaskView) (child : TaskId) : Untouched (v.ofChild child) := ⟨rfl, rfl⟩

theorem Untouched.clean (h : Untouched v) : v.affects.intersects v.gate = false := by
  rw [h.affects]
  exact Bool.eq_false_iff.mpr Mask.not_intersects_empty

theorem Untouched.fresh (h : Untouched v) {task : TaskId} (htask : v.task = some task) :
    v.isStale = false :=
  TaskView.isStale_eq_false_iff.mpr ⟨by rw [htask]; rfl, h.clean⟩

theorem callRule_idle {m : Member σ} (hv : Untouched v)
    (hidle : DueCall.Idle ⟨m, v.gate, .task v⟩ w.graph w.user) :
    ∃ w', (callRule m v).outcome w = (.ok v, w') ∧ w.After 0 [⟨m, v.gate, .task v⟩] w' := by
  have hfault : (answer m v w).fault = none := hidle.1
  have htask : (answer m v w).call.view.task = v.task := hidle.2.2.1
  have haffects : (answer m v w).call.view.affects = ∅ := hidle.2.2.2.1
  have hmode : (answer m v w).call.view.mode = .none := hidle.2.2.2.2
  have hrecord : record m v w = ⟨m.id, .task v, ∅, false⟩ := by
    simp [record, htask, haffects]
  have hview : viewAfter m v w = v := by
    have hsame : v.affects ∪ ∅ = v.affects ∧ v.mode ∪ .none = v.mode := by
      rw [hv.affects, hv.mode]
      exact ⟨rfl, rfl⟩
    rw [viewAfter, hrecord, htask, hmode, hsame.1, hsame.2]
  refine ⟨workspaceAfter m v w, ?_, hidle.2.1, rfl, ?_, rfl⟩
  · rw [outcome_callRule, hfault, hview]
  · rw [workspaceAfter, hrecord]
    exact Journal.calls_cons

theorem applyRules_idle {deepFirst : Bool} {task : TaskId} (hv : Untouched v)
    (htask : v.task = some task)
    (hidle : IdleAlong w.graph w.user (ruleCalls deepFirst members v)) :
    ∃ w', (applyRules deepFirst members v).outcome w = (.ok (v, true), w') ∧
      w.After 0 (ruleCalls deepFirst members v) w' := by
  induction members generalizing w with
  | nil => exact ⟨w, rfl, .refl w⟩
  | cons m members ih =>
      rw [ruleCalls, List.filter_cons] at hidle ⊢
      rw [applyRules]
      split
      · next happlies =>
          rw [if_pos (decide_eq_true happlies), List.map_cons] at hidle ⊢
          obtain ⟨w', hcall, hafter⟩ := callRule_idle hv hidle.1
          obtain ⟨w'', hrest, hafter'⟩ := ih (hafter.idle_rest hidle)
          refine ⟨w'', ?_, hafter.trans hafter'⟩
          rw [outcome_bind, hcall]
          simp only [hv.fresh htask]
          exact hrest
      · next happlies =>
          rw [if_neg (by simpa using happlies)] at hidle ⊢
          exact ih hidle

theorem absorb_untouched {seen : TaskView} (h : Untouched seen) : absorb v seen = v := by
  rw [absorb, h.affects, h.mode, Mask.union_empty]
  rfl

/-- A sub-task that comes back as it was changes nothing. -/
theorem takeBack_untouched {p : SlotPoint} {task child : TaskId} {seen : TaskView}
    (htask : seen.task = some child) (h : Untouched seen) (w : Workspace σ) :
    (takeBack maxSteps p task child seen).outcome w =
      (.ok ⟨p.copied, p.slot + 1, p.view⟩, w.note (slotEntry task p.slot child seen)) := by
  rw [takeBack, if_pos htask, absorb_untouched h]
  rfl

/-- The slots of a node from one on are visited from left to right. -/
theorem visitSlots_idle {visitChild : TaskView → Work σ TaskView} {task : TaskId} {n : Node}
    (calls : TaskId → List (DueCall σ)) (hv : Untouched v) (htask : v.task = some task)
    (hn : g.get? task = some n)
    (hchild : ∀ child ∈ n.children, ∀ w : Workspace σ, w.graph = g →
      IdleAlong g w.user (calls child) →
        ∃ w', (visitChild (v.ofChild child)).outcome w = (.ok (v.ofChild child), w') ∧
          w.After 0 (calls child) w')
    {rest : List (Option TaskId)} {i limit : Nat} (hrest : n.subTasks.drop i = rest)
    (hlimit : rest.length + 1 ≤ limit) (hg : w.graph = g)
    (hidle : IdleAlong g w.user ((rest.filterMap id).flatMap calls)) :
    ∃ w', (visitSlots maxSteps visitChild limit false i v).outcome w = (.ok (v, true), w') ∧
      w.After 0 ((rest.filterMap id).flatMap calls) w' := by
  induction rest generalizing i limit w with
  | nil =>
      obtain ⟨limit, rfl⟩ : ∃ k, limit = k + 1 := ⟨limit - 1, by omega⟩
      have hend : n.subTasks[i]? = none :=
        List.getElem?_eq_none_iff.mpr (List.drop_eq_nil_iff.mp hrest)
      refine ⟨w, ?_, .refl w⟩
      rw [visitSlots_succ (p := ⟨false, i, v⟩) _ _ _ htask, outcome_bind, outcome_fetch, hg, hn]
      dsimp only
      rw [hend]
      rfl
  | cons slot rest ih =>
      obtain ⟨limit, rfl⟩ : ∃ k, limit = k + 1 := ⟨limit - 1, by omega⟩
      have hslot : n.subTasks[i]? = some slot := by
        rw [← List.head?_drop, hrest]
        rfl
      have hnext : n.subTasks.drop (i + 1) = rest := by
        rw [← List.tail_drop, hrest]
        rfl
      have hlimit' : rest.length + 1 ≤ limit := by simpa using hlimit
      rw [visitSlots_succ (p := ⟨false, i, v⟩) _ _ _ htask, outcome_bind, outcome_fetch, hg, hn]
      dsimp only
      rw [hslot]
      cases slot with
      | none => exact ih hnext hlimit' hg hidle
      | some child =>
          have hmem : child ∈ n.children :=
            List.mem_filterMap.mpr ⟨_, List.mem_of_getElem? hslot, rfl⟩
          have hdue : IdleAlong g w.user (calls child ++ (rest.filterMap id).flatMap calls) := hidle
          obtain ⟨w', hvisit, hafter⟩ := hchild child hmem w hg (idleAlong_append.mp hdue).1
          have hnoted := hafter.note (e := slotEntry task i child (v.ofChild child)) rfl
          obtain ⟨w'', hrest', hafter'⟩ := ih hnext hlimit' (hnoted.graph.trans hg)
            (by rw [hnoted.user, hg]; exact (idleAlong_append.mp hdue).2)
          refine ⟨w'', ?_, hnoted.trans hafter'⟩
          dsimp only
          rw [outcome_bind, hvisit]
          dsimp only
          rw [outcome_bind, takeBack_untouched rfl (untouched_ofChild v child)]
          simp only [resume, hv.clean, Bool.false_eq_true, if_false]
          exact hrest'

/-- The sub-tasks of a task are visited, if they are to be visited at all. -/
theorem descend_idle {visitChild : TaskView → Work σ TaskView} {task : TaskId} (deep : Bool)
    (calls : TaskId → List (DueCall σ)) (hv : Untouched v) (htask : v.task = some task)
    (hexists : (g.get? task).isSome = true)
    (hchild : ∀ child, g.HasSubTask task child → ∀ w : Workspace σ, w.graph = g →
      IdleAlong g w.user (calls child) →
        ∃ w', (visitChild (v.ofChild child)).outcome w = (.ok (v.ofChild child), w') ∧
          w.After 0 (calls child) w')
    {limit : Nat} (hlimit : g.width + 1 ≤ limit) (hg : w.graph = g)
    (hidle : IdleAlong g w.user (if deep then (g.subTasks v.task).flatMap calls else [])) :
    ∃ w', (if deep then visitSlots maxSteps visitChild limit false 0 v
        else pure (v, true) : Work σ (TaskView × Bool)).outcome w = (.ok (v, true), w') ∧
      w.After 0 (if deep then (g.subTasks v.task).flatMap calls else []) w' := by
  cases deep with
  | false => exact ⟨w, rfl, .refl w⟩
  | true =>
      obtain ⟨n, hn⟩ := Option.isSome_iff_exists.mp hexists
      have hsubs : g.subTasks v.task = n.subTasks.filterMap id := by
        rw [Graph.subTasks, htask, Option.bind_some, hn]
        rfl
      rw [if_pos rfl, hsubs] at hidle ⊢
      refine visitSlots_idle calls hv htask hn ?_ List.drop_zero ?_ hg hidle
      · intro child hmem
        obtain ⟨slot, hslot, rfl⟩ := List.mem_filterMap.mp hmem
        exact hchild child ⟨n, hn, hslot⟩
      · have hwidth := Graph.length_subTasks_le_width hn
        omega

/-- **A visit calls what is due.** The task and all that is below it exist, and no path leads back; if
all calls that are due for the task find nothing to do, its visit makes these calls in their order and
no others, and the view comes back as it was. The induction goes down level by level; that the levels
do not end before the tree does is what `Above` is for. -/
theorem visit_idle {deep : Bool} {above : List TaskId} {levels limit : Nat} {task : TaskId}
    (hv : Untouched v) (htask : v.task = some task) (hsound : g.SoundAt task)
    (habove : g.Above above task) (hlevels : g.size < above.length + levels)
    (hlimit : levels + g.width + 1 ≤ limit) (hg : w.graph = g)
    (hidle : IdleAlong g w.user (taskCalls g members deep levels v)) :
    ∃ w', (visit maxSteps members deep limit v).outcome w = (.ok v, w') ∧
      w.After 0 (taskCalls g members deep levels v) w' := by
  induction levels generalizing above limit task v w with
  | zero => exact absurd habove.length_le (Nat.not_le_of_lt hlevels)
  | succ levels ih =>
      obtain ⟨limit, rfl⟩ : ∃ k, limit = k + 1 := ⟨limit - 1, by omega⟩
      rw [taskCalls] at hidle ⊢
      obtain ⟨hfirst, hlast⟩ := idleAlong_append.mp hidle
      obtain ⟨hbefore, hbelow⟩ := idleAlong_append.mp hfirst
      obtain ⟨w₁, hpre, hafter₁⟩ := applyRules_idle hv htask (hg ▸ hbefore)
      have hg₁ : w₁.graph = g := hafter₁.graph.trans hg
      have huser₁ : w₁.user = rememberedAlong g w.user (ruleCalls false members v) :=
        hg ▸ hafter₁.user
      have hchild : ∀ child, g.HasSubTask task child → ∀ w : Workspace σ, w.graph = g →
          IdleAlong g w.user (taskCalls g members deep levels (v.ofChild child)) →
            ∃ w', (visit maxSteps members deep limit (v.ofChild child)).outcome w =
                (.ok (v.ofChild child), w') ∧
              w.After 0 (taskCalls g members deep levels (v.ofChild child)) w' := by
        intro child hsub w' hw' hdue
        exact ih (untouched_ofChild v child) rfl (hsound.subTask hsub) (habove.cons hsound hsub)
          (by rw [List.length_cons]; omega) (by omega) hw' hdue
      obtain ⟨w₂, hslots, hafter₂⟩ := descend_idle deep _ hv htask (hsound task (.refl task)).1
        hchild (show g.width + 1 ≤ limit by omega) hg₁ (huser₁ ▸ hbelow)
      have hafter := hafter₁.trans hafter₂
      have hg₂ : w₂.graph = g := hafter.graph.trans hg
      have hlast' : IdleAlong w₂.graph w₂.user (ruleCalls true members v) := by
        rw [hafter.user, hg₂, hg]
        exact hlast
      obtain ⟨w₃, hpost, hafter₃⟩ := applyRules_idle hv htask hlast'
      refine ⟨w₃, ?_, hafter.trans hafter₃⟩
      rw [visit_succ, hv.fresh htask, if_neg Bool.false_ne_true, outcome_bind, hpre]
      dsimp only
      rw [if_pos rfl, outcome_bind, hslots]
      dsimp only [finish]
      rw [if_pos rfl, outcome_bind, hpost]
      rfl

end Visit

end RenderPlan
