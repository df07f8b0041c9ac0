/-
# RenderPlan.Proofs.Optimize.Course -- what can happen during a visit

`Visit.Course` has one rule for each thing that can happen between the beginning of a visit and its
end: a rule is called for the task, a sub-task comes back from its own visit, a changed sub-task is
written into a copy of the node, a step of the budget is spent. `Visit.Aborted` says how a visit can
be broken off. `ensures_visit` is the induction over the code of visits; what holds of visits is
proved by induction on their course.

The course leaves out in which order rules are called and slots are visited. What it keeps is the
view that each thing happens at, and that the view is not stale then.
-/
import RenderPlan.Proofs.Optimize.Outcome
import RenderPlan.Proofs.Graph.Trees

namespace RenderPlan

variable {σ : Type}

/-- A view is not stale while the task is there and the gate is clean. -/
theorem TaskView.isStale_eq_false_iff {v : TaskView} :
    v.isStale = false ↔ v.task.isSome = true ∧ v.affects.intersects v.gate = false := by
  unfold TaskView.isStale
  cases v.task <;> simp

namespace Visit

/-! ## One call -/

section Call

variable (m : Member σ) (v : TaskView) (w : Workspace σ)

/-- What a rule answers when it is called for a task. -/
def answer : Answered (TaskCall σ) := m.rule.runTask ⟨w.user, w.graph, v⟩

/-- What the journal keeps of the call. -/
def record : CallRecord :=
  let after := (answer m v w).call.view
  let changed : Bool := after.task ≠ v.task
  ⟨m.id, .task v, if changed then after.affects ∪ m.rule.descriptor.affects else after.affects,
    changed⟩

theorem reported_of_eq (h : (answer m v w).call.view.task = v.task) :
    (record m v w).reported = (answer m v w).call.view.affects := by
  simp [record, h]

theorem reported_of_ne (h : (answer m v w).call.view.task ≠ v.task) :
    (record m v w).reported = (answer m v w).call.view.affects ∪ m.rule.descriptor.affects := by
  simp [record, h]

/-- The workspace after the call. -/
def workspaceAfter : Workspace σ :=
  { w with
    user := (answer m v w).call.user
    graph := (answer m v w).call.graph
    journal := .call (record m v w) :: w.journal }

/-- The view after the call. -/
def viewAfter : TaskView :=
  { v with
    task := (answer m v w).call.view.task
    affects := v.affects ∪ (record m v w).reported
    mode := v.mode ∪ (answer m v w).call.view.mode }

theorem outcome_callRule :
    (callRule m v).outcome w = match (answer m v w).fault with
      | some f => (.error (.fault f), workspaceAfter m v w)
      | none => (.ok (viewAfter m v w), workspaceAfter m v w) := by
  unfold callRule
  rw [Work.outcome_bind]
  change Work.outcome (do set (workspaceAfter m v w); match (answer m v w).fault with
    | some f => throw (.fault f)
    | none => pure (viewAfter m v w)) w = _
  rw [Work.outcome_bind]
  change Work.outcome (match (answer m v w).fault with
    | some f => throw (.fault f)
    | none => pure (viewAfter m v w)) (workspaceAfter m v w) = _
  split <;> rfl

end Call

/-! ## One slot -/

open Work

/-- The node that receives a changed sub-task, and the graph with it: the copy taken before, or a
copy taken now. -/
def splice (copied : Bool) (task : TaskId) (n : Node) (slot : Nat) (sub : Option TaskId)
    (g : Graph) : TaskId × Graph :=
  if copied then (task, g.modify task (Node.withSlot slot sub))
  else (g.nextId, g.insert (n.withSlot slot sub))

/-- The entry that a visited slot leaves in the journal. -/
def slotEntry (task : TaskId) (slot : Nat) (child : TaskId) (seen : TaskView) : Entry :=
  .visit (.slot task slot) child seen.task seen.mode

/-- Where the visit of a node stands in its slots. -/
structure SlotPoint where
  /-- The node is a copy that was taken for the sake of an earlier slot. -/
  copied : Bool
  /-- The slot that is next. -/
  slot : Nat
  view : TaskView

/-- What a visit does with a sub-task that comes back from its own visit. -/
def takeBack (maxSteps : Nat) (p : SlotPoint) (task child : TaskId) (seen : TaskView) :
    Work σ SlotPoint := do
  modify (Workspace.note (slotEntry task p.slot child seen))
  if seen.task = some child then return ⟨p.copied, p.slot + 1, absorb p.view seen⟩
  else
    let parent ← if p.copied then pure task else copy task
    setSlot parent p.slot seen.task
    let again := seen.mode.contains .last
    if again then spend maxSteps
    return ⟨true, if again then p.slot else p.slot + 1,
      absorb { p.view with task := some parent } seen⟩

/-- The visit goes on behind a sub-task, unless the gate is dirty. -/
def resume (maxSteps : Nat) (visitChild : TaskView → Work σ TaskView) (limit : Nat)
    (p : SlotPoint) : Work σ (TaskView × Bool) :=
  if p.view.affects.intersects p.view.gate then pure (p.view, false)
  else visitSlots maxSteps visitChild limit p.copied p.slot p.view

theorem visitSlots_succ (maxSteps : Nat) (visitChild : TaskView → Work σ TaskView) (limit : Nat)
    {p : SlotPoint} {task : TaskId} (htask : p.view.task = some task) :
    visitSlots maxSteps visitChild (limit + 1) p.copied p.slot p.view =
      fetch task >>= fun n => match n.subTasks[p.slot]? with
        | none => pure (p.view, true)
        | some none => visitSlots maxSteps visitChild limit p.copied (p.slot + 1) p.view
        | some (some child) =>
          visitChild (p.view.ofChild child) >>= fun seen =>
            takeBack maxSteps p task child seen >>= resume maxSteps visitChild limit := by
  rw [visitSlots, htask]
  refine bind_congr fun n => ?_
  rcases n.subTasks[p.slot]? with _ | _ | child
  · rfl
  · rfl
  · refine bind_congr fun seen => ?_
    unfold takeBack
    rw [bind_assoc]
    refine bind_congr fun _ => ?_
    split
    · rfl
    · unfold resume
      cases p.copied with
      | true =>
          simp only [if_true, pure_bind, bind_assoc]
          refine bind_congr fun _ => ?_
          cases seen.mode.contains .last <;>
            simp only [if_true, Bool.false_eq_true, if_false, bind_assoc, pure_bind]
      | false =>
          simp only [Bool.false_eq_true, if_false, bind_assoc]
          refine bind_congr fun parent => bind_congr fun _ => ?_
          cases seen.mode.contains .last <;>
            simp only [if_true, Bool.false_eq_true, if_false, bind_assoc, pure_bind]

/-- A changed sub-task is written into the copy of the node. -/
def writeBack (maxSteps : Nat) (p : SlotPoint) (seen : TaskView) (parent : TaskId) :
    Work σ SlotPoint := do
  setSlot parent p.slot seen.task
  let again := seen.mode.contains .last
  if again then spend maxSteps
  return ⟨true, if again then p.slot else p.slot + 1,
    absorb { p.view with task := some parent } seen⟩

theorem takeBack_eq (maxSteps : Nat) (p : SlotPoint) (task child : TaskId) (seen : TaskView) :
    (takeBack maxSteps p task child seen : Work σ SlotPoint) =
      modify (Workspace.note (slotEntry task p.slot child seen)) >>= fun _ =>
        if seen.task = some child then pure ⟨p.copied, p.slot + 1, absorb p.view seen⟩
        else (if p.copied then pure task else copy task) >>= writeBack maxSteps p seen := by
  unfold takeBack
  refine bind_congr fun _ => ?_
  split
  · rfl
  · cases p.copied <;> rfl

/-- What a visit does when its slots are done. -/
def finish (rules : List (Member σ)) (r : TaskView × Bool) : Work σ TaskView :=
  if r.2 then applyRules true rules r.1 >>= fun r => pure r.1 else pure r.1

theorem visit_succ (maxSteps : Nat) (rules : List (Member σ)) (deep : Bool) (limit : Nat)
    (v : TaskView) :
    visit maxSteps rules deep (limit + 1) v =
      if v.isStale then pure v
      else applyRules false rules v >>= fun r =>
        if r.2 then
          (if deep then visitSlots maxSteps (visit maxSteps rules deep limit) limit false 0 r.1
            else pure (r.1, true)) >>= finish rules
        else pure r.1 := by
  rw [visit]
  split
  · rfl
  · refine bind_congr ?_
    rintro ⟨v', _ | _⟩
    · rfl
    · cases deep
      · rfl
      · refine bind_congr ?_
        rintro ⟨v'', _ | _⟩ <;> rfl

/-- What comes of a sub-task that was taken back. -/
inductive TakesBack (maxSteps : Nat) (p : SlotPoint) (task child : TaskId) (seen : TaskView)
    (w : Workspace σ) : Except Stop SlotPoint → Workspace σ → Prop where
  /-- It comes back as it was. -/
  | keep (same : seen.task = some child) :
      TakesBack maxSteps p task child seen w (.ok ⟨p.copied, p.slot + 1, absorb p.view seen⟩)
        (w.note (slotEntry task p.slot child seen))
  /-- It comes back changed and is written into the copy of the node. -/
  | splice {n} (other : seen.task ≠ some child) (node : w.graph.get? task = some n)
      (bound : p.slot < n.subTasks.length) (once : seen.mode.contains .last = false) :
      TakesBack maxSteps p task child seen w
        (.ok ⟨true, p.slot + 1, absorb
          { p.view with task := (Visit.splice p.copied task n p.slot seen.task w.graph).1 } seen⟩)
        { w.note (slotEntry task p.slot child seen) with
          graph := (Visit.splice p.copied task n p.slot seen.task w.graph).2 }
  /-- The same, and the slot is to be visited once more. -/
  | again {n} (other : seen.task ≠ some child) (node : w.graph.get? task = some n)
      (bound : p.slot < n.subTasks.length) (repeats : seen.mode.contains .last = true)
      (left : w.steps + 1 ≤ maxSteps) :
      TakesBack maxSteps p task child seen w
        (.ok ⟨true, p.slot, absorb
          { p.view with task := (Visit.splice p.copied task n p.slot seen.task w.graph).1 } seen⟩)
        { w.note (slotEntry task p.slot child seen) with
          graph := (Visit.splice p.copied task n p.slot seen.task w.graph).2
          steps := w.steps + 1 }
  /-- The same, but the budget is used up. -/
  | exhausted {n} (other : seen.task ≠ some child) (node : w.graph.get? task = some n)
      (bound : p.slot < n.subTasks.length) (repeats : seen.mode.contains .last = true)
      (spent : maxSteps < w.steps + 1) :
      TakesBack maxSteps p task child seen w (.error .exhausted)
        ({ w.note (slotEntry task p.slot child seen) with
          graph := (Visit.splice p.copied task n p.slot seen.task w.graph).2
          steps := w.steps + 1 }.note (.exhausted maxSteps))
  /-- The node or its slot does not exist. -/
  | unwritten {f g} (grown : w.graph.Extends g)
      (absent : ∀ n, w.graph.get? task = some n → n.subTasks.length ≤ p.slot) :
      TakesBack maxSteps p task child seen w (.error (.fault f))
        { w.note (slotEntry task p.slot child seen) with graph := g }

section Slot

variable {w : Workspace σ}

/-- Writing a changed sub-task: either the node and the slot exist and the copy receives it, or the
optimization stops with a fault. -/
theorem ensures_splice {β : Type} {task : TaskId} {slot : Nat} {sub : Option TaskId}
    {rest : TaskId → Work σ β} {Q : Except Stop β → Workspace σ → Prop} (copied : Bool)
    (hok : ∀ n, w.graph.get? task = some n → slot < n.subTasks.length →
      (rest (splice copied task n slot sub w.graph).1).Ensures
        { w with graph := (splice copied task n slot sub w.graph).2 } Q)
    (hstop : ∀ f g, w.graph.Extends g →
      (∀ n, w.graph.get? task = some n → n.subTasks.length ≤ slot) →
      Q (.error (.fault f)) { w with graph := g }) :
    (if copied = true then do
        let parent ← pure task
        Work.setSlot parent slot sub
        rest parent
      else do
        let parent ← Work.copy task
        Work.setSlot parent slot sub
        rest parent : Work σ β).Ensures w Q := by
  have habsent : ∀ {n}, w.graph.get? task = some n → ¬ slot < n.subTasks.length →
      ∀ m, w.graph.get? task = some m → m.subTasks.length ≤ slot := by
    intro n hn hslot m hm
    obtain rfl : n = m := Option.some.inj (hn.symm.trans hm)
    exact Nat.le_of_not_lt hslot
  cases copied with
  | true =>
      change (do Work.setSlot task slot sub; rest task : Work σ β).Ensures w Q
      unfold Work.Ensures
      rw [Work.outcome_bind, Work.outcome_setSlot]
      cases hn : w.graph.get? task with
      | none => exact hstop _ w.graph (.refl _) fun n hn' => by cases hn.symm.trans hn'
      | some n =>
          by_cases hslot : slot < n.subTasks.length
          · simp only [hslot, if_true]
            exact hok n hn hslot
          · simp only [hslot, if_false]
            exact hstop _ w.graph (.refl _) (habsent hn hslot)
  | false =>
      change (do let parent ← Work.copy task; Work.setSlot parent slot sub; rest parent :
        Work σ β).Ensures w Q
      unfold Work.Ensures
      rw [Work.outcome_bind, Work.outcome_copy]
      cases hn : w.graph.get? task with
      | none => exact hstop _ w.graph (.refl _) fun n hn' => by cases hn.symm.trans hn'
      | some n =>
          simp only [Work.outcome_bind, Work.outcome_setSlot, Graph.get?_insert_nextId]
          by_cases hslot : slot < n.subTasks.length
          · simp only [hslot, if_true]
            rw [Graph.modify_insert_nextId]
            exact hok n hn hslot
          · simp only [hslot, if_false]
            exact hstop _ _ (.insert _ _) (habsent hn hslot)

theorem ensures_takeBack (maxSteps : Nat) (p : SlotPoint) (task child : TaskId) (seen : TaskView)
    (w : Workspace σ) :
    (takeBack maxSteps p task child seen).Ensures w (TakesBack maxSteps p task child seen w) := by
  unfold takeBack
  apply Work.ensures_modify_bind
  split
  · next hsame => exact .keep hsame
  · next hother =>
      apply ensures_splice p.copied
      · intro n hn hbound
        dsimp only
        split
        · next hrepeats =>
            refine (Work.ensures_spend maxSteps _).bind ?_ ?_
            · rintro _ _ ⟨hleft, rfl⟩
              exact .again hother hn hbound hrepeats hleft
            · rintro _ _ ⟨hspent, rfl, rfl⟩
              exact .exhausted hother hn hbound hrepeats hspent
        · next honce => exact .splice hother hn hbound (Bool.eq_false_iff.mpr honce)
      · exact fun f g => TakesBack.unwritten (w := w)

end Slot

/-! ## The course of a visit -/

/-- A task has a sub-task in a slot, and the visit has come so far that it may be visited. -/
structure Descends (v : TaskView) (w : Workspace σ) (task : TaskId) (slot : Nat)
    (child : TaskId) : Prop where
  fresh : v.isStale = false
  task_eq : v.task = some task
  slot_eq : ∃ n, w.graph.get? task = some n ∧ n.subTasks[slot]? = some (some child)

/-- How a visit that began at a view and a workspace can stand. `copied` tells whether the task is a
copy that this visit took. -/
inductive Course (maxSteps : Nat) (rules : List (Member σ)) :
    Workspace σ → TaskView → Bool → TaskView → Workspace σ → Prop where
  /-- The visit begins. -/
  | enter (w : Workspace σ) (v : TaskView) : Course maxSteps rules w v false v w
  /-- A rule is called for the task. -/
  | call {w₀ v₀ copied v w m} (before : Course maxSteps rules w₀ v₀ copied v w)
      (member : m ∈ rules) (fresh : v.isStale = false) (returns : (answer m v w).fault = none) :
      Course maxSteps rules w₀ v₀ false (viewAfter m v w) (workspaceAfter m v w)
  /-- A sub-task comes back as it was. -/
  | keep {w₀ v₀ copied v w task slot child copied' seen w'}
      (before : Course maxSteps rules w₀ v₀ copied v w)
      (descends : Descends v w task slot child)
      (below : Course maxSteps rules w (v.ofChild child) copied' seen w')
      (same : seen.task = some child) :
      Course maxSteps rules w₀ v₀ copied (absorb v seen) (w'.note (slotEntry task slot child seen))
  /-- A sub-task comes back changed and is written into the copy of the node. -/
  | splice {w₀ v₀ copied v w task slot child copied' seen w' n}
      (before : Course maxSteps rules w₀ v₀ copied v w)
      (descends : Descends v w task slot child)
      (below : Course maxSteps rules w (v.ofChild child) copied' seen w')
      (other : seen.task ≠ some child)
      (node : w'.graph.get? task = some n) (bound : slot < n.subTasks.length) :
      Course maxSteps rules w₀ v₀ true
        (absorb { v with task := (Visit.splice copied task n slot seen.task w'.graph).1 } seen)
        { w'.note (slotEntry task slot child seen) with
          graph := (Visit.splice copied task n slot seen.task w'.graph).2 }
  /-- A step is taken out of the budget. -/
  | spend {w₀ v₀ copied v w} (before : Course maxSteps rules w₀ v₀ copied v w)
      (left : w.steps + 1 ≤ maxSteps) :
      Course maxSteps rules w₀ v₀ copied v { w with steps := w.steps + 1 }

/-- How a visit can be broken off. -/
inductive Aborted (maxSteps : Nat) (rules : List (Member σ)) :
    Workspace σ → TaskView → Stop → Workspace σ → Prop where
  /-- The limit on visits was reached. -/
  | limit {w₀ v₀ copied v w} (before : Course maxSteps rules w₀ v₀ copied v w) :
      Aborted maxSteps rules w₀ v₀ .visitLimit w
  /-- The task does not exist. -/
  | missing {w₀ v₀ copied v w task f} (before : Course maxSteps rules w₀ v₀ copied v w)
      (task_eq : v.task = some task) (absent : w.graph.get? task = none) :
      Aborted maxSteps rules w₀ v₀ (.fault f) w
  /-- A rule gave up. -/
  | raised {w₀ v₀ copied v w m f} (before : Course maxSteps rules w₀ v₀ copied v w)
      (member : m ∈ rules) (fresh : v.isStale = false) (raises : (answer m v w).fault = some f) :
      Aborted maxSteps rules w₀ v₀ (.fault f) (workspaceAfter m v w)
  /-- The visit of a sub-task was broken off. -/
  | inside {w₀ v₀ copied v w task slot child stop w'}
      (before : Course maxSteps rules w₀ v₀ copied v w)
      (descends : Descends v w task slot child)
      (aborted : Aborted maxSteps rules w (v.ofChild child) stop w') :
      Aborted maxSteps rules w₀ v₀ stop w'
  /-- A changed sub-task could not be written. -/
  | unwritten {w₀ v₀ copied v w task slot child copied' seen w' g f}
      (before : Course maxSteps rules w₀ v₀ copied v w)
      (descends : Descends v w task slot child)
      (below : Course maxSteps rules w (v.ofChild child) copied' seen w')
      (grown : w'.graph.Extends g)
      (absent : ∀ n, w'.graph.get? task = some n → n.subTasks.length ≤ slot) :
      Aborted maxSteps rules w₀ v₀ (.fault f)
        { w'.note (slotEntry task slot child seen) with graph := g }
  /-- The budget was used up. -/
  | exhausted {w₀ v₀ copied v w} (before : Course maxSteps rules w₀ v₀ copied v w) :
      Aborted maxSteps rules w₀ v₀ .exhausted
        ({ w with steps := w.steps + 1 }.note (.exhausted maxSteps))

/-! ## Visits take this course -/

variable {maxSteps : Nat} {rules : List (Member σ)} {w₀ w : Workspace σ} {v₀ v : TaskView}
  {copied : Bool}

/-- The ending of a part of a visit that began at `w₀` and `v₀`: the view where it leaves off, with
the answer whether the visit goes on. Where `maySplice` is off, the part took no copies. -/
def Continues (maxSteps : Nat) (rules : List (Member σ)) (w₀ : Workspace σ) (v₀ : TaskView)
    (maySplice : Bool) : Except Stop (TaskView × Bool) → Workspace σ → Prop
  | .ok (v, goesOn), w =>
    (∃ copied, (copied = true → maySplice = true) ∧ Course maxSteps rules w₀ v₀ copied v w) ∧
      (goesOn = true → v.isStale = false)
  | .error stop, w => Aborted maxSteps rules w₀ v₀ stop w

/-- The ending of a whole visit. -/
def Completes (maxSteps : Nat) (rules : List (Member σ)) (w₀ : Workspace σ) (v₀ : TaskView) :
    Except Stop TaskView → Workspace σ → Prop
  | .ok v, w => ∃ copied, Course maxSteps rules w₀ v₀ copied v w
  | .error stop, w => Aborted maxSteps rules w₀ v₀ stop w

theorem ensures_applyRules (deepFirst : Bool) {members : List (Member σ)}
    (hmembers : members ⊆ rules) (h : Course maxSteps rules w₀ v₀ copied v w)
    (hfresh : v.isStale = false) :
    (applyRules deepFirst members v).Ensures w (Continues maxSteps rules w₀ v₀ copied) := by
  -- a call leaves no copy behind, so the flag can only go down
  suffices hdown : ∀ {maySplice : Bool}, (copied = true → maySplice = true) →
      (applyRules deepFirst members v).Ensures w (Continues maxSteps rules w₀ v₀ maySplice) from
    hdown id
  intro maySplice hcopied
  induction members generalizing v w copied with
  | nil => exact ⟨⟨copied, hcopied, h⟩, fun _ => hfresh⟩
  | cons m members ih =>
      obtain ⟨hm, hrest⟩ := List.cons_subset.mp hmembers
      dsimp only [applyRules]
      split
      · have hcall : (callRule m v).Ensures w fun r w' => match r with
            | .ok v' => Course maxSteps rules w₀ v₀ false v' w'
            | .error stop => Aborted maxSteps rules w₀ v₀ stop w' := by
          unfold Work.Ensures
          rw [outcome_callRule]
          split
          · next f hf => exact .raised h hm hfresh hf
          · next hf => exact .call h hm hfresh hf
        refine hcall.bind ?_ fun _ _ hstop => hstop
        intro v' w' h'
        split
        · exact ⟨⟨false, nofun, h'⟩, nofun⟩
        · next hstale => exact ih hrest h' (Bool.eq_false_iff.mpr hstale) nofun
      · exact ih hrest h hfresh hcopied

/-- What comes of a sub-task that was taken back belongs to the course of the visit. -/
theorem TakesBack.course {p : SlotPoint} {task child : TaskId} {copied' : Bool} {seen : TaskView}
    {w' w'' : Workspace σ} {r : Except Stop SlotPoint}
    (hback : TakesBack maxSteps p task child seen w' r w'')
    (h : Course maxSteps rules w₀ v₀ p.copied p.view w)
    (hdescends : Descends p.view w task p.slot child)
    (hseen : Course maxSteps rules w (p.view.ofChild child) copied' seen w') :
    match r with
    | .ok q => Course maxSteps rules w₀ v₀ q.copied q.view w'' ∧ q.view.task.isSome = true
    | .error stop => Aborted maxSteps rules w₀ v₀ stop w'' := by
  cases hback with
  | keep hsame =>
      refine ⟨.keep h hdescends hseen hsame, ?_⟩
      simp [absorb, hdescends.task_eq]
  | splice hother hn hbound => exact ⟨.splice h hdescends hseen hother hn hbound, rfl⟩
  | again hother hn hbound _ hleft =>
      exact ⟨.spend (.splice h hdescends hseen hother hn hbound) hleft, rfl⟩
  | exhausted hother hn hbound =>
      exact .exhausted (.splice h hdescends hseen hother hn hbound)
  | unwritten hgrown habsent => exact .unwritten h hdescends hseen hgrown habsent

/-- The slots are visited one after the other. `hchild` says that sub-tasks are visited in their
turn. -/
theorem ensures_visitSlots {visitChild : TaskView → Work σ TaskView}
    (hchild : ∀ w v, (visitChild v).Ensures w (Completes maxSteps rules w v)) (limit : Nat)
    {p : SlotPoint} (h : Course maxSteps rules w₀ v₀ p.copied p.view w)
    (hfresh : p.view.isStale = false) :
    (visitSlots maxSteps visitChild limit p.copied p.slot p.view).Ensures w
      (Continues maxSteps rules w₀ v₀ true) := by
  induction limit generalizing p w with
  | zero => exact .limit h
  | succ limit ih =>
      have htask := (TaskView.isStale_eq_false_iff.mp hfresh).1
      obtain ⟨task, htask⟩ := Option.isSome_iff_exists.mp htask
      rw [visitSlots_succ maxSteps visitChild limit htask]
      refine (Work.ensures_fetch task w).bind ?_ ?_
      · rintro n _ ⟨rfl, hn⟩
        split
        · exact ⟨⟨p.copied, fun _ => rfl, h⟩, fun _ => hfresh⟩
        · exact ih (p := ⟨p.copied, p.slot + 1, p.view⟩) h hfresh
        · next child hslot =>
            have hdescends : Descends p.view _ task p.slot child := ⟨hfresh, htask, n, hn, hslot⟩
            refine (hchild _ (p.view.ofChild child)).bind ?_ fun _ _ hstop =>
              .inside h hdescends hstop
            rintro seen w' ⟨copied', hseen⟩
            refine (ensures_takeBack maxSteps p task child seen w').bind ?_ ?_
            · intro q w'' hback
              obtain ⟨hcourse, hthere⟩ := hback.course h hdescends hseen
              -- behind a sub-task the visit goes on unless the gate is dirty
              unfold resume
              split
              · exact ⟨⟨q.copied, fun _ => rfl, hcourse⟩, nofun⟩
              · next hclean =>
                  have hgate := Bool.eq_false_iff.mpr hclean
                  exact ih hcourse (TaskView.isStale_eq_false_iff.mpr ⟨hthere, hgate⟩)
            · exact fun stop w'' hback => hback.course h hdescends hseen
      · rintro _ _ ⟨rfl, habsent, rfl⟩
        exact .missing h htask habsent

/-- **A visit follows its course**, to its end or until it is broken off. -/
theorem ensures_visit (maxSteps : Nat) (rules : List (Member σ)) (deep : Bool) (limit : Nat)
    (w : Workspace σ) (v : TaskView) :
    (visit maxSteps rules deep limit v).Ensures w (Completes maxSteps rules w v) := by
  induction limit generalizing w v with
  | zero => exact .limit (.enter w v)
  | succ limit ih =>
      have hpost : ∀ {w' : Workspace σ} {v' : TaskView} {goesOn maySplice : Bool},
          Continues maxSteps rules w v maySplice (.ok (v', goesOn)) w' →
          (if (!goesOn) = true then pure v' else do
            let x ← applyRules true rules v'
            pure x.1 : Work σ TaskView).Ensures w' (Completes maxSteps rules w v) := by
        rintro w' v' goesOn maySplice ⟨⟨copied', -, h'⟩, hfresh'⟩
        split
        · exact ⟨copied', h'⟩
        · next hgoes =>
            refine (ensures_applyRules true (List.Subset.refl _) h'
              (hfresh' (by simpa using hgoes))).bind ?_ fun _ _ hstop => hstop
            rintro ⟨v'', _⟩ w'' ⟨⟨copied'', -, h''⟩, -⟩
            exact ⟨copied'', h''⟩
      rw [visit]
      split
      · exact ⟨false, .enter w v⟩
      · next hstale =>
          refine (ensures_applyRules false (List.Subset.refl _) (.enter w v)
            (Bool.eq_false_iff.mpr hstale)).bind ?_ fun _ _ hstop => hstop
          rintro ⟨v', goesOn⟩ w' ⟨⟨copied', hcopied', h'⟩, hfresh'⟩
          dsimp only
          split
          · exact ⟨copied', h'⟩
          · next hgoes =>
              have hfresh := hfresh' (by simpa using hgoes)
              split
              · have hfirst : Course maxSteps rules w v false v' w' := by
                  cases copied' with
                  | false => exact h'
                  | true => cases hcopied' rfl
                refine (ensures_visitSlots ih limit (p := ⟨false, 0, v'⟩) hfirst hfresh).bind ?_ fun _ _ hstop => hstop
                exact fun ⟨v'', goesOn'⟩ w'' hr => hpost hr
              · have hthere : Continues maxSteps rules w v true (.ok (v', true)) w' :=
                  ⟨⟨copied', fun _ => rfl, h'⟩, fun _ => hfresh⟩
                exact hpost hthere

/-! ## Small facts about courses -/

/-- The steps only grow, and within the budget. -/
theorem Course.steps_le (h : Course maxSteps rules w₀ v₀ copied v w) :
    w₀.steps ≤ w.steps ∧ (w₀.steps ≤ maxSteps → w.steps ≤ maxSteps) := by
  induction h with
  | enter => exact ⟨Nat.le_refl _, id⟩
  | call _ _ _ _ ih => exact ih
  | keep _ _ _ _ ih ihBelow =>
      exact ⟨Nat.le_trans ih.1 ihBelow.1, fun h => ihBelow.2 (ih.2 h)⟩
  | splice _ _ _ _ _ _ ih ihBelow =>
      exact ⟨Nat.le_trans ih.1 ihBelow.1, fun h => ihBelow.2 (ih.2 h)⟩
  | spend _ hleft ih => exact ⟨Nat.le_succ_of_le ih.1, fun _ => hleft⟩

end Visit

end RenderPlan
