/-
# RenderPlan.Proofs.Optimize.Comparison -- two visits side by side

What an optimization does under one budget, or with one set of rules, is compared with what it does
under another by comparing their parts. A `Visit.Comparison` says when two parts do alike and when
two views make no difference to the way a visit takes. It is closed under what visits are made of:
one part after another, the graph read and written, the journal kept.

Rules and budgets are left open. Two visits do alike as soon as their rules do, and the steps they
spend (`Visit.Comparison.alike_visit`). Both visits have the same limit: it is what the induction is
on, and visits under two limits are compared by an induction of their own.
-/
import Mathlib.Data.List.Forall2
import RenderPlan.Proofs.Optimize.Course

namespace RenderPlan

namespace Visit

open Work

variable {σ : Type}

/-- A way to compare the parts of two visits. The closure clauses are one for each thing that visits
are made of, then one for each thing that they read of a view or make of it. -/
structure Comparison (σ : Type) where
  /-- The parts do alike, and the values they come to are related. -/
  Alike {α α' : Type} (V : α → α' → Prop) (m : Work σ α) (m' : Work σ α') : Prop
  /-- The views make no difference to the way of a visit. -/
  View (v v' : TaskView) : Prop
  alike_pure {α α' : Type} {V : α → α' → Prop} {a : α} {a' : α'} (h : V a a') :
    Alike V (pure a) (pure a')
  alike_bind {α α' β β' : Type} {V : α → α' → Prop} {U : β → β' → Prop} {m : Work σ α}
    {m' : Work σ α'} {k : α → Work σ β} {k' : α' → Work σ β'} (hm : Alike V m m')
    (hk : ∀ a a', V a a' → Alike U (k a) (k' a')) : Alike U (m >>= k) (m' >>= k')
  alike_limit {α α' : Type} (V : α → α' → Prop) :
    Alike V (throw .visitLimit) (throw .visitLimit)
  alike_fetch (id : TaskId) : Alike Eq (fetch id) (fetch id)
  alike_copy (id : TaskId) : Alike Eq (copy id) (copy id)
  alike_setSlot (id : TaskId) (slot : Nat) (sub : Option TaskId) :
    Alike Eq (setSlot id slot sub) (setSlot id slot sub)
  /-- Calls are compared with the rules. -/
  alike_note {e : Entry} (h : e.call? = none) :
    Alike Eq (modify (Workspace.note e)) (modify (Workspace.note e))
  task_eq {v v' : TaskView} (h : View v v') : v'.task = v.task
  parent_eq {v v' : TaskView} (h : View v v') : v'.parent = v.parent
  mode_eq {v v' : TaskView} (h : View v v') : v'.mode = v.mode
  intersects_eq {v v' : TaskView} (h : View v v') :
    v'.affects.intersects v'.gate = v.affects.intersects v.gate
  view_ofChild {v v' : TaskView} (h : View v v') (child : TaskId) :
    View (v.ofChild child) (v'.ofChild child)
  view_withTask {v v' : TaskView} (h : View v v') (task : Option TaskId) :
    View { v with task := task } { v' with task := task }
  view_absorb {v v' seen seen' : TaskView} (h : View v v') (hseen : View seen seen') :
    View (absorb v seen) (absorb v' seen')

namespace Comparison

variable (C : Comparison σ)

/-- The rules are called at the same places, and their calls do alike. -/
structure Acts (m m' : Member σ) : Prop where
  deepFirst : m'.rule.descriptor.deepFirst = m.rule.descriptor.deepFirst
  applies : m'.rule.descriptor.appliesToTask = m.rule.descriptor.appliesToTask
  call {v v' : TaskView} (h : C.View v v') : C.Alike C.View (callRule m v) (callRule m' v')

/-- Views that a visit goes on with, or both that it does not go on with. -/
structure Goes (r r' : TaskView × Bool) : Prop where
  view : C.View r.1 r'.1
  goesOn : r'.2 = r.2

/-- The same point in the slots of a node. -/
structure Point (p p' : SlotPoint) : Prop where
  copied : p'.copied = p.copied
  slot : p'.slot = p.slot
  view : C.View p.view p'.view

variable {C}

theorem alike_ite {α α' : Type} {V : α → α' → Prop} {c : Prop} [Decidable c] {m k : Work σ α}
    {m' k' : Work σ α'} (hpos : c → C.Alike V m m') (hneg : ¬ c → C.Alike V k k') :
    C.Alike V (if c then m else k) (if c then m' else k') := by
  split
  · next h => exact hpos h
  · next h => exact hneg h

theorem isStale_eq {v v' : TaskView} (h : C.View v v') : v'.isStale = v.isStale := by
  unfold TaskView.isStale
  rw [C.task_eq h, C.intersects_eq h]

variable {maxSteps maxSteps' : Nat} {rules rules' : List (Member σ)}

theorem alike_applyRules (hrules : List.Forall₂ C.Acts rules rules') (deepFirst : Bool)
    {v v' : TaskView} (hv : C.View v v') :
    C.Alike C.Goes (applyRules deepFirst rules v) (applyRules deepFirst rules' v') := by
  induction hrules generalizing v v' with
  | nil => exact C.alike_pure ⟨hv, rfl⟩
  | cons hacts _ ih =>
      rw [applyRules, applyRules, hacts.deepFirst, hacts.applies, C.parent_eq hv]
      refine alike_ite (fun _ => ?_) fun _ => ih hv
      refine C.alike_bind (hacts.call hv) fun u u' hu => ?_
      rw [isStale_eq hu]
      exact alike_ite (fun _ => C.alike_pure ⟨hu, rfl⟩) fun _ => ih hu

theorem alike_finish (hrules : List.Forall₂ C.Acts rules rules') {r r' : TaskView × Bool}
    (hr : C.Goes r r') : C.Alike C.View (finish rules r) (finish rules' r') := by
  unfold finish
  rw [hr.goesOn]
  refine alike_ite (fun _ => ?_) fun _ => C.alike_pure hr.view
  exact C.alike_bind (alike_applyRules hrules true hr.view) fun _ _ h => C.alike_pure h.view

section Slots

variable (hspend : C.Alike Eq (spend maxSteps) (spend maxSteps'))

include hspend

theorem alike_writeBack {p p' : SlotPoint} (hp : C.Point p p') {seen seen' : TaskView}
    (hseen : C.View seen seen') (parent : TaskId) :
    C.Alike C.Point (writeBack maxSteps p seen parent) (writeBack maxSteps' p' seen' parent) := by
  have hview := C.view_absorb (C.view_withTask hp.view (some parent)) hseen
  unfold writeBack
  rw [hp.slot, C.task_eq hseen, C.mode_eq hseen]
  refine C.alike_bind (C.alike_setSlot parent p.slot seen.task) fun _ _ _ => ?_
  refine alike_ite (fun _ => ?_) fun _ => C.alike_pure ⟨rfl, rfl, hview⟩
  exact C.alike_bind hspend fun _ _ _ => C.alike_pure ⟨rfl, rfl, hview⟩

theorem alike_takeBack {p p' : SlotPoint} (hp : C.Point p p') {seen seen' : TaskView}
    (hseen : C.View seen seen') (task child : TaskId) :
    C.Alike C.Point (takeBack maxSteps p task child seen)
      (takeBack maxSteps' p' task child seen') := by
  have hentry : slotEntry task p'.slot child seen' = slotEntry task p.slot child seen := by
    unfold slotEntry
    rw [hp.slot, C.task_eq hseen, C.mode_eq hseen]
  rw [takeBack_eq, takeBack_eq, hentry, C.task_eq hseen, hp.copied]
  refine C.alike_bind (C.alike_note rfl) fun _ _ _ => ?_
  refine alike_ite (fun _ => ?_) fun _ => ?_
  · exact C.alike_pure ⟨rfl, congrArg (· + 1) hp.slot, C.view_absorb hp.view hseen⟩
  · have hparent : C.Alike Eq (if p.copied then pure task else copy task)
        (if p.copied then pure task else copy task) :=
      alike_ite (fun _ => C.alike_pure rfl) fun _ => C.alike_copy task
    refine C.alike_bind hparent ?_
    rintro parent _ rfl
    exact alike_writeBack hspend hp hseen parent

theorem alike_visitSlots {visitChild visitChild' : TaskView → Work σ TaskView}
    (hchild : ∀ {v v'}, C.View v v' → C.Alike C.View (visitChild v) (visitChild' v')) (limit : Nat)
    {p p' : SlotPoint} (hp : C.Point p p') :
    C.Alike C.Goes (visitSlots maxSteps visitChild limit p.copied p.slot p.view)
      (visitSlots maxSteps' visitChild' limit p'.copied p'.slot p'.view) := by
  induction limit generalizing p p' with
  | zero => exact C.alike_limit C.Goes
  | succ limit ih =>
      have htask := C.task_eq hp.view
      cases hgone : p.view.task with
      | none =>
          rw [visitSlots, visitSlots, htask, hgone]
          exact C.alike_pure ⟨hp.view, rfl⟩
      | some task =>
          rw [visitSlots_succ maxSteps visitChild limit hgone,
            visitSlots_succ maxSteps' visitChild' limit (htask.trans hgone), hp.slot]
          refine C.alike_bind (C.alike_fetch task) ?_
          rintro n _ rfl
          rcases n.subTasks[p.slot]? with _ | _ | child
          · exact C.alike_pure ⟨hp.view, rfl⟩
          · have hnext : C.Point ⟨p.copied, p.slot + 1, p.view⟩ ⟨p'.copied, p.slot + 1, p'.view⟩ :=
              ⟨hp.copied, rfl, hp.view⟩
            exact ih hnext
          · refine C.alike_bind (hchild (C.view_ofChild hp.view child)) fun seen seen' hseen => ?_
            refine C.alike_bind (alike_takeBack hspend hp hseen task child) fun q q' hq => ?_
            unfold resume
            rw [C.intersects_eq hq.view]
            exact alike_ite (fun _ => C.alike_pure ⟨hq.view, rfl⟩) fun _ => ih hq

end Slots

/-- **Two visits do alike if their rules do**, and the steps they spend. -/
theorem alike_visit (hspend : C.Alike Eq (spend maxSteps) (spend maxSteps'))
    (hrules : List.Forall₂ C.Acts rules rules') (deep : Bool) (limit : Nat) {v v' : TaskView}
    (hv : C.View v v') :
    C.Alike C.View (visit maxSteps rules deep limit v) (visit maxSteps' rules' deep limit v') := by
  induction limit generalizing v v' with
  | zero => exact C.alike_limit C.View
  | succ limit ih =>
      rw [visit_succ, visit_succ, isStale_eq hv]
      refine alike_ite (fun _ => C.alike_pure hv) fun _ => ?_
      refine C.alike_bind (alike_applyRules hrules false hv) fun r r' hr => ?_
      rw [hr.goesOn]
      refine alike_ite (fun _ => ?_) fun _ => C.alike_pure hr.view
      have hfirst : C.Point ⟨false, 0, r.1⟩ ⟨false, 0, r'.1⟩ := ⟨rfl, rfl, hr.view⟩
      have hslots : C.Alike C.Goes
          (if deep then visitSlots maxSteps (visit maxSteps rules deep limit) limit false 0 r.1
            else pure (r.1, true))
          (if deep then visitSlots maxSteps' (visit maxSteps' rules' deep limit) limit false 0 r'.1
            else pure (r'.1, true)) :=
        alike_ite (fun _ => alike_visitSlots hspend ih limit hfirst)
          fun _ => C.alike_pure ⟨hr.view, rfl⟩
      exact C.alike_bind hslots fun _ _ h => alike_finish hrules h

end Comparison

end Visit

end RenderPlan
