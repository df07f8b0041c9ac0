/-
# RenderPlan.Proofs.Optimize.Faults -- optimizations of well-formed lists have no faults

A fault is a missing task or slot, a dump without end, or a rule that gives up. None of it happens
to a list that passes the check, if the rules keep the contract of well-formed trees and do not give
up while they are shown well-formed trees. What a rule is shown are the task, the task above it, and
the entries of the list; all of them stay well-formed along the course of a visit, since nodes are
only added.
-/
import RenderPlan.Proofs.Graph.Dump
import RenderPlan.Proofs.Optimize.WellFormed

namespace RenderPlan

variable {σ : Type}

/-! ## What rules are shown -/

/-- The tasks that a view shows. -/
def TaskView.shown (v : TaskView) : List TaskId :=
  v.task.toList ++ (v.parent.toList ++ v.list.filterMap id)

/-- A rule gives up at no call that shows it well-formed trees. -/
structure Rule.Steady (r : Rule σ) : Prop where
  task : ∀ c : TaskCall σ, c.graph.WellFormed c.view.shown → (r.runTask c).fault = none
  list : ∀ c : ListCall σ, c.graph.WellFormed (c.list.filterMap id) → (r.runList c).fault = none

theorem Rule.steady_unwrapping : Rule.unwrapping.Steady where
  task _ _ := rfl
  list _ _ := rfl

theorem Graph.wellFormed_append {g : Graph} {xs ys : List TaskId} :
    g.WellFormed (xs ++ ys) ↔ g.WellFormed xs ∧ g.WellFormed ys :=
  List.forall_mem_append

namespace Visit

variable {maxSteps : Nat} {rules : List (Member σ)} {w₀ w : Workspace σ} {v₀ v : TaskView}
  {copied : Bool} {stop : Stop}

/-- The task above and the list are the same throughout a visit. -/
theorem Course.surroundings (h : Course maxSteps rules w₀ v₀ copied v w) :
    v.parent = v₀.parent ∧ v.list = v₀.list := by
  induction h with
  | enter => exact ⟨rfl, rfl⟩
  | call _ _ _ _ ih | keep _ _ _ _ ih | splice _ _ _ _ _ _ ih | spend _ _ ih => exact ih

/-- What is shown stays well-formed. -/
theorem Course.wellFormed_shown (hrules : ∀ m ∈ rules, m.rule.Regrafts)
    (h : Course maxSteps rules w₀ v₀ copied v w) (hgiven : w₀.graph.WellFormed v₀.shown) :
    w.graph.WellFormed v.shown := by
  obtain ⟨htask, hothers⟩ := Graph.wellFormed_append.mp hgiven
  obtain ⟨hparent, hlist⟩ := h.surroundings
  have hvisit := (h.regrafts hrules htask).1
  apply Graph.wellFormed_append.mpr
  rw [hparent, hlist]
  exact ⟨hvisit.sound, hothers.extend hvisit.grows⟩

/-- What the visit of a sub-task is shown. -/
theorem Descends.wellFormed_shown {task child : TaskId} {slot : Nat}
    (h : Descends v w task slot child) (hv : w.graph.WellFormed v.shown) :
    w.graph.WellFormed (v.ofChild child).shown := by
  obtain ⟨htask, hothers⟩ := Graph.wellFormed_append.mp hv
  obtain ⟨_, hlist⟩ := Graph.wellFormed_append.mp hothers
  have hchild : w.graph.WellFormed [child] := h.wellFormed (.refl htask)
  exact Graph.wellFormed_append.mpr ⟨hchild, Graph.wellFormed_append.mpr ⟨htask, hlist⟩⟩

/-- A visit is not broken off by a fault. -/
theorem Aborted.ne_fault (hrules : ∀ m ∈ rules, m.rule.Regrafts)
    (hsteady : ∀ m ∈ rules, m.rule.Steady) (h : Aborted maxSteps rules w₀ v₀ stop w)
    (hgiven : w₀.graph.WellFormed v₀.shown) (f : Fault) : stop ≠ .fault f := by
  induction h with
  | limit | exhausted => nofun
  | @missing _ _ _ v w task _ hcourse htask habsent =>
      -- the task is sound, so it exists
      have htree := (hcourse.regrafts hrules (Graph.wellFormed_append.mp hgiven).1).1.sound
      obtain ⟨n, hn⟩ := Graph.SoundAt.exists_node (htree task (by simp [htask]))
      rw [habsent] at hn
      cases hn
  | @raised _ _ _ v w m _ hcourse hmember _ hraises =>
      have hreturns := (hsteady m hmember).task ⟨w.user, w.graph, v⟩
        (hcourse.wellFormed_shown hrules hgiven)
      rw [show (m.rule.runTask ⟨w.user, w.graph, v⟩).fault = _ from hraises] at hreturns
      cases hreturns
  | inside hcourse hdescends _ ih =>
      exact ih (hdescends.wellFormed_shown (hcourse.wellFormed_shown hrules hgiven))
  | @unwritten _ _ _ v w task slot child _ _ w' _ _ hcourse hdescends hbelow _ habsent =>
      -- the node is still there, and it has the slot
      have htree := (hcourse.regrafts hrules (Graph.wellFormed_append.mp hgiven).1).1
      have hkept := (hbelow.regrafts hrules (hdescends.wellFormed htree)).1.grows
      obtain ⟨n, hn, hslot⟩ := hdescends.slot_eq
      have hbound := (List.getElem?_eq_some_iff.mp hslot).1
      have hshort := habsent n (hkept _ _ hn)
      omega

end Visit

namespace Sweep

variable {setup : Setup σ} {a b : Situation σ}

theorem Move.ne_fault (hrules : ∀ c, ∀ id ∈ setup.registry.rules c, (setup.rules id).Regrafts)
    (hsteady : ∀ c, ∀ id ∈ setup.registry.rules c, (setup.rules id).Steady)
    (hstands : a.Stands setup) (ha : a.Sound) (h : Move setup a b) (hgoes : a.sweep.stopped = none)
    (f : Fault) : b.sweep.stopped ≠ some (.fault f) := by
  intro hfault
  have hsound := ha fun hphase => absurd hphase h.phase_ne_stopped
  have hend := (h.isSome_stopped_iff hgoes).mp (Option.isSome_of_eq_some hfault)
  cases h with
  | @unlogged s w _ _ _ _ _ _ _ _ hdump =>
      obtain ⟨lines, hlines⟩ := Graph.exists_dump hsound s.stepTitle
      cases hdump.symm.trans hlines
  | @raise s w step m _ _ _ _ hraises =>
      have hrule := hstands.1.forall_members hsteady m (hstands.2 (List.mem_cons_self ..))
      have hreturns := hrule.list ⟨w.user, w.graph, s.list, step.gate, ∅⟩
        (Graph.wellFormed_filterMap.mpr hsound)
      rw [show (m.rule.runList ⟨w.user, w.graph, s.list, step.gate, ∅⟩).fault = _ from hraises]
        at hreturns
      cases hreturns
  | @abort s w step before after task stop w' _ houtcome =>
      have haborted : Visit.Aborted setup.maxSteps step.members w _ stop w' :=
        (Visit.ensures_visit _ _ _ _ _ _).of_outcome houtcome
      have hgiven : w.graph.WellFormed
          (TaskView.ofEntry (before.reverse ++ some task :: after) step.gate task).shown := by
        apply Graph.wellFormed_append.mpr
        refine ⟨?_, Graph.wellFormed_filterMap.mpr hsound⟩
        intro root hroot
        obtain rfl : root = task := by simpa [TaskView.ofEntry] using hroot
        exact hsound root (by simp [Situation.list])
      have hstop := haborted.ne_fault (hstands.1.forall_members hrules)
        (hstands.1.forall_members hsteady) hgiven f
      exact hstop (Option.some.inj hfault)
  | exhausted | unrepeated => cases hfault
  | _ => cases hend

end Sweep

/-- **An optimization of a well-formed list has no fault.** If every rule keeps the contract and
gives up at no call that shows it well-formed trees, and the trees of the list pass the check, then
no task and no slot is missing on the way, and no dump is without end. -/
theorem Setup.optimize_ne_fault (setup : Setup σ) (user : σ) {graph : Graph}
    {list : List (Option TaskId)}
    (hrules : ∀ c, ∀ id ∈ setup.registry.rules c, (setup.rules id).Regrafts)
    (hsteady : ∀ c, ∀ id ∈ setup.registry.rules c, (setup.rules id).Steady)
    (hcheck : graph.check (list.filterMap id) = .ok ()) (f : Fault) :
    (setup.optimize user graph list).result ≠ .error (.fault f) := by
  rw [Graph.check_eq_ok_iff, Graph.wellFormed_filterMap] at hcheck
  -- an optimization that was not stopped by a fault is not stopped by one in the next move
  let I (a : Situation σ) := a.Sound ∧ (a.phase ≠ .stopped → a.sweep.stopped = none) ∧
    a.sweep.stopped ≠ some (.fault f)
  have hmove : ∀ a b, a.Stands setup → I a → Sweep.Move setup a b → I b := by
    rintro a b hstands ⟨hsound, hgoes, _⟩ h
    have hgoes := hgoes h.phase_ne_stopped
    refine ⟨h.sound hrules hstands hsound, ?_, h.ne_fault hrules hsteady hstands hsound hgoes f⟩
    intro hphase
    exact Option.not_isSome_iff_eq_none.mp (mt (h.isSome_stopped_iff hgoes).mp hphase)
  rcases setup.optimize_invariant user graph list (I := I) ⟨fun _ => hcheck, fun _ => rfl, nofun⟩
      hmove with ⟨s, w, _, _, heq⟩ | ⟨s, w, stop, ⟨_, _, hstop⟩, hstopped, heq⟩
  · rw [heq]
    nofun
  · rw [heq]
    rintro ⟨rfl⟩
    exact hstop hstopped

end RenderPlan
