/-
# RenderPlan.Proofs.Optimize.Budget -- what a settled category costs

A category is settled by a pass, and a pass takes a turn for each of its steps and one more to find
that there is none left. So the steps that an optimization took out of its budget pay for the passes
of all categories that are settled and for the steps of the present pass (`Sweep.Move.pays`). The
rest went into repeated visits, into passes over settled categories and into passes that were broken
off.
-/
import RenderPlan.Proofs.Optimize.Standing
import Mathlib.Algebra.GroupWithZero.Nat
import Mathlib.Algebra.Order.BigOperators.Group.List
import Mathlib.Algebra.Order.Group.Nat

namespace RenderPlan

variable {σ : Type} {setup : Setup σ}

/-- The number of steps that the first rules of a category take. -/
def Category.stepCount (c : Category) (rules : Nat) : Nat :=
  if c.simultaneous then min 1 rules else rules

namespace Setup

/-- The number of turns in a complete pass. -/
def passCost (setup : Setup σ) (c : Category) : Nat :=
  c.stepCount (setup.registry.rules c).length + 1

/-- The turns in one complete pass over each category that is not pending. -/
def paid (setup : Setup σ) (pending : Mask) : Nat :=
  (Category.all.map fun c => if c ∈ pending then 0 else setup.passCost c).sum

theorem paid_le_paid {p p' : Mask} (h : ∀ c ∈ p, c ∈ p') : setup.paid p' ≤ setup.paid p := by
  refine List.sum_le_sum fun c _ => ?_
  by_cases hc : c ∈ p
  · rw [if_pos (h c hc)]
    exact Nat.zero_le _
  · rw [if_neg hc]
    split
    · exact Nat.zero_le _
    · exact Nat.le_refl _

/-- A category that leaves the set has its pass paid for. -/
theorem paid_sdiff {p : Mask} {c : Category} (h : c ∈ p) :
    setup.paid (p \ c.mask) = setup.paid p + setup.passCost c := by
  have hothers : ∀ d ∈ Category.all.erase c,
      (if d ∈ p \ c.mask then 0 else setup.passCost d) =
        if d ∈ p then 0 else setup.passCost d := by
    intro d hd
    have hne : d ≠ c := ((List.Nodup.mem_erase_iff (by decide)).mp hd).1
    simp [hne]
  unfold paid
  rw [← List.sum_map_erase _ (Category.mem_all c), ← List.sum_map_erase _ (Category.mem_all c),
    List.map_congr_left hothers, if_pos h, if_neg (by simp)]
  omega

/-- What is pending is not paid for yet. -/
theorem paid_add_passCost_le {p : Mask} {c : Category} (h : c ∈ p) :
    setup.paid p + setup.passCost c ≤ setup.paid ∅ := by
  rw [← paid_sdiff h]
  exact paid_le_paid fun d hd => absurd hd Mask.notMem_empty

end Setup

namespace Sweep

variable {s : Sweep} {w w' : Workspace σ} {step : Step σ} {c : Category} {a b : Situation σ}

/-- The steps of the present pass. -/
def progress (s : Sweep) : Nat :=
  match Category.ofIndex? s.position with
  | some c => c.stepCount s.nextRule
  | none => 0

theorem progress_of_here (h : Category.ofIndex? s.position = some c) :
    s.progress = c.stepCount s.nextRule := by
  rw [progress, h]

theorem progress_of_nextRule (h : s.nextRule = 0) : s.progress = 0 := by
  unfold progress
  split
  · rw [h]
    simp [Category.stepCount]
  · rfl

/-- A step is one step. -/
theorem Stepping.progress_behind (h : s.Stepping setup step) :
    (s.behind step).progress = s.progress + 1 := by
  rw [progress_of_here h.here, progress_of_here (s := s.behind step) h.here]
  cases hsim : step.category.simultaneous with
  | true =>
      have hpos := List.length_pos_of_ne_nil h.members_ne_nil
      simp only [Category.stepCount, hsim, if_true, Sweep.behind, h.whole hsim]
      omega
  | false =>
      obtain ⟨next, _, hmembers⟩ := h.members_of_single hsim
      simp [Category.stepCount, hsim, Sweep.behind, hmembers]

theorem passCost_le_progress (hhere : Category.ofIndex? s.position = some c)
    (hdone : (members setup c)[s.nextRule]? = none) : setup.passCost c ≤ s.progress + 1 := by
  have hlen : (setup.registry.rules c).length ≤ s.nextRule := by
    rw [← map_id_members, List.length_map]
    exact List.getElem?_eq_none_iff.mp hdone
  rw [progress_of_here hhere, Setup.passCost, Category.stepCount, Category.stepCount]
  split <;> omega

/-- In the present pass there are no more turns than a complete pass takes. -/
theorem progress_lt_passCost (hhere : Category.ofIndex? s.position = some c)
    (hbound : s.nextRule ≤ (members setup c).length) : s.progress + 1 ≤ setup.passCost c := by
  rw [← List.length_map Member.id, map_id_members] at hbound
  rw [progress_of_here hhere, Setup.passCost, Category.stepCount, Category.stepCount]
  split <;> omega

end Sweep

/-- The turns that the present pass has taken so far. -/
def Situation.turnsOfPass (a : Situation σ) : Nat :=
  match a.phase with
  | .between => a.sweep.progress
  | _ => a.sweep.progress + 1

namespace Sweep

variable {s : Sweep} {w : Workspace σ} {step : Step σ} {a b : Situation σ}

theorem turnsOfPass_between (h : s.nextRule = 0) :
    (⟨.between, s, w⟩ : Situation σ).turnsOfPass = 0 :=
  progress_of_nextRule h

/-- Reports only make more pending. -/
theorem pays_report {m : Mask} {turns steps : Nat} (s : Sweep)
    (h : setup.paid s.pending + turns ≤ steps) :
    setup.paid (s.report m).pending + turns ≤ steps := by
  have hpaid : setup.paid (s.report m).pending ≤ setup.paid s.pending :=
    Setup.paid_le_paid fun c hc => Mask.mem_union.mpr (Or.inl hc)
  exact Nat.le_trans (Nat.add_le_add_right hpaid _) h

/-- The steps taken pay for the settled categories and for the present pass. -/
theorem Move.pays (hstands : a.Stands setup)
    (ha : setup.paid a.sweep.pending + a.turnsOfPass ≤ a.work.steps) (h : Move setup a b)
    (hb : b.phase ≠ .stopped) :
    setup.paid b.sweep.pending + b.turnsOfPass ≤ b.work.steps := by
  cases h with
  | spend => exact Nat.succ_le_succ ha
  | rewind | advance | restart | cutList | cut =>
      rw [turnsOfPass_between rfl]
      exact Nat.le_of_add_right_le ha
  | @settle s w c hhere hpending hdone =>
      have hpaid : setup.paid (s.settle c).pending ≤ setup.paid (s.pending \ c.mask) :=
        Setup.paid_le_paid fun d hd => Mask.mem_union.mpr (Or.inl hd)
      have hcost := passCost_le_progress hhere hdone
      rw [Setup.paid_sdiff hpending] at hpaid
      rw [turnsOfPass_between rfl]
      exact Nat.le_trans (Nat.le_trans hpaid (Nat.add_le_add_left hcost _)) ha
  | begin | beginLogged | skip | descend | hole => exact ha
  | finishList | finish =>
      have hprogress := Nat.le_of_eq hstands.1.progress_behind
      exact Nat.le_trans (Nat.add_le_add_left hprogress _) ha
  | @call s => exact pays_report s ha
  | @visit s _ _ _ _ _ _ _ _ houtcome =>
      exact Nat.le_trans (pays_report s ha) (entryOutcome_steps_le houtcome).1
  | @revisit s _ _ _ _ _ _ _ _ _ houtcome =>
      exact Nat.le_succ_of_le (Nat.le_trans (pays_report s ha) (entryOutcome_steps_le houtcome).1)
  | exhausted | unlogged | raise | unrepeated | abort => exact absurd rfl hb

end Sweep

end RenderPlan
