/-
# RenderPlan.Proofs.Hazard.Stretches -- entries that conflict with the stretch before them

Where tasks stand in the order of what they touch, an entry conflicts with a stretch of entries that
ends right before it (`Contiguous`), and with nothing farther away. Then the entries that conflict
with one and the same earlier entry conflict with each other, and only the first of them waits for it
by an edge of its own (`waitsFor_iff_first`). So a plan has one edge for each entry that some later one
conflicts with, however far the conflicts reach (`edges_eq_countP`).
-/
import RenderPlan.Proofs.Hazard.Reduction
import Mathlib.Data.Nat.Find

namespace RenderPlan.HazardPlan

open Relation (TransGen)

variable {g : Graph} {list : List TaskId} {plan : HazardPlan} {i k : Nat}

/-- What an entry conflicts with is a stretch that ends right before it. -/
def Contiguous (g : Graph) (list : List TaskId) : Prop :=
  ∀ k j i, g.ConflictsBefore list k i → k < j → j < i → g.ConflictsBefore list j i

/-- The first entry that conflicts with an earlier one waits for it, and no other entry does. -/
theorem waitsFor_iff_first (h : ofList g list = .ok plan) (hcont : Contiguous g list) :
    plan.WaitsFor i k ↔
      g.ConflictsBefore list k i ∧ ∀ j, g.ConflictsBefore list k j → i ≤ j := by
  have horders := orders_of_ofList h
  constructor
  · intro hedge
    have hconf := horders.conflict_of_edge hedge
    refine ⟨hconf, fun j hj => Nat.le_of_not_lt fun hlt => ?_⟩
    -- the nearer entry is on a way of two edges or more
    have hfar := horders.reaches_conflict (hcont k j i hconf hj.1 hlt)
    exact reduced_of_ofList h i j k hfar (horders.reaches_conflict hj) hedge
  · rintro ⟨hconf, hfirst⟩
    cases horders.reaches_conflict hconf with
    | single hedge => exact hedge
    | tail hway hedge =>
        have hle := hfirst _ (horders.conflict_of_edge hedge)
        exact absurd (lt_of_transGen h hway) (Nat.not_lt_of_le hle)

/-- **One edge for each entry that is waited for.** -/
theorem edges_eq_countP (h : ofList g list = .ok plan) (hcont : Contiguous g list)
    {P : Nat → Bool} (hP : ∀ k < list.length, P k = true ↔ ∃ i, g.ConflictsBefore list k i) :
    plan.edges = (List.range list.length).countP P := by
  have hmem : ∀ {i k}, (i, k) ∈ plan.pairs ↔
      g.ConflictsBefore list k i ∧ ∀ j, g.ConflictsBefore list k j → i ≤ j :=
    mem_pairs.trans (waitsFor_iff_first h hcont)
  have hnodup : (plan.pairs.map Prod.snd).Nodup := by
    refine (nodup_pairs h).map_on ?_
    rintro ⟨i, k⟩ hik ⟨j, l⟩ hjl (rfl : k = l)
    obtain ⟨hconf, hfirst⟩ := hmem.mp hik
    obtain ⟨hconf', hfirst'⟩ := hmem.mp hjl
    rw [Nat.le_antisymm (hfirst j hconf') (hfirst' i hconf)]
  have hperm : (plan.pairs.map Prod.snd).Perm ((List.range list.length).filter P) := by
    refine (List.perm_ext_iff_of_nodup hnodup (List.nodup_range.filter _)).mpr fun k => ?_
    rw [List.mem_filter, List.mem_range, List.mem_map]
    constructor
    · rintro ⟨⟨i, k⟩, hik, rfl⟩
      obtain ⟨hconf, -⟩ := hmem.mp hik
      have hlt : k < list.length := by
        obtain ⟨-, a, -, ha, -⟩ := hconf
        obtain ⟨task, htask, -⟩ := Option.bind_eq_some_iff.mp ha
        exact (List.getElem?_eq_some_iff.mp htask).1
      exact ⟨hlt, (hP _ hlt).mpr ⟨i, hconf⟩⟩
    · rintro ⟨hlt, hk⟩
      have hsome := (hP k hlt).mp hk
      classical
      exact ⟨(Nat.find hsome, k),
        hmem.mpr ⟨Nat.find_spec hsome, fun j hj => Nat.find_min' hsome hj⟩, rfl⟩
  calc plan.edges = (plan.pairs.map Prod.snd).length := by rw [List.length_map, length_pairs]
    _ = ((List.range list.length).filter P).length := hperm.length_eq
    _ = (List.range list.length).countP P := List.countP_eq_length_filter.symm

end RenderPlan.HazardPlan
