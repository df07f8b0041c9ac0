/-
# RenderPlan.Proofs.Hazard.Reduction -- a plan records no edge that the others imply

The tasks in front of an entry are looked at from the nearest to the farthest, and one that the edges
chosen so far order already gets no edge. What an edge leads to later on lies farther away, so no edge
chosen early is made superfluous by one chosen late: the plan is the transitive reduction of the
order that it describes (`exists_reduced_plan`).

An edge that no way of two or more edges replaces is in every set of edges that describes the same
order (`Reduced.edge_of_same_order`), so the plan has the fewest edges of all of them.
-/
import RenderPlan.Proofs.Hazard.Ancestry
import Mathlib.Data.Finset.Card
import Mathlib.Order.Bounds.Basic

namespace RenderPlan.HazardPlan

open Relation (TransGen ReflTransGen)

variable {g : Graph} {list : List TaskId} {plan : HazardPlan} {R S : Nat → Nat → Prop} {i j k : Nat}

/-! ## Edges that nothing replaces -/

/-- No way of two or more edges leads where one edge leads. -/
def Reduced (R : Nat → Nat → Prop) : Prop :=
  ∀ i j k, TransGen R i j → TransGen R j k → ¬ R i k

/-- Following the edges of either leads to the same places. -/
def SameOrder (R S : Nat → Nat → Prop) : Prop := ∀ i k, TransGen R i k ↔ TransGen S i k

/-- Edges that nothing replaces are in every relation of the same order. -/
theorem Reduced.edge_of_same_order (hS : Reduced S) (h : SameOrder R S) (hik : S i k) : R i k := by
  cases (h i k).mpr (.single hik) with
  | single hedge => exact hedge
  | tail hij hjk => exact absurd hik (hS i _ k ((h _ _).mp hij) ((h _ _).mp (.single hjk)))

/-- The edges of an entry stand from the nearest to the farthest. -/
theorem falling_depsOf (h : ofList g list = .ok plan) (i : Nat) :
    (plan.depsOf i).Pairwise (· > ·) := by
  obtain ⟨planned, rfl, hexact, -, -⟩ := exact_of_ofList h
  simp only [depsOf, List.getElem?_map, Array.getElem?_toList]
  cases hp : planned[i]? with
  | none => exact .nil
  | some p => exact (hexact i p hp).falling

/-- Edges lead to the front of the list, and so does following them. -/
theorem lt_of_transGen (h : ofList g list = .ok plan) (hik : TransGen plan.WaitsFor i k) : k < i := by
  have horders := orders_of_ofList h
  induction hik with
  | single hedge => exact (horders.conflict_of_edge hedge).1
  | tail _ hedge ih => exact Nat.lt_trans (horders.conflict_of_edge hedge).1 ih

/-- A way that leads where an edge leads would begin with a nearer edge of the same entry, and the
farther one would not have been chosen then. -/
theorem reduced_of_ofList (h : ofList g list = .ok plan) : Reduced plan.WaitsFor := by
  intro i j k hij hjk hik
  obtain ⟨b, hib, hbj⟩ := TransGen.head'_iff.mp hij
  have hbk : TransGen plan.WaitsFor b k := TransGen.trans_right hbj hjk
  have hlt : k < b := lt_of_transGen h hbk
  obtain ⟨planned, rfl, hexact, -, -⟩ := exact_of_ofList h
  obtain ⟨p, hp, hb⟩ := waitsFor_iff.mp hib
  obtain ⟨p', hp', hk⟩ := waitsFor_iff.mp hik
  obtain rfl : p = p' := Option.some.inj (hp.symm.trans hp')
  have hp := hexact i p hp
  -- the edge to `k` was chosen after the one to `b`
  have hapart : ¬ ReflTransGen (Waits planned) b k := by
    obtain ⟨nearer, farther, hdeps⟩ := List.append_of_mem hb
    have hfalling := hp.falling
    have hapart := hp.apart
    rw [hdeps] at hk hfalling hapart
    rcases List.mem_append.mp hk with hk | hk
    · have hgt : k > b := (List.pairwise_append.mp hfalling).2.2 k hk b (List.mem_cons_self ..)
      omega
    · have hk : k ∈ farther := (List.mem_cons.mp hk).resolve_left (Nat.ne_of_lt hlt)
      exact (List.pairwise_cons.mp (List.pairwise_append.mp hapart).2.1).1 k hk
  rw [waitsFor_eq] at hbk
  exact hapart hbk.to_reflTransGen

/-! ## How many edges there are -/

/-- The edges, one by one. -/
def pairs (p : HazardPlan) : List (Nat × Nat) :=
  (p.deps.mapIdx fun i ks => ks.map (Prod.mk i)).flatten

theorem mem_pairs : (i, k) ∈ plan.pairs ↔ plan.WaitsFor i k := by
  simp only [pairs, List.mem_flatten, List.mem_mapIdx, WaitsFor, depsOf]
  constructor
  · rintro ⟨_, ⟨i', hi', rfl⟩, hmem⟩
    obtain ⟨k', hk', heq⟩ := List.mem_map.mp hmem
    cases heq
    rwa [List.getElem?_eq_getElem hi', Option.getD_some]
  · intro hk
    cases hdeps : plan.deps[i]? with
    | none =>
        rw [hdeps] at hk
        cases hk
    | some ks =>
        rw [hdeps] at hk
        obtain ⟨hi, rfl⟩ := List.getElem?_eq_some_iff.mp hdeps
        exact ⟨_, ⟨i, hi, rfl⟩, List.mem_map_of_mem hk⟩

theorem length_pairs : plan.pairs.length = plan.edges := by
  rw [pairs, List.length_flatten, edges, List.sum]
  congr 1
  refine List.ext_getElem? fun i => ?_
  simp only [List.getElem?_map, List.getElem?_mapIdx, Option.map_map]
  congr 1
  funext ks
  exact List.length_map _

theorem nodup_pairs (h : ofList g list = .ok plan) : plan.pairs.Nodup := by
  refine List.nodup_flatten.mpr ⟨?_, ?_⟩
  · intro l hl
    obtain ⟨i, hi, rfl⟩ := List.mem_mapIdx.mp hl
    have hfalling := falling_depsOf h i
    rw [depsOf, List.getElem?_eq_getElem hi, Option.getD_some] at hfalling
    exact (hfalling.imp fun hgt => Nat.ne_of_gt hgt).map (Prod.mk i) fun _ _ hne heq =>
      hne (Prod.mk.inj heq).2
  · refine List.pairwise_iff_getElem.mpr fun i j hi hj hlt => ?_
    simp only [List.getElem_mapIdx]
    rintro ⟨x, k⟩ hx hx'
    obtain ⟨_, _, heq⟩ := List.mem_map.mp hx
    obtain ⟨_, _, heq'⟩ := List.mem_map.mp hx'
    cases heq
    cases heq'
    exact Nat.lt_irrefl _ hlt

/-- The numbers of edges with which the order of the plan can be described. -/
def edgeCounts (p : HazardPlan) : Set Nat :=
  {n | ∃ E : Finset (Nat × Nat), SameOrder (fun i k => (i, k) ∈ E) p.WaitsFor ∧ E.card = n}

theorem isLeast_edges (h : ofList g list = .ok plan) : IsLeast plan.edgeCounts plan.edges := by
  have hnodup := nodup_pairs h
  have hcard : plan.pairs.toFinset.card = plan.edges := by
    rw [List.toFinset_card_of_nodup hnodup, length_pairs]
  refine ⟨⟨plan.pairs.toFinset, ?_, hcard⟩, ?_⟩
  · intro i k
    simp only [List.mem_toFinset, mem_pairs]
  · rintro n ⟨E, hE, rfl⟩
    rw [← hcard]
    refine Finset.card_le_card fun ⟨i, k⟩ hik => ?_
    exact (reduced_of_ofList h).edge_of_same_order hE (mem_pairs.mp (List.mem_toFinset.mp hik))

/-- **The plan is the transitive reduction.** A list whose entries and sub-tasks exist has a plan. The
edges of each entry stand from the nearest to the farthest, and no way of two or more edges leads
where one of them leads. Whatever describes the same order has all of these edges, so the number of
edges that is reported is the least that describes it. -/
theorem exists_reduced_plan (hlist : g.Resolves list) :
    ∃ plan, ofList g list = .ok plan ∧
      (∀ i, (plan.depsOf i).Pairwise (· > ·)) ∧
      Reduced plan.WaitsFor ∧
      (∀ R : Nat → Nat → Prop, SameOrder R plan.WaitsFor → ∀ i k, plan.WaitsFor i k → R i k) ∧
      IsLeast plan.edgeCounts plan.edges := by
  obtain ⟨plan, hplan⟩ := exists_ofList hlist
  have hreduced := reduced_of_ofList hplan
  refine ⟨plan, hplan, falling_depsOf hplan, hreduced, ?_, isLeast_edges hplan⟩
  intro R hR i k hik
  exact hreduced.edge_of_same_order hR hik

/-- The last entry conflicts with all the others, and has one edge. -/
theorem exists_reduced_plan_strips :
    stripGraph.Resolves [⟨0⟩, ⟨1⟩, ⟨2⟩, ⟨3⟩, ⟨2⟩] ∧
      ∃ plan, ofList stripGraph [⟨0⟩, ⟨1⟩, ⟨2⟩, ⟨3⟩, ⟨2⟩] = .ok plan ∧ plan.depsOf 4 = [3] ∧
        (∀ k < 4, stripGraph.ConflictsBefore [⟨0⟩, ⟨1⟩, ⟨2⟩, ⟨3⟩, ⟨2⟩] k 4) ∧
        IsLeast plan.edgeCounts 4 := by
  have hresolves : stripGraph.Resolves [⟨0⟩, ⟨1⟩, ⟨2⟩, ⟨3⟩, ⟨2⟩] := by decide
  obtain ⟨plan, hplan, -, -, -, hleast⟩ := exists_reduced_plan hresolves
  obtain rfl : plan = ⟨[[], [], [1, 0], [2], [3]]⟩ := Except.ok.inj (hplan.symm.trans ofList_strips)
  refine ⟨hresolves, _, hplan, rfl, ?_, hleast⟩
  intro k hk
  match k with
  | 0 => exact ⟨by decide, _, _, rfl, rfl, Or.inl (by decide)⟩
  | 1 => exact ⟨by decide, _, _, rfl, rfl, Or.inl (by decide)⟩
  | 2 => exact ⟨by decide, _, _, rfl, rfl, Or.inl (by decide)⟩
  | 3 => exact ⟨by decide, _, _, rfl, rfl, Or.inr (Or.inr ⟨_, ⟨⟨2⟩, by decide, rfl⟩, by decide⟩)⟩

end RenderPlan.HazardPlan
