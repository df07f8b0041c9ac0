/-
# RenderPlan.Proofs.Hazard.Stamps -- what a stack of positions stamps

`HazardPlan.stampAll` takes one position after another from a stack, stamps it and puts on the stack what
its edges lead to. Whatever a stamped position waits for is stamped too or is still on the stack. This is so
after each step if it was so before (`Marking`), and at the end the stack is empty. So what is stamped then
is what was stamped before and all that edges lead to from the positions on the stack
(`stamped_stampAll_iff`).
-/
import RenderPlan.Hazard.Plan
import Mathlib.Logic.Relation

namespace RenderPlan.HazardPlan

open Relation

/-- The task at `x` waits for the one at `y`. -/
def Waits (planned : Array Planned) (x y : Nat) : Prop := ∃ p, planned[x]? = some p ∧ y ∈ p.deps

/-- All edges lead to tasks of the list. -/
def Inside (planned : Array Planned) : Prop := ∀ x y, Waits planned x y → y < planned.size

/-- The position carries the stamp of the task at `i`. -/
def Stamped (stamps : Stamps) (i x : Nat) : Prop := stamps[x]? = some (some i)

/-- Whatever a stamped position waits for is stamped too, or waits on the stack. -/
def Covered (planned : Array Planned) (i : Nat) (stamps : Stamps) (stack : List Nat) : Prop :=
  ∀ x y, Stamped stamps i x → Waits planned x y → Stamped stamps i y ∨ y ∈ stack

variable {planned : Array Planned} {i x y k : Nat} {stamps before : Stamps} {stack start : List Nat}

theorem mem_edgesFrom_iff : y ∈ edgesFrom planned x ↔ Waits planned x y := by
  cases hx : planned[x]? <;> simp [edgesFrom, Waits, hx]

theorem getElem?_stamp (hx : x < stamps.size) :
    (stamps.setIfInBounds x (some i))[y]? = if y = x then some (some i) else stamps[y]? := by
  rw [Array.getElem?_setIfInBounds]
  by_cases hyx : y = x
  · simp [hyx, hx]
  · simp [hyx, Ne.symm hyx]

theorem stamped_stamp_iff (hx : x < stamps.size) :
    Stamped (stamps.setIfInBounds x (some i)) i y ↔ y = x ∨ Stamped stamps i y := by
  rw [Stamped, getElem?_stamp hx]
  split
  · next hyx => simp [hyx]
  · next hyx => simp [hyx, Stamped]

/-! ## Steps -/

/-- How far stamping has come that began with some stamps and some positions on the stack. -/
structure Marking (planned : Array Planned) (i : Nat) (before : Stamps) (start : List Nat)
    (stamps : Stamps) (stack : List Nat) : Prop where
  size_eq : stamps.size = before.size
  inside : ∀ y ∈ stack, y < before.size
  covered : Covered planned i stamps stack
  /-- No stamp is lost. -/
  kept : ∀ x, Stamped before i x → Stamped stamps i x
  /-- No position is forgotten. -/
  started : ∀ k ∈ start, Stamped stamps i k ∨ k ∈ stack
  /-- Nothing is stamped that edges do not lead to. -/
  reached : ∀ x, Stamped stamps i x ∨ x ∈ stack →
    Stamped before i x ∨ ∃ k ∈ start, ReflTransGen (Waits planned) k x
  /-- The stamps of other tasks are old. -/
  older : ∀ x j : Nat, stamps[x]? = some (some j) → j = i ∨ before[x]? = some (some j)

theorem Marking.refl (hstart : ∀ k ∈ start, k < before.size) (h : Covered planned i before start) :
    Marking planned i before start before start where
  size_eq := rfl
  inside := hstart
  covered := h
  kept _ h := h
  started _ h := Or.inr h
  reached x h := h.imp_right fun hx => ⟨x, hx, .refl⟩
  older _ _ h := Or.inr h

/-- A position that carries the stamp is taken from the stack. -/
theorem Marking.skip (h : Marking planned i before start stamps (x :: stack))
    (hx : Stamped stamps i x) : Marking planned i before start stamps stack where
  size_eq := h.size_eq
  inside y hy := h.inside y (List.mem_cons_of_mem x hy)
  covered y z hy hyz := by
    rcases h.covered y z hy hyz with hz | hz
    · exact Or.inl hz
    · rcases List.mem_cons.mp hz with rfl | hz
      · exact Or.inl hx
      · exact Or.inr hz
  kept := h.kept
  started k hk := by
    rcases h.started k hk with hk | hk
    · exact Or.inl hk
    · rcases List.mem_cons.mp hk with rfl | hk
      · exact Or.inl hx
      · exact Or.inr hk
  reached y hy := h.reached y (hy.imp_right (List.mem_cons_of_mem x))
  older := h.older

/-- A position is stamped, and what it waits for goes on the stack. -/
theorem Marking.stamp (hin : Inside planned) (hsize : planned.size ≤ before.size)
    (h : Marking planned i before start stamps (x :: stack)) (hnew : ¬ Stamped stamps i x) :
    Marking planned i before start (stamps.setIfInBounds x (some i))
      ((edgesFrom planned x).reverse ++ stack) := by
  have hx : x < stamps.size := h.size_eq ▸ h.inside x List.mem_cons_self
  have hstack : ∀ y, y ∈ (edgesFrom planned x).reverse ++ stack ↔
      Waits planned x y ∨ y ∈ stack := fun y => by
    rw [List.mem_append, List.mem_reverse, mem_edgesFrom_iff]
  -- what was stamped or on the stack still is one of the two
  have hstill : ∀ y, Stamped stamps i y ∨ y ∈ x :: stack →
      Stamped (stamps.setIfInBounds x (some i)) i y ∨
        y ∈ (edgesFrom planned x).reverse ++ stack := by
    intro y hy
    rw [stamped_stamp_iff hx, hstack]
    rcases hy with hy | hy
    · exact Or.inl (Or.inr hy)
    · rcases List.mem_cons.mp hy with rfl | hy
      · exact Or.inl (Or.inl rfl)
      · exact Or.inr (Or.inr hy)
  refine ⟨by rw [Array.size_setIfInBounds, h.size_eq], ?_, ?_, ?_, fun k hk => hstill k (h.started k hk),
    ?_, ?_⟩
  · intro y hy
    rcases (hstack y).mp hy with hy | hy
    · exact Nat.lt_of_lt_of_le (hin x y hy) hsize
    · exact h.inside y (List.mem_cons_of_mem x hy)
  · intro y z hy hyz
    rcases (stamped_stamp_iff hx).mp hy with rfl | hy
    · exact Or.inr ((hstack z).mpr (Or.inl hyz))
    · exact hstill z (h.covered y z hy hyz)
  · intro y hy
    exact (stamped_stamp_iff hx).mpr (Or.inr (h.kept y hy))
  · have hreached : ∃ k ∈ start, ReflTransGen (Waits planned) k x :=
      (h.reached x (Or.inr List.mem_cons_self)).resolve_left fun hold => hnew (h.kept x hold)
    obtain ⟨k, hk, hkx⟩ := hreached
    intro y hy
    rw [stamped_stamp_iff hx, hstack] at hy
    rcases hy with (rfl | hy) | hxy | hy
    · exact Or.inr ⟨k, hk, hkx⟩
    · exact h.reached y (Or.inl hy)
    · exact Or.inr ⟨k, hk, hkx.tail hxy⟩
    · exact h.reached y (Or.inr (List.mem_cons_of_mem x hy))
  · intro y j hj
    rw [getElem?_stamp hx] at hj
    split at hj
    · cases hj
      exact Or.inl rfl
    · exact h.older y j hj

/-! ## The whole stack -/

/-- At the end nothing is left on the stack. -/
theorem Marking.stampAll (hin : Inside planned) (hsize : planned.size ≤ before.size)
    (h : Marking planned i before start stamps stack) :
    Marking planned i before start (stampAll planned i stamps stack) [] := by
  fun_induction HazardPlan.stampAll planned i stamps stack with
  | case1 => exact h
  | case2 stamps x stack hnew ih => exact ih (h.stamp hin hsize hnew.2)
  | case3 stamps x stack hnew ih =>
      have hx : x < stamps.size := h.size_eq ▸ h.inside x List.mem_cons_self
      exact ih (h.skip (Classical.byContradiction fun hx' => hnew ⟨hx, hx'⟩))

/-- From stamps that cover everything but one position, this position can be stamped. -/
theorem marking_stampAll (hin : Inside planned) (hsize : planned.size ≤ stamps.size)
    (hcovered : Covered planned i stamps []) (hk : k < planned.size) :
    Marking planned i stamps [k] (stampAll planned i stamps [k]) [] := by
  refine Marking.stampAll hin hsize (.refl ?_ fun x y hx hxy => ?_)
  · exact List.forall_mem_singleton.mpr (Nat.lt_of_lt_of_le hk hsize)
  · exact (hcovered x y hx hxy).imp_right fun hy => absurd hy List.not_mem_nil

/-- Stamped positions stay stamped as edges are followed, if the stamps cover everything. -/
theorem Covered.stamped (h : Covered planned i stamps []) (hx : Stamped stamps i x)
    (hxy : ReflTransGen (Waits planned) x y) : Stamped stamps i y := by
  induction hxy with
  | refl => exact hx
  | tail _ hedge ih => exact (h _ _ ih hedge).resolve_right List.not_mem_nil

/-- **Stamping a position stamps all that edges lead to from there**, and nothing else. -/
theorem stamped_stampAll_iff (hin : Inside planned) (hsize : planned.size ≤ stamps.size)
    (hcovered : Covered planned i stamps []) (hk : k < planned.size) :
    Stamped (stampAll planned i stamps [k]) i x ↔
      Stamped stamps i x ∨ ReflTransGen (Waits planned) k x := by
  have h := marking_stampAll hin hsize hcovered hk
  constructor
  · intro hx
    refine (h.reached x (Or.inl hx)).imp_right ?_
    rintro ⟨k', hk', hx⟩
    rwa [List.mem_singleton.mp hk'] at hx
  · rintro (hx | hx)
    · exact h.kept x hx
    · have hstart := (h.started k (List.mem_singleton_self k)).resolve_right List.not_mem_nil
      exact h.covered.stamped hstart hx

end RenderPlan.HazardPlan
