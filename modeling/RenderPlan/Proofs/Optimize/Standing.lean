/-
# RenderPlan.Proofs.Optimize.Standing -- where a step stands in its category

Within a step, the sweep stands at the category of the step and at the first of its rules
(`Sweep.Stepping`). A simultaneous category is run from its first rule, and it is either not begun
or done whenever the sweep is between two turns.

`Setup.optimize_invariant` is the form in which all properties of whole optimizations are proved:
what holds in the beginning and is kept by every move, holds of what an optimization leaves behind.
-/
import RenderPlan.Proofs.Category.Membership
import RenderPlan.Proofs.Optimize.Moves

namespace RenderPlan

variable {σ : Type} {setup : Setup σ} {a b : Situation σ} {s : Sweep} {step : Step σ}

theorem Step.mem_gate {d : Category} :
    d ∈ step.gate ↔ ∃ m ∈ step.members, d < step.category ∧ d ∈ m.rule.descriptor.dependsFrom := by
  simp [Step.gate, Mask.mem_foldl_union]

namespace Sweep

/-- The sweep stands at the first rule of the step. -/
structure Stepping (setup : Setup σ) (s : Sweep) (step : Step σ) : Prop where
  here : Category.ofIndex? s.position = some step.category
  begins : ∃ next, (members setup step.category)[s.nextRule]? = some next ∧
    step = stepAt setup step.category next
  whole : step.category.simultaneous = true → s.nextRule = 0

/-- A simultaneous category that the sweep stands at is not begun, or done. -/
def Whole (setup : Setup σ) (s : Sweep) : Prop :=
  ∀ c, Category.ofIndex? s.position = some c → c.simultaneous = true →
    s.nextRule = 0 ∨ (members setup c).length ≤ s.nextRule

theorem category_stepAt (c : Category) (next : Member σ) : (stepAt setup c next).category = c := by
  unfold stepAt
  split <;> rfl

theorem Whole.stepping {c : Category} {next : Member σ} (h : s.Whole setup)
    (hhere : Category.ofIndex? s.position = some c)
    (hrule : (members setup c)[s.nextRule]? = some next) :
    s.Stepping setup (stepAt setup c next) where
  here := by rw [category_stepAt]; exact hhere
  begins := by rw [category_stepAt]; exact ⟨next, hrule, rfl⟩
  whole hsim := by
    rw [category_stepAt] at hsim
    have hlt := (List.getElem?_eq_some_iff.mp hrule).1
    exact (h c hhere hsim).resolve_right (Nat.not_le_of_lt hlt)

theorem Stepping.members_of_simultaneous (h : s.Stepping setup step)
    (hsim : step.category.simultaneous = true) : step.members = members setup step.category := by
  obtain ⟨next, _, hstep⟩ := h.begins
  rw [hstep, category_stepAt, stepAt, if_pos hsim]

theorem Stepping.members_of_single (h : s.Stepping setup step)
    (hsim : step.category.simultaneous = false) :
    ∃ next, (members setup step.category)[s.nextRule]? = some next ∧ step.members = [next] := by
  obtain ⟨next, hnext, hstep⟩ := h.begins
  refine ⟨next, hnext, ?_⟩
  rw [hstep, stepAt, if_neg (Bool.eq_false_iff.mp hsim)]

/-- The step goes on where the rules before it end. -/
theorem Stepping.take_append (h : s.Stepping setup step) :
    (members setup step.category).take s.nextRule ++ step.members =
      (members setup step.category).take (s.nextRule + step.members.length) := by
  cases hsim : step.category.simultaneous with
  | true =>
      rw [h.whole hsim, h.members_of_simultaneous hsim]
      simp
  | false =>
      obtain ⟨next, hnext, hmembers⟩ := h.members_of_single hsim
      rw [hmembers, List.length_singleton, List.take_add_one, hnext]
      rfl

theorem Stepping.members_subset (h : s.Stepping setup step) :
    step.members ⊆ members setup step.category := by
  intro m hm
  refine List.mem_of_mem_take (i := s.nextRule + step.members.length) ?_
  rw [← h.take_append]
  exact List.mem_append_right _ hm

theorem Stepping.nextRule_lt (h : s.Stepping setup step) :
    s.nextRule < (members setup step.category).length := by
  obtain ⟨next, hnext, _⟩ := h.begins
  exact (List.getElem?_eq_some_iff.mp hnext).1

theorem Stepping.members_ne_nil (h : s.Stepping setup step) : step.members ≠ [] := by
  cases hsim : step.category.simultaneous with
  | true =>
      rw [h.members_of_simultaneous hsim]
      exact List.ne_nil_of_length_pos (Nat.zero_lt_of_lt h.nextRule_lt)
  | false =>
      obtain ⟨next, _, hmembers⟩ := h.members_of_single hsim
      rw [hmembers]
      nofun

theorem Stepping.behind_le (h : s.Stepping setup step) :
    (s.behind step).nextRule ≤ (members setup step.category).length := by
  cases hsim : step.category.simultaneous with
  | true =>
      have hmembers := h.members_of_simultaneous hsim
      simp [Sweep.behind, h.whole hsim, ← hmembers]
  | false =>
      obtain ⟨next, _, hmembers⟩ := h.members_of_single hsim
      have hlt := h.nextRule_lt
      rw [Sweep.behind, hmembers]
      exact hlt

theorem Stepping.behind (h : s.Stepping setup step) : (s.behind step).Whole setup := by
  intro c hhere hsim
  obtain rfl : step.category = c := Option.some.inj (h.here.symm.trans hhere)
  rw [← h.members_of_simultaneous hsim]
  exact Or.inr (Nat.le_add_left _ _)

theorem map_id_members {c : Category} :
    (members setup c).map Member.id = setup.registry.rules c := by
  simp [members, Function.comp_def]

theorem mem_members {c : Category} {m : Member σ} :
    m ∈ members setup c ↔ m.id ∈ setup.registry.rules c ∧ m.rule = setup.rules m.id := by
  unfold members
  rw [List.mem_map]
  constructor
  · rintro ⟨id, hid, rfl⟩
    exact ⟨hid, rfl⟩
  · rintro ⟨hid, hrule⟩
    exact ⟨m.id, hid, by rw [← hrule]⟩

/-- What holds of all registered rules holds of the rules of a step. -/
theorem Stepping.forall_members {P : Rule σ → Prop} (h : s.Stepping setup step)
    (hrules : ∀ c, ∀ id ∈ setup.registry.rules c, P (setup.rules id)) :
    ∀ m ∈ step.members, P m.rule := by
  intro m hm
  obtain ⟨hid, hrule⟩ := mem_members.mp (h.members_subset hm)
  exact hrule ▸ hrules _ _ hid

end Sweep

/-- The list, also in the middle of a step. -/
def Situation.list (a : Situation σ) : List (Option TaskId) :=
  match a.phase with
  | .visiting _ before after => before.reverse ++ after
  | _ => a.sweep.list

/-- The step that a situation is within stands in its category. -/
def Situation.Stands (setup : Setup σ) (a : Situation σ) : Prop :=
  match a.phase with
  | .listing step rest => a.sweep.Stepping setup step ∧ rest ⊆ step.members
  | .visiting step _ _ => a.sweep.Stepping setup step ∧ step.forEntries = true
  | .between | .turning => a.sweep.Whole setup
  | .stopped => True

namespace Sweep

theorem Move.stands (h : Move setup a b) (ha : a.Stands setup) : b.Stands setup := by
  cases h with
  | spend => exact ha
  | rewind | settle | restart | cutList | cut | advance => exact fun _ _ _ => Or.inl rfl
  | begin hhere _ hrule | beginLogged hhere _ hrule =>
      exact ⟨Whole.stepping ha hhere hrule, List.Subset.refl _⟩
  | call | skip =>
      obtain ⟨hstands, hrest⟩ := ha
      exact ⟨⟨hstands.here, hstands.begins, hstands.whole⟩, (List.cons_subset.mp hrest).2⟩
  | descend _ hentries => exact ⟨ha.1, hentries⟩
  | finishList => exact ha.1.behind
  | hole | visit | revisit => exact ⟨⟨ha.1.here, ha.1.begins, ha.1.whole⟩, ha.2⟩
  | finish =>
      have hbehind := ha.1.behind
      exact hbehind
  | exhausted | unlogged | raise | unrepeated | abort => trivial

/-- What is kept by every move is kept along a path. -/
theorem Path.invariant {I : Situation σ → Prop} (h : Path setup a b) (hstands : a.Stands setup)
    (ha : I a) (hmove : ∀ a b, a.Stands setup → I a → Move setup a b → I b) :
    b.Stands setup ∧ I b := by
  induction h with
  | refl => exact ⟨hstands, ha⟩
  | tail _ hlast ih => exact ⟨hlast.stands ih.1, hmove _ _ ih.1 ih.2 hlast⟩

end Sweep

open Sweep

namespace Setup

theorem stands_start (setup : Setup σ) (user : σ) (graph : Graph)
    (list : List (Option TaskId)) : (start user graph list).Stands setup :=
  fun _ _ _ => Or.inl rfl

/-- What holds in the beginning and is kept by every move, holds of what is left behind. -/
theorem optimize_invariant (setup : Setup σ) (user : σ) (graph : Graph)
    (list : List (Option TaskId)) {I : Situation σ → Prop}
    (hstart : I (start user graph list))
    (hmove : ∀ a b, a.Stands setup → I a → Move setup a b → I b) :
    (∃ s w, I ⟨.between, s, w⟩ ∧ s.pending.isEmpty = true ∧
      setup.optimize user graph list = ⟨.ok ⟨w.steps, s.restarts⟩, s.list.filter Option.isSome,
        w.user, w.graph, w.journal, s.turns⟩) ∨
    ∃ s w stop, I ⟨.stopped, s, w⟩ ∧ s.stopped = some stop ∧
      setup.optimize user graph list =
        ⟨.error stop, s.list, w.user, w.graph, w.journal, s.turns⟩ := by
  have hkept : ∀ {b}, Path setup (start user graph list) b → I b := fun hb =>
    (hb.invariant (stands_start setup user graph list) hstart hmove).2
  rcases setup.optimize_path user graph list with ⟨s, w, hp, h⟩ | ⟨s, w, stop, hp, h⟩
  · exact Or.inl ⟨s, w, hkept hp, h⟩
  · exact Or.inr ⟨s, w, stop, hkept hp, h⟩

end Setup

end RenderPlan
