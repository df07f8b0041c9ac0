/-
# RenderPlan.Proofs.Optimize.Turns -- only rules keep a sweep from settling

A call disturbs the sweep if it changed its task or the list, or unsettled a category that was not
unsettled yet when the rule was called. Without a disturbance a sweep is over soon. When the present
pass has unsettled nothing and nothing behind the sweep is pending, the sweep goes through the
pending categories once, and no restart is in its way (`Sweep.Clear`). Otherwise it gets there by
the end of this sweep, or by a restart before that: both go back to the first category.

So the turns that are left are at most those of two sweeps (`Sweep.EndsIn`), a turn takes one of
them away (`Sweep.Move.paced`), and only a disturbance gives new ones. It follows that the number of
turns is linear in the number of disturbances (`Setup.turns_lt`).
-/
import RenderPlan.Proofs.Optimize.Budget
import RenderPlan.Proofs.Optimize.Passes

namespace RenderPlan

variable {σ : Type} {setup : Setup σ}

/-- The number of registered rules. -/
def Registry.size (r : Registry) : Nat := (Category.all.map fun c => (r.rules c).length).sum

/-- The rule reports nothing but categories. -/
structure Rule.Strict (r : Rule σ) : Prop where
  affects : r.descriptor.affects.isStrict = true
  task : ∀ c : TaskCall σ, c.view.affects.isStrict = true →
    (r.runTask c).call.view.affects.isStrict = true
  list : ∀ c : ListCall σ, c.affects.isStrict = true →
    (r.runList c).call.affects.isStrict = true

/-! ## Disturbances -/

/-- What was unsettled already when the rule was called. -/
def CallTarget.known : CallTarget → Mask
  | list _ => ∅
  | task v => v.affects

/-- The call changed its task or the list, or unsettled another category. -/
def CallRecord.disturbs (r : CallRecord) : Bool :=
  r.changed || !(r.reported \ r.target.known).isEmpty

/-- The number of calls that disturbed the sweep. -/
def Journal.disturbances (j : Journal) : Nat := j.calls.countP CallRecord.disturbs

namespace Journal

theorem disturbances_call (r : CallRecord) (j : Journal) :
    disturbances (.call r :: j) = j.disturbances + if r.disturbs then 1 else 0 := by
  simp [disturbances, calls, Entry.call?, List.countP_append, List.countP_cons]

theorem disturbances_cons {e : Entry} (h : e.call? = none) (j : Journal) :
    disturbances (e :: j) = j.disturbances := by
  simp [disturbances, calls, h]

end Journal

/-- Only calls disturb. -/
theorem Workspace.disturbances_note {e : Entry} (h : e.call? = none) (w : Workspace σ) :
    (w.note e).journal.disturbances = w.journal.disturbances :=
  Journal.disturbances_cons h _

namespace Visit

variable {maxSteps : Nat} {rules : List (Member σ)} {m : Member σ} {v v₀ : TaskView}
  {w w₀ : Workspace σ} {copied : Bool} {stop : Stop}

theorem disturbances_workspaceAfter (m : Member σ) (v : TaskView) (w : Workspace σ) :
    (workspaceAfter m v w).journal.disturbances =
      w.journal.disturbances + if (record m v w).disturbs then 1 else 0 :=
  Journal.disturbances_call _ _

/-- A call that does not disturb leaves the categories that are unsettled as they are. -/
theorem affects_of_not_disturbs (h : (record m v w).disturbs = false) :
    (viewAfter m v w).affects = v.affects := by
  have hreported := (Bool.or_eq_false_iff.mp h).2
  refine Mask.union_eq_left ?_
  simpa [record, CallTarget.known] using hreported

/-- A sub-task whose visit was not disturbed brings in nothing. -/
theorem affects_absorb {w' : Workspace σ} {seen : TaskView}
    (hbefore : w₀.journal.disturbances ≤ w.journal.disturbances ∧
      (w.journal.disturbances = w₀.journal.disturbances → v.affects = v₀.affects))
    (hbelow : w.journal.disturbances ≤ w'.journal.disturbances ∧
      (w'.journal.disturbances = w.journal.disturbances → seen.affects = ∅))
    (heq : w'.journal.disturbances = w₀.journal.disturbances) :
    (absorb v seen).affects = v₀.affects := by
  obtain ⟨hle, hkept⟩ := hbefore
  obtain ⟨hleBelow, hkeptBelow⟩ := hbelow
  have hseen : seen.affects = ∅ := hkeptBelow (by omega)
  show v.affects ∪ seen.affects = v₀.affects
  rw [hseen, Mask.union_empty]
  exact hkept (by omega)

/-- A visit that was not disturbed reports nothing. -/
theorem Course.disturbances (h : Course maxSteps rules w₀ v₀ copied v w) :
    w₀.journal.disturbances ≤ w.journal.disturbances ∧
      (w.journal.disturbances = w₀.journal.disturbances → v.affects = v₀.affects) := by
  induction h with
  | enter => exact ⟨Nat.le_refl _, fun _ => rfl⟩
  | @call w₀ v₀ copied v w m _ _ _ _ ih =>
      rw [disturbances_workspaceAfter]
      refine ⟨Nat.le_trans ih.1 (Nat.le_add_right _ _), ?_⟩
      intro heq
      cases hdisturbs : (record m v w).disturbs with
      | true =>
          rw [hdisturbs, if_pos rfl] at heq
          have hle := ih.1
          omega
      | false =>
          rw [hdisturbs, if_neg Bool.false_ne_true] at heq
          exact (affects_of_not_disturbs hdisturbs).trans (ih.2 heq)
  | @keep w₀ v₀ copied v w task slot child copied' seen w' _ _ _ _ ih ihBelow =>
      have hnote := w'.disturbances_note (e := slotEntry task slot child seen) rfl
      rw [hnote]
      exact ⟨Nat.le_trans ih.1 ihBelow.1, affects_absorb ih ihBelow⟩
  | @splice w₀ v₀ copied v w task slot child copied' seen w' n _ _ _ _ _ _ ih ihBelow =>
      have hnote := w'.disturbances_note (e := slotEntry task slot child seen) rfl
      show _ ≤ (w'.note (slotEntry task slot child seen)).journal.disturbances ∧
        ((w'.note (slotEntry task slot child seen)).journal.disturbances = _ → _)
      rw [hnote]
      exact ⟨Nat.le_trans ih.1 ihBelow.1, affects_absorb ih ihBelow⟩
  | spend _ _ ih => exact ih

theorem Aborted.disturbances_le (h : Aborted maxSteps rules w₀ v₀ stop w) :
    w₀.journal.disturbances ≤ w.journal.disturbances := by
  induction h with
  | limit hcourse | missing hcourse => exact hcourse.disturbances.1
  | @raised _ _ _ v w m _ hcourse =>
      rw [disturbances_workspaceAfter]
      exact Nat.le_trans hcourse.disturbances.1 (Nat.le_add_right _ _)
  | inside hcourse _ _ ih => exact Nat.le_trans hcourse.disturbances.1 ih
  | @unwritten _ _ _ _ w task slot child _ seen w' _ _ hcourse _ hbelow =>
      have hnote := w'.disturbances_note (e := slotEntry task slot child seen) rfl
      show _ ≤ (w'.note (slotEntry task slot child seen)).journal.disturbances
      rw [hnote]
      exact Nat.le_trans hcourse.disturbances.1 hbelow.disturbances.1
  | @exhausted _ _ _ _ w hcourse =>
      show _ ≤ (w.note (.exhausted maxSteps)).journal.disturbances
      rw [Workspace.disturbances_note rfl]
      exact hcourse.disturbances.1

/-- Strict rules leave strict reports. -/
theorem Course.strict (hrules : ∀ m ∈ rules, m.rule.Strict)
    (h : Course maxSteps rules w₀ v₀ copied v w) (hv₀ : v₀.affects.isStrict = true) :
    v.affects.isStrict = true := by
  induction h with
  | enter => exact hv₀
  | @call _ _ _ v w m _ hmember _ _ ih =>
      have hrule := hrules m hmember
      have hanswer := hrule.task ⟨w.user, w.graph, v⟩ (ih hv₀)
      refine Mask.isStrict_union (ih hv₀) ?_
      show (if _ then _ else _ : Mask).isStrict = true
      split
      · exact Mask.isStrict_union hanswer hrule.affects
      · exact hanswer
  | keep _ _ _ _ ih ihBelow => exact Mask.isStrict_union (ih hv₀) (ihBelow Mask.isStrict_empty)
  | splice _ _ _ _ _ _ ih ihBelow =>
      exact Mask.isStrict_union (ih hv₀) (ihBelow Mask.isStrict_empty)
  | spend _ _ ih => exact ih hv₀

end Visit

/-! ## The turns of a sweep -/

namespace Setup

/-- The turns of the passes over the categories from this position on. -/
def turnsFrom (setup : Setup σ) (position : Nat) : Nat :=
  ((Category.all.drop position).map setup.passCost).sum

theorem turnsFrom_of_here (setup : Setup σ) {i : Nat} {c : Category}
    (h : Category.ofIndex? i = some c) : setup.turnsFrom i = setup.passCost c + setup.turnsFrom (i + 1) := by
  obtain ⟨hlt, rfl⟩ := List.getElem?_eq_some_iff.mp h
  rw [turnsFrom, List.drop_eq_getElem_cons hlt, List.map_cons, List.sum_cons, turnsFrom]

theorem turnsFrom_le (i : Nat) : setup.turnsFrom i ≤ setup.turnsFrom 0 :=
  ((List.drop_sublist i Category.all).map setup.passCost).sum_le_sum fun _ _ => Nat.zero_le _

theorem turnsFrom_zero_le : setup.turnsFrom 0 ≤ setup.registry.size + 7 := by
  have hcost : ∀ c, setup.passCost c ≤ (setup.registry.rules c).length + 1 := by
    intro c
    rw [passCost, Category.stepCount]
    split <;> omega
  have hsum : setup.turnsFrom 0 ≤
      (Category.all.map fun c => (setup.registry.rules c).length + 1).sum :=
    List.sum_le_sum fun c _ => hcost c
  rw [List.sum_map_add] at hsum
  exact hsum

/-- The most turns that a disturbance can bring about: two sweeps, each with a turn that goes back to
the first category. -/
def cycle (setup : Setup σ) : Nat := 2 * (setup.registry.size + 8)

theorem cycle_pos (setup : Setup σ) : 0 < setup.cycle := by
  unfold cycle
  omega

theorem cycle_mul_le (setup : Setup σ) {d d' : Nat} (h : d < d') :
    setup.cycle * (d + 1) + setup.cycle ≤ setup.cycle * (d' + 1) := by
  rw [← Nat.mul_succ]
  exact Nat.mul_le_mul_left _ (Nat.succ_le_succ h)

end Setup

namespace Sweep

variable {s : Sweep} {w w' : Workspace σ} {step : Step σ} {c : Category} {a b : Situation σ} {n : Nat}

/-- The present pass has unsettled nothing, and everything behind the sweep is settled. -/
def Clear (s : Sweep) : Prop := s.affected = ∅ ∧ ∀ c ∈ s.pending, s.position ≤ c.index

/-- Without further disturbances the sweep takes at most `n` more turns: those of this sweep if it is
clear, else perhaps those of another one. -/
def EndsIn (setup : Setup σ) (s : Sweep) (n : Nat) : Prop :=
  (s.Clear ∧ setup.turnsFrom s.position ≤ n + s.progress) ∨
    setup.turnsFrom s.position + 1 + setup.turnsFrom 0 ≤ n + s.progress

/-- At the first category everything lies ahead. -/
theorem endsIn_rewind (h : setup.turnsFrom 0 ≤ n) : s.rewind.EndsIn setup n := by
  refine Or.inl ⟨⟨rfl, fun _ _ => Nat.zero_le _⟩, ?_⟩
  exact Nat.le_add_right_of_le h

/-- Two sweeps are always enough. -/
theorem endsIn_of_cycle_le (h : setup.cycle ≤ n + 1) : s.EndsIn setup n := by
  have hposition := setup.turnsFrom_le s.position
  have hzero := setup.turnsFrom_zero_le
  unfold Setup.cycle at h
  refine Or.inr ?_
  omega

/-- A report of nothing changes nothing that matters. -/
theorem EndsIn.report_empty (h : s.EndsIn setup n) : (s.report ∅).EndsIn setup n := by
  rcases h with ⟨hclear, hleft⟩ | hleft
  · have haffected : s.affected ∪ ∅ = ∅ := by rw [hclear.1, Mask.union_self]
    refine Or.inl ⟨⟨haffected, ?_⟩, hleft⟩
    intro c hc
    rw [report, haffected] at hc
    exact hclear.2 c (by simpa using hc)
  · exact Or.inr hleft

/-- A turn at a category that is done, or settled, goes on to the next one. -/
theorem EndsIn.advance (h : s.EndsIn setup n) (hhere : Category.ofIndex? s.position = some c)
    (hcost : s.progress + 1 ≤ setup.passCost c) {p : Mask}
    (hp : s.affected = ∅ → ∀ d ∈ p, d ∈ s.pending ∧ d ≠ c) :
    ({ s.advance with pending := p } : Sweep).EndsIn setup (n - 1) := by
  have hhead := setup.turnsFrom_of_here hhere
  have hprogress : ({ s.advance with pending := p } : Sweep).progress = 0 := progress_of_nextRule rfl
  rcases h with ⟨hclear, hleft⟩ | hleft
  · refine Or.inl ⟨⟨rfl, ?_⟩, ?_⟩
    · intro d hd
      obtain ⟨hpending, hne⟩ := hp hclear.1 d hd
      have hle := hclear.2 d hpending
      have hindex := Category.index_of_ofIndex?_eq_some hhere
      have hother : d.index ≠ c.index := fun heq => hne (Category.index_injective heq)
      show s.position + 1 ≤ d.index
      omega
    · rw [hprogress]
      show setup.turnsFrom (s.position + 1) ≤ _
      omega
  · refine Or.inr ?_
    rw [hprogress]
    show setup.turnsFrom (s.position + 1) + 1 + setup.turnsFrom 0 ≤ _
    omega

/-- A restart is a turn, and only a sweep that is not clear restarts. -/
theorem EndsIn.restart (h : s.EndsIn setup n) (hclear : ¬ s.Clear)
    (hhere : Category.ofIndex? s.position = some c) (hcost : s.progress + 1 ≤ setup.passCost c) :
    setup.turnsFrom 0 ≤ n - 1 := by
  have hhead := setup.turnsFrom_of_here hhere
  rcases h with ⟨hc, _⟩ | hleft
  · exact absurd hc hclear
  · omega

/-- A sweep that stands at a category has a turn left. -/
theorem EndsIn.pos (h : s.EndsIn setup n) (hhere : Category.ofIndex? s.position = some c)
    (hcost : s.progress + 1 ≤ setup.passCost c) : 0 < n := by
  have hhead := setup.turnsFrom_of_here hhere
  rcases h with ⟨_, hleft⟩ | hleft
  · omega
  · omega

/-- A turn behind the last category goes back, and the sweep is clear. -/
theorem EndsIn.rewind (h : s.EndsIn setup n) (hlast : Category.ofIndex? s.position = none)
    (hstrict : s.pending.isStrict = true) (hpending : s.pending.isEmpty = false) :
    setup.turnsFrom 0 + 1 ≤ n := by
  have hprogress : s.progress = 0 := by rw [progress, hlast]
  rcases h with ⟨hclear, _⟩ | hleft
  · obtain ⟨c, hc⟩ := Mask.exists_mem_of_isStrict hstrict hpending
    have hle := hclear.2 c hc
    have hlt := c.index_lt_count
    have hcount : Category.count ≤ s.position := List.getElem?_eq_none_iff.mp hlast
    omega
  · omega

/-- A clear sweep has a clean gate. -/
theorem Dirty.not_clear (h : s.Dirty step) (hhere : Category.ofIndex? s.position = some step.category)
    (hstrict : s.pending.isStrict = true) : ¬ s.Clear := by
  intro hclear
  obtain ⟨d, hd, hgate⟩ := Mask.exists_mem_of_intersects hstrict h
  obtain ⟨_, _, hlt, _⟩ := Step.mem_gate.mp hgate
  have hle := hclear.2 d hd
  have hindex := Category.index_of_ofIndex?_eq_some hhere
  have hbefore : d.index < step.category.index := hlt
  omega

/-- Behind a step one turn is gone. -/
theorem EndsIn.behind (h : s.EndsIn setup n) (hstep : s.Stepping setup step) :
    (s.behind step).EndsIn setup (n - 1) := by
  have hprogress := hstep.progress_behind
  rcases h with ⟨hclear, hleft⟩ | hleft
  · refine Or.inl ⟨⟨hclear.1, hclear.2⟩, ?_⟩
    show setup.turnsFrom s.position ≤ _
    omega
  · refine Or.inr ?_
    show setup.turnsFrom s.position + 1 + setup.turnsFrom 0 ≤ _
    omega

end Sweep

/-- What a sweep keeps while it runs: only categories are pending, and the next rule is in its
category or right behind it. -/
structure Situation.Regular (setup : Setup σ) (a : Situation σ) : Prop where
  pending : a.sweep.pending.isStrict = true
  affected : a.sweep.affected.isStrict = true
  bound : ∀ c, Category.ofIndex? a.sweep.position = some c →
    a.sweep.nextRule ≤ (Sweep.members setup c).length

/-- The present pass has a turn left. -/
theorem Situation.Regular.cost {a : Situation σ} {c : Category} (h : a.Regular setup)
    (hhere : Category.ofIndex? a.sweep.position = some c) :
    a.sweep.progress + 1 ≤ setup.passCost c :=
  Sweep.progress_lt_passCost hhere (h.bound c hhere)

namespace Sweep

variable {s : Sweep} {w w' : Workspace σ} {step : Step σ} {c : Category} {a b : Situation σ} {n : Nat}

/-- What a strict rule does to the list it reports with categories alone. -/
theorem isStrict_record {m : Member σ} (hrule : m.rule.Strict) (gate : Mask) (s : Sweep)
    (w : Workspace σ) : (record gate m s w).reported.isStrict = true := by
  have hanswer := hrule.list ⟨w.user, w.graph, s.list, gate, ∅⟩ Mask.isStrict_empty
  show (if _ then _ else _ : Mask).isStrict = true
  split
  · exact Mask.isStrict_union hanswer hrule.affects
  · exact hanswer

theorem isStrict_of_entryOutcome {before after : List (Option TaskId)} {task : TaskId}
    {seen : TaskView} (hrules : ∀ m ∈ step.members, m.rule.Strict)
    (h : entryOutcome setup step before after task w = (.ok seen, w')) :
    seen.affects.isStrict = true := by
  obtain ⟨copied, hcourse⟩ := (Visit.ensures_visit _ _ _ _ _ _).of_outcome h
  exact hcourse.strict hrules Mask.isStrict_empty

theorem isStrict_report {m : Mask} (hpending : s.pending.isStrict = true)
    (haffected : s.affected.isStrict = true) (hm : m.isStrict = true) :
    (s.report m).pending.isStrict = true ∧ (s.report m).affected.isStrict = true := by
  have hboth := Mask.isStrict_union haffected hm
  exact ⟨Mask.isStrict_union hpending hboth, hboth⟩

theorem Move.regular (hrules : ∀ c, ∀ id ∈ setup.registry.rules c, (setup.rules id).Strict)
    (hstands : a.Stands setup) (ha : a.Regular setup) (h : Move setup a b)
    (hb : b.phase ≠ .stopped) : b.Regular setup := by
  cases h with
  | spend | begin | beginLogged | skip | descend | hole => exact ⟨ha.pending, ha.affected, ha.bound⟩
  | rewind | restart | cutList | cut | advance =>
      exact ⟨ha.pending, Mask.isStrict_empty, fun _ _ => Nat.zero_le _⟩
  | settle =>
      refine ⟨?_, Mask.isStrict_empty, fun _ _ => Nat.zero_le _⟩
      exact Mask.isStrict_union (Mask.isStrict_sdiff ha.pending) ha.affected
  | @call s w step m =>
      have hrule := hstands.1.forall_members hrules m (hstands.2 (List.mem_cons_self ..))
      have hreport := isStrict_report ha.pending ha.affected (isStrict_record hrule step.gate s w)
      exact ⟨hreport.1, hreport.2, ha.bound⟩
  | finishList | finish =>
      refine ⟨ha.pending, ha.affected, ?_⟩
      intro c hhere
      obtain rfl := Option.some.inj (hstands.1.here.symm.trans hhere)
      exact hstands.1.behind_le
  | visit _ houtcome | revisit _ houtcome =>
      have hseen := isStrict_of_entryOutcome (hstands.1.forall_members hrules) houtcome
      have hreport := isStrict_report ha.pending ha.affected hseen
      exact ⟨hreport.1, hreport.2, ha.bound⟩
  | exhausted | unlogged | raise | unrepeated | abort => exact absurd rfl hb

/-! ## Turns and disturbances -/

/-- Within a turn the turns taken and those that are left are within the bound, or a disturbance in
this turn has made room for a whole cycle. -/
def Lasts (setup : Setup σ) (s : Sweep) (disturbances : Nat) : Prop :=
  (∃ n, s.EndsIn setup n ∧ s.turns + n ≤ setup.cycle * (disturbances + 1)) ∨
    s.turns + setup.cycle ≤ setup.cycle * (disturbances + 1)

variable {d d' : Nat}

theorem Lasts.turns_le (h : s.Lasts setup d) : s.turns ≤ setup.cycle * (d + 1) := by
  rcases h with ⟨n, _, hle⟩ | hle
  · omega
  · omega

/-- A disturbance makes room for a cycle, and without one nothing is reported. -/
theorem Lasts.report (h : s.Lasts setup d) {m : Mask} (hle : d ≤ d') (hquiet : d' = d → m = ∅) :
    (s.report m).Lasts setup d' := by
  rcases Nat.eq_or_lt_of_le hle with rfl | hlt
  · rw [hquiet rfl]
    rcases h with ⟨n, hends, hbound⟩ | hbound
    · exact Or.inl ⟨n, hends.report_empty, hbound⟩
    · exact Or.inr hbound
  · have hturns := h.turns_le
    have hroom := setup.cycle_mul_le hlt
    refine Or.inr ?_
    show s.turns + setup.cycle ≤ _
    omega

/-- At the end of a turn there is a sweep with fewer turns left. -/
theorem Lasts.next {t : Sweep} (h : s.Lasts setup d) (hturns : t.turns = s.turns)
    (hends : ∀ n, s.EndsIn setup n → 0 < n ∧ t.EndsIn setup (n - 1)) :
    ∃ n, t.EndsIn setup n ∧ t.turns + n < setup.cycle * (d + 1) := by
  rcases h with ⟨n, hn, hbound⟩ | hbound
  · obtain ⟨hpos, hnext⟩ := hends n hn
    exact ⟨n - 1, hnext, by omega⟩
  · have hcycle := setup.cycle_pos
    exact ⟨setup.cycle - 1, endsIn_of_cycle_le (by omega), by omega⟩

end Sweep

/-- The turns taken, and those that are left without further disturbances, are fewer than the cycles
that the disturbances so far account for. -/
def Situation.Paced (setup : Setup σ) (a : Situation σ) : Prop :=
  let d := a.work.journal.disturbances
  match a.phase with
  | .between => ∃ n, a.sweep.EndsIn setup n ∧ a.sweep.turns + n < setup.cycle * (d + 1)
  | .turning => a.sweep.pending.isEmpty = false ∧ a.sweep.Lasts setup d
  | .listing _ _ | .visiting _ _ _ => a.sweep.Lasts setup d
  | .stopped => a.sweep.turns < setup.cycle * (d + 1)

namespace Sweep

variable {s : Sweep} {w w' : Workspace σ} {step : Step σ} {c : Category} {a b : Situation σ} {n : Nat}

/-- A sweep that stands at a category has a turn left. -/
theorem Lasts.turns_lt_cycle_mul {d d' : Nat} (h : s.Lasts setup d)
    (hhere : Category.ofIndex? s.position = some c) (hcost : s.progress + 1 ≤ setup.passCost c)
    (hle : d ≤ d') : s.turns < setup.cycle * (d' + 1) := by
  have hmost : setup.cycle * (d + 1) ≤ setup.cycle * (d' + 1) :=
    Nat.mul_le_mul_left _ (Nat.succ_le_succ hle)
  rcases h with ⟨n, hn, hbound⟩ | hbound
  · have hpos := hn.pos hhere hcost
    omega
  · have hcycle := setup.cycle_pos
    omega

theorem disturbances_workspaceAfter (gate : Mask) (m : Member σ) (s : Sweep) (w : Workspace σ) :
    (workspaceAfter gate m s w).journal.disturbances =
      w.journal.disturbances + if (record gate m s w).disturbs then 1 else 0 :=
  Journal.disturbances_call _ _

/-- A call for the list that does not disturb reports nothing. -/
theorem reported_of_not_disturbs {gate : Mask} {m : Member σ}
    (h : (record gate m s w).disturbs = false) : (record gate m s w).reported = ∅ := by
  have hreported := (Bool.or_eq_false_iff.mp h).2
  rw [Bool.not_eq_false'] at hreported
  have hunion : ∅ ∪ (record gate m s w).reported = ∅ := Mask.union_eq_left hreported
  rwa [Mask.empty_union] at hunion

theorem disturbances_of_entryOutcome {before after : List (Option TaskId)} {task : TaskId}
    {seen : TaskView} (h : entryOutcome setup step before after task w = (.ok seen, w')) :
    w.journal.disturbances ≤ w'.journal.disturbances ∧
      (w'.journal.disturbances = w.journal.disturbances → seen.affects = ∅) := by
  obtain ⟨copied, hcourse⟩ := (Visit.ensures_visit _ _ _ _ _ _).of_outcome h
  exact hcourse.disturbances

/-- Only calls disturb. -/
theorem Lasts.note {e : Entry} (h : s.Lasts setup w.journal.disturbances) (he : e.call? = none) :
    s.Lasts setup (w.note e).journal.disturbances := by
  rw [Workspace.disturbances_note he]
  exact h

theorem Lasts.begun (h : s.Lasts setup w.journal.disturbances) :
    s.Lasts setup (s.stepBegun step w).journal.disturbances :=
  h.note rfl

theorem Lasts.call (h : s.Lasts setup w.journal.disturbances) (gate : Mask) (m : Member σ) :
    ((withList gate m s w).report (record gate m s w).reported).Lasts setup
      (workspaceAfter gate m s w).journal.disturbances := by
  have hcount := disturbances_workspaceAfter gate m s w
  refine Lasts.report (s := withList gate m s w) h ?_ ?_
  · rw [hcount]
    exact Nat.le_add_right _ _
  · intro heq
    cases hdisturbs : (record gate m s w).disturbs with
    | false => exact reported_of_not_disturbs hdisturbs
    | true =>
        rw [hdisturbs, if_pos rfl] at hcount
        exact absurd (hcount.symm.trans heq) (Nat.succ_ne_self _)

theorem Lasts.visit {before after : List (Option TaskId)} {task : TaskId} {seen : TaskView}
    (h : s.Lasts setup w.journal.disturbances)
    (houtcome : entryOutcome setup step before after task w = (.ok seen, w')) :
    (s.report seen.affects).Lasts setup
      (w'.note (listEntry before.length task seen)).journal.disturbances := by
  obtain ⟨hle, hquiet⟩ := disturbances_of_entryOutcome houtcome
  exact Lasts.note (h.report hle hquiet) rfl

/-- A turn that ends where nothing new disturbs. -/
theorem paced_between {t : Sweep} (h : s.Lasts setup w.journal.disturbances)
    (hsame : w'.journal.disturbances = w.journal.disturbances) (hturns : t.turns = s.turns)
    (hends : ∀ n, s.EndsIn setup n → 0 < n ∧ t.EndsIn setup (n - 1)) :
    Situation.Paced setup ⟨.between, t, w'⟩ := by
  show ∃ n, t.EndsIn setup n ∧ t.turns + n < setup.cycle * (w'.journal.disturbances + 1)
  rw [hsame]
  exact h.next hturns hends

/-- The sweep goes back because something is unsettled, so it was not clear. -/
theorem paced_restart (h : s.Lasts setup w.journal.disturbances)
    (hhere : Category.ofIndex? s.position = some c) (hcost : s.progress + 1 ≤ setup.passCost c)
    (hclear : ¬ s.Clear) (cause : RestartCause) :
    Situation.Paced setup ⟨.between, s.restart, w.note (.restart cause)⟩ := by
  have hends : ∀ n, s.EndsIn setup n → 0 < n ∧ s.rewind.EndsIn setup (n - 1) := fun n hn =>
    ⟨hn.pos hhere hcost, endsIn_rewind (hn.restart hclear hhere hcost)⟩
  have hback : Situation.Paced setup ⟨.between, s.rewind, w.note (.restart cause)⟩ :=
    paced_between h (Workspace.disturbances_note rfl w) rfl hends
  exact hback

/-- A move takes at most the turns that are left, and only a disturbance gives new ones. -/
theorem Move.paced (hstands : a.Stands setup) (hregular : a.Regular setup) (ha : a.Paced setup)
    (h : Move setup a b) : b.Paced setup := by
  cases h with
  | @spend s w hpending hleft =>
      obtain ⟨n, hends, hlt⟩ := ha
      refine ⟨hpending, Or.inl ⟨n, hends, ?_⟩⟩
      show s.turns + 1 + n ≤ _
      exact Nat.succ_add _ _ ▸ hlt
  | @exhausted s w hpending =>
      obtain ⟨n, _, hlt⟩ := ha
      show s.turns < setup.cycle * (({ w with steps := w.steps + 1 } : Workspace σ).note
        (.exhausted setup.maxSteps)).journal.disturbances.succ
      rw [Workspace.disturbances_note rfl]
      exact Nat.lt_of_le_of_lt (Nat.le_add_right _ _) hlt
  | rewind hlast =>
      obtain ⟨hpending, hlasts⟩ := ha
      refine paced_between hlasts rfl rfl fun n hn => ?_
      have hturn := hn.rewind hlast hregular.pending hpending
      exact ⟨by omega, endsIn_rewind (by omega)⟩
  | @advance s w c hhere hsettled =>
      have hcost := hregular.cost hhere
      refine paced_between ha.2 rfl rfl fun n hn => ?_
      refine ⟨hn.pos hhere hcost, hn.advance hhere hcost (p := s.pending) ?_⟩
      intro _ d hd
      exact ⟨hd, fun heq => hsettled (heq ▸ hd)⟩
  | settle hhere =>
      have hcost := hregular.cost hhere
      refine paced_between ha.2 (Workspace.disturbances_note rfl _) rfl fun n hn => ?_
      refine ⟨hn.pos hhere hcost, hn.advance hhere hcost ?_⟩
      intro haffected d hd
      rw [haffected] at hd
      simpa using hd
  | restart hhere _ _ _ hdirty =>
      have hclear := fun hclear : Clear _ => Mask.not_intersects_empty (hclear.1 ▸ hdirty)
      exact paced_restart ha.2 hhere (hregular.cost hhere) hclear _
  | begin => exact ha.2.begun
  | beginLogged => exact Lasts.note ha.2.begun rfl
  | unlogged hhere =>
      apply ha.2.turns_lt_cycle_mul hhere (hregular.cost hhere)
      exact Nat.le_of_eq (Workspace.disturbances_note rfl _).symm
  | @call _ _ step m =>
      have hcalled := Lasts.call ha step.gate m
      exact hcalled
  | raise =>
      have hhere := hstands.1.here
      refine Lasts.turns_lt_cycle_mul ha hhere (hregular.cost hhere) ?_
      rw [disturbances_workspaceAfter]
      exact Nat.le_add_right _ _
  | skip | descend | hole => exact ha
  | finishList | finish =>
      have hcost := hregular.cost hstands.1.here
      exact paced_between ha rfl rfl fun n hn => ⟨hn.pos hstands.1.here hcost, hn.behind hstands.1⟩
  | cutList hdirty | cut hdirty =>
      have hhere := hstands.1.here
      have hclear := hdirty.not_clear hhere hregular.pending
      have hback := paced_restart ha hhere (hregular.cost hhere) hclear
      exact hback _
  | visit _ houtcome | revisit _ houtcome =>
      have hvisited := Lasts.visit ha houtcome
      exact hvisited
  | @unrepeated s _ _ _ _ _ _ _ _ _ houtcome =>
      have hhere := hstands.1.here
      refine Lasts.turns_lt_cycle_mul (s := s) ha hhere (hregular.cost hhere) ?_
      refine Nat.le_trans (disturbances_of_entryOutcome houtcome).1 (Nat.le_of_eq ?_)
      exact ((Workspace.disturbances_note rfl _).trans (Workspace.disturbances_note rfl _)).symm
  | abort _ houtcome =>
      have hhere := hstands.1.here
      have haborted : Visit.Aborted setup.maxSteps _ _ _ _ _ :=
        (Visit.ensures_visit _ _ _ _ _ _).of_outcome houtcome
      exact Lasts.turns_lt_cycle_mul ha hhere (hregular.cost hhere) haborted.disturbances_le

end Sweep

open Sweep

/-- **Only rules keep a sweep from settling.** If all rules report categories only, an optimization
takes fewer turns than two for each registered rule and sixteen, once and for each call that
disturbed it; and this however it ends. -/
theorem Setup.turns_lt (setup : Setup σ)
    (hrules : ∀ c, ∀ id ∈ setup.registry.rules c, (setup.rules id).Strict)
    (user : σ) (graph : Graph) (list : List (Option TaskId)) :
    (setup.optimize user graph list).turns < 2 * (setup.registry.size + 8) *
      ((setup.optimize user graph list).journal.disturbances + 1) := by
  have hstart : (start user graph list).Paced setup := by
    refine ⟨setup.turnsFrom 0, ?_, ?_⟩
    · exact Or.inl ⟨⟨rfl, fun _ _ => Nat.zero_le _⟩, Nat.le_add_right _ _⟩
    · have hzero := setup.turnsFrom_zero_le
      show 0 + setup.turnsFrom 0 < setup.cycle * (0 + 1)
      unfold Setup.cycle
      omega
  have hregular : (start user graph list).Regular setup :=
    ⟨Mask.isStrict_full, Mask.isStrict_empty, fun _ _ => Nat.zero_le _⟩
  have hmove : ∀ a b, a.Stands setup → (a.phase ≠ .stopped → a.Regular setup) ∧ a.Paced setup →
      Move setup a b → (b.phase ≠ .stopped → b.Regular setup) ∧ b.Paced setup := by
    intro a b hstands ha hmoves
    have hregular := ha.1 hmoves.phase_ne_stopped
    exact ⟨hmoves.regular hrules hstands hregular, hmoves.paced hstands hregular ha.2⟩
  rcases setup.optimize_invariant user graph list ⟨fun _ => hregular, hstart⟩ hmove with
    ⟨s, w, ⟨_, hpaced⟩, _, heq⟩ | ⟨s, w, stop, ⟨_, hpaced⟩, _, heq⟩
  · rw [heq]
    obtain ⟨n, _, hlt⟩ := hpaced
    exact Nat.lt_of_le_of_lt (Nat.le_add_right _ _) hlt
  · rw [heq]
    exact hpaced

/-! ### One alarm

The rule that raises an alarm once brings about a second sweep. Two rules are registered, so there is
room for twenty turns before the alarm and for twenty behind it. -/

theorem Rule.strict_alarming : Rule.alarming.Strict where
  affects := by decide
  task c hc := by
    dsimp only [Rule.alarming]
    split
    · exact Mask.isStrict_union hc (by decide)
    · exact hc
  list _ hc := hc

theorem Setup.turns_lt_alarming :
    let o := alarmingSetup.optimize false alarmingGraph [some ⟨2⟩]
    o.journal.disturbances = 1 ∧ o.turns = 12 ∧ o.turns < 2 * (2 + 8) * (1 + 1) := by
  intro o
  have hdisturbances : o.journal.disturbances = 1 := by decide +kernel
  have hrules : ∀ c, ∀ id ∈ alarmingSetup.registry.rules c, (alarmingSetup.rules id).Strict := by
    intro c id _
    show (if id = ⟨1⟩ then _ else _ : Rule Bool).Strict
    split
    · exact Rule.strict_alarming
    · exact ⟨by decide, fun _ hc => hc, fun _ hc => hc⟩
  have hturns := alarmingSetup.turns_lt hrules false alarmingGraph [some ⟨2⟩]
  rw [hdisturbances, show alarmingSetup.registry.size = 2 by decide] at hturns
  exact ⟨hdisturbances, by decide +kernel, hturns⟩

end RenderPlan
