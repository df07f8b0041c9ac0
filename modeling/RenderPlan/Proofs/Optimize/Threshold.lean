/-
# RenderPlan.Proofs.Optimize.Threshold -- the step budget is a threshold

The budget decides when an optimization is broken off, and nothing else. Take a part of an
optimization that comes to a value under one budget, and run it under another one. If the steps that
were spent are within the other budget, the same happens. If they are not, the part goes the same way
as far as the other budget reaches, and runs out of it there (`Work.Capped`). This composes, so it
holds of visits at any depth (`Visit.capped_visit`), of moves, and of whole optimizations
(`Setup.optimize_withBudget`).

Neither budget has to be the larger one.
-/
import RenderPlan.Proofs.Optimize.Comparison
import RenderPlan.Proofs.Optimize.Limit
import RenderPlan.Proofs.Optimize.Splicing

namespace RenderPlan

variable {σ : Type}

/-- The budget was used up, after some of these events and before any other one. -/
def Journal.RunsOut (budget : Nat) (j cut : Journal) : Prop :=
  ∃ before, cut = .exhausted budget :: before ∧ before <:+ j

theorem Journal.RunsOut.mono {budget : Nat} {j j' cut : Journal} (h : j.RunsOut budget cut)
    (hj : j <:+ j') : j'.RunsOut budget cut := by
  obtain ⟨before, hcut, hbefore⟩ := h
  exact ⟨before, hcut, hbefore.trans hj⟩

/-- The calls up to there are the first ones. -/
theorem Journal.RunsOut.calls {budget : Nat} {j cut : Journal} (h : j.RunsOut budget cut) :
    cut.calls <+: j.calls := by
  obtain ⟨before, rfl, hbefore⟩ := h
  have hcut : Journal.calls (.exhausted budget :: before) = Journal.calls before :=
    Journal.calls_cons.trans (List.append_nil _)
  rw [hcut]
  exact (List.reverse_prefix.mpr hbefore).filterMap _

/-! ## Parts of an optimization -/

namespace Work

variable {α α' β β' : Type} {V : α → α' → Prop} {budget : Nat}

/-- The second part is the first one under another budget. Where the first part comes to a value,
the second one comes to a related value, and to the same workspace, if the steps are within the
budget. Else it runs out of the budget on the way. -/
structure Capped (budget : Nat) (V : α → α' → Prop) (m : Work σ α) (m' : Work σ α') : Prop where
  grows : ∀ w a w', m.outcome w = (.ok a, w') → w.steps ≤ w'.steps ∧ w.journal <:+ w'.journal
  within : ∀ w a w', m.outcome w = (.ok a, w') →
    ∃ a', V a a' ∧ (w'.steps ≤ budget → m'.outcome w = (.ok a', w'))
  beyond : ∀ w a w', m.outcome w = (.ok a, w') → w.steps ≤ budget → budget < w'.steps →
    ∃ cut, m'.outcome w = (.error .exhausted, cut) ∧ w'.journal.RunsOut budget cut.journal

theorem capped_throw (stop : Stop) (m : Work σ α') : Capped budget V (throw stop) m where
  grows _ _ _ := nofun
  within _ _ _ := nofun
  beyond _ _ _ := nofun

/-- A part that spends nothing does not look at the budget. -/
theorem capped_of_idle {m : Work σ α}
    (h : ∀ w a w', m.outcome w = (.ok a, w') → w'.steps = w.steps ∧ w.journal <:+ w'.journal) :
    Capped budget Eq m m where
  grows w a w' houtcome := ⟨Nat.le_of_eq (h w a w' houtcome).1.symm, (h w a w' houtcome).2⟩
  within _ a _ houtcome := ⟨a, rfl, fun _ => houtcome⟩
  beyond w a w' houtcome hwithin hbeyond := by
    have hsteps := (h w a w' houtcome).1
    omega

theorem capped_pure {a : α} {a' : α'} (h : V a a') :
    Capped (σ := σ) budget V (pure a) (pure a') where
  grows := by
    rintro w _ _ ⟨⟩
    exact ⟨Nat.le_refl _, List.suffix_rfl⟩
  within := by
    rintro w _ _ ⟨⟩
    exact ⟨a', h, fun _ => rfl⟩
  beyond := by
    rintro w _ _ ⟨⟩ hwithin hbeyond
    exact absurd hwithin (Nat.not_le_of_lt hbeyond)

theorem capped_note (e : Entry) :
    Capped budget Eq (modify (Workspace.note e) : Work σ PUnit) (modify (Workspace.note e)) := by
  apply capped_of_idle
  rintro w _ _ ⟨⟩
  exact ⟨rfl, List.suffix_cons e w.journal⟩

theorem capped_fetch (id : TaskId) : Capped budget Eq (fetch id : Work σ Node) (fetch id) := by
  apply capped_of_idle
  intro w n w' houtcome
  rw [outcome_fetch] at houtcome
  split at houtcome <;> cases houtcome
  exact ⟨rfl, List.suffix_rfl⟩

theorem capped_copy (id : TaskId) : Capped budget Eq (copy id : Work σ TaskId) (copy id) := by
  apply capped_of_idle
  intro w copied w' houtcome
  rw [outcome_copy] at houtcome
  split at houtcome <;> cases houtcome
  exact ⟨rfl, List.suffix_rfl⟩

theorem capped_setSlot (id : TaskId) (slot : Nat) (sub : Option TaskId) :
    Capped budget Eq (setSlot id slot sub : Work σ Unit) (setSlot id slot sub) := by
  apply capped_of_idle
  intro w a w' houtcome
  rw [outcome_setSlot] at houtcome
  split at houtcome
  · split at houtcome <;> cases houtcome
    exact ⟨rfl, List.suffix_rfl⟩
  · cases houtcome

/-- This is where the budgets differ. -/
theorem capped_spend (maxSteps budget : Nat) :
    Capped budget Eq (spend maxSteps : Work σ Unit) (spend budget) := by
  have hok : ∀ (w : Workspace σ) a w', (spend maxSteps).outcome w = (.ok a, w') →
      w' = { w with steps := w.steps + 1 } := by
    intro w a w' houtcome
    have hspent := (ensures_spend maxSteps w).of_outcome houtcome
    exact hspent.2
  constructor
  · intro w a w' houtcome
    obtain rfl := hok w a w' houtcome
    exact ⟨Nat.le_succ _, List.suffix_rfl⟩
  · intro w a w' houtcome
    obtain rfl := hok w a w' houtcome
    refine ⟨a, rfl, fun hwithin => ?_⟩
    rw [outcome_spend, if_neg (Nat.not_lt.mpr hwithin)]
  · intro w a w' houtcome _ hbeyond
    obtain rfl := hok w a w' houtcome
    rw [outcome_spend, if_pos hbeyond]
    exact ⟨_, rfl, w.journal, rfl, List.suffix_rfl⟩

theorem Capped.bind {U : β → β' → Prop} {m : Work σ α} {m' : Work σ α'} {f : α → Work σ β}
    {f' : α' → Work σ β'} (hm : Capped budget V m m')
    (hf : ∀ a a', V a a' → Capped budget U (f a) (f' a')) :
    Capped budget U (m >>= f) (m' >>= f') := by
  constructor
  · intro w b w'' h
    obtain ⟨a, w', hfirst, hrest⟩ := exists_of_outcome_bind h
    obtain ⟨a', hrelated, _⟩ := hm.within w a w' hfirst
    have hbefore := hm.grows w a w' hfirst
    have hafter := (hf a a' hrelated).grows w' b w'' hrest
    exact ⟨Nat.le_trans hbefore.1 hafter.1, hbefore.2.trans hafter.2⟩
  · intro w b w'' h
    obtain ⟨a, w', hfirst, hrest⟩ := exists_of_outcome_bind h
    obtain ⟨a', hrelated, hsame⟩ := hm.within w a w' hfirst
    obtain ⟨b', hlast, hsame'⟩ := (hf a a' hrelated).within w' b w'' hrest
    have hafter := (hf a a' hrelated).grows w' b w'' hrest
    refine ⟨b', hlast, fun hwithin => ?_⟩
    rw [outcome_bind, hsame (Nat.le_trans hafter.1 hwithin)]
    exact hsame' hwithin
  · intro w b w'' h hstart hbeyond
    obtain ⟨a, w', hfirst, hrest⟩ := exists_of_outcome_bind h
    obtain ⟨a', hrelated, hsame⟩ := hm.within w a w' hfirst
    rw [outcome_bind]
    by_cases hmid : w'.steps ≤ budget
    · rw [hsame hmid]
      exact (hf a a' hrelated).beyond w' b w'' hrest hmid hbeyond
    · obtain ⟨cut, hcut, hout⟩ := hm.beyond w a w' hfirst hstart (Nat.lt_of_not_le hmid)
      rw [hcut]
      exact ⟨cut, rfl, hout.mono ((hf a a' hrelated).grows w' b w'' hrest).2⟩

end Work

/-! ## Visits -/

namespace Visit

open Work

theorem capped_callRule (budget : Nat) (m : Member σ) (v : TaskView) :
    Capped budget Eq (callRule m v) (callRule m v) := by
  apply capped_of_idle
  intro w v' w' houtcome
  rw [outcome_callRule] at houtcome
  split at houtcome <;> cases houtcome
  exact ⟨rfl, List.suffix_cons _ w.journal⟩

/-- Visits under two budgets. The views are the same. -/
def underBudget (budget : Nat) : Comparison σ where
  Alike := Capped budget
  View := Eq
  alike_pure := capped_pure
  alike_bind := Capped.bind
  alike_limit _ := capped_throw _ _
  alike_fetch := capped_fetch
  alike_copy := capped_copy
  alike_setSlot := capped_setSlot
  alike_note _ := capped_note _
  task_eq h := h ▸ rfl
  parent_eq h := h ▸ rfl
  mode_eq h := h ▸ rfl
  intersects_eq h := h ▸ rfl
  view_ofChild h _ := h ▸ rfl
  view_withTask h _ := h ▸ rfl
  view_absorb h hseen := h ▸ hseen ▸ rfl

theorem underBudget_acts (budget : Nat) (m : Member σ) : (underBudget budget).Acts m m where
  deepFirst := rfl
  applies := rfl
  call := by
    rintro v _ rfl
    exact capped_callRule budget m v

/-- **The budget is a threshold of visits.** -/
theorem capped_visit (maxSteps budget : Nat) (rules : List (Member σ)) (deep : Bool) (limit : Nat)
    (v : TaskView) :
    Capped budget Eq (visit maxSteps rules deep limit v) (visit budget rules deep limit v) :=
  Comparison.alike_visit (C := underBudget budget) (capped_spend maxSteps budget)
    (List.forall₂_same.mpr fun m _ => underBudget_acts budget m) deep limit rfl

end Visit

/-! ## Optimizations -/

/-- The setup with another budget. -/
def Setup.withBudget (setup : Setup σ) (budget : Nat) : Setup σ := { setup with maxSteps := budget }

/-- The optimization ran out of the budget after some of these events. -/
structure Situation.RunsOut (budget : Nat) (j : Journal) (a : Situation σ) : Prop where
  phase : a.phase = .stopped
  stopped : a.sweep.stopped = some .exhausted
  journal : j.RunsOut budget a.work.journal

theorem Situation.RunsOut.mono {budget : Nat} {j j' : Journal} {a : Situation σ}
    (h : a.RunsOut budget j) (hj : j <:+ j') : a.RunsOut budget j' :=
  ⟨h.phase, h.stopped, h.journal.mono hj⟩

namespace Sweep

variable {setup : Setup σ} {a b : Situation σ} {budget : Nat} {step : Step σ}
  {before after : List (Option TaskId)} {task : TaskId} {w : Workspace σ}

/-- The visit of an entry, under another budget. -/
theorem capped_entry (setup : Setup σ) (budget : Nat) (step : Step σ)
    (before after : List (Option TaskId)) (task : TaskId) :
    Work.Capped budget Eq
      (Visit.visit setup.maxSteps step.members step.forTask setup.visitLimit
        (.ofEntry (before.reverse ++ some task :: after) step.gate task))
      (Visit.visit budget step.members step.forTask setup.visitLimit
        (.ofEntry (before.reverse ++ some task :: after) step.gate task)) :=
  Visit.capped_visit ..

/-- On the way to another situation, events are only added. -/
theorem Move.journal_suffix (h : Move setup a b) (hb : b.phase ≠ .stopped) :
    a.work.journal <:+ b.work.journal := by
  cases h with
  | settle | restart | begin | call | cutList | cut => exact List.suffix_cons _ _
  | beginLogged => exact (List.suffix_cons _ _).trans (List.suffix_cons _ _)
  | visit _ houtcome | revisit _ houtcome =>
      have hvisit := ((capped_entry setup 0 _ _ _ _).grows _ _ _ houtcome).2
      exact hvisit.trans (List.suffix_cons _ _)
  | exhausted | unlogged | raise | unrepeated | abort => exact absurd rfl hb
  | spend | rewind | advance | skip | descend | finishList | hole | finish => exact List.suffix_rfl

/-- A move is one under another budget as well, if the steps are within it. Else the optimization
runs out of it. -/
theorem Move.withBudget (h : Move setup a b) (hb : b.phase ≠ .stopped)
    (ha : a.work.steps ≤ budget) :
    (b.work.steps ≤ budget → Move (setup.withBudget budget) a b) ∧
      (budget < b.work.steps →
        ∃ c, Move (setup.withBudget budget) a c ∧ c.RunsOut budget b.work.journal) := by
  cases h with
  | spend hpending _ =>
      refine ⟨fun hwithin => .spend hpending hwithin, fun hbeyond => ?_⟩
      exact ⟨_, .exhausted hpending hbeyond, rfl, rfl, ⟨_, rfl, List.suffix_rfl⟩⟩
  | @visit s w step before after task seen w' hclean houtcome hdone =>
      have hcapped := capped_entry setup budget step before after task
      obtain ⟨_, rfl, hsame⟩ := hcapped.within w seen w' houtcome
      refine ⟨fun hwithin => .visit hclean (hsame hwithin) hdone, fun hbeyond => ?_⟩
      obtain ⟨cut, hcut, hout⟩ := hcapped.beyond w seen w' houtcome ha hbeyond
      exact ⟨_, .abort hclean hcut, rfl, rfl, hout.mono (List.suffix_cons _ _)⟩
  | @revisit s w step before after task seen new w' hclean houtcome hrepeats hnew _ =>
      have hcapped := capped_entry setup budget step before after task
      obtain ⟨_, rfl, hsame⟩ := hcapped.within w seen w' houtcome
      constructor
      · intro hwithin
        exact .revisit hclean (hsame (Nat.le_of_succ_le hwithin)) hrepeats hnew hwithin
      · intro hbeyond
        by_cases hvisit : w'.steps ≤ budget
        · refine ⟨_, .unrepeated hclean (hsame hvisit) hrepeats hnew hbeyond, rfl, rfl, ?_⟩
          exact ⟨_, rfl, List.suffix_rfl⟩
        · obtain ⟨cut, hcut, hout⟩ :=
            hcapped.beyond w seen w' houtcome ha (Nat.lt_of_not_le hvisit)
          exact ⟨_, .abort hclean hcut, rfl, rfl, hout.mono (List.suffix_cons _ _)⟩
  | exhausted | unlogged | raise | unrepeated | abort => exact absurd rfl hb
  | _ =>
      -- no other move looks at the budget
      refine ⟨fun _ => ?_, fun hbeyond => absurd ha (Nat.not_le_of_lt hbeyond)⟩
      constructor <;> assumption

/-- The same of paths. -/
theorem Path.withBudget (h : Path setup a b) (hb : b.phase ≠ .stopped)
    (ha : a.work.steps ≤ budget) :
    (b.work.steps ≤ budget → Path (setup.withBudget budget) a b) ∧
      (budget < b.work.steps →
        ∃ c, Path (setup.withBudget budget) a c ∧ c.RunsOut budget b.work.journal) := by
  induction h with
  | refl => exact ⟨fun _ => .refl, fun hbeyond => absurd ha (Nat.not_le_of_lt hbeyond)⟩
  | @tail b c _ hmove ih =>
      obtain ⟨hwithin, hbeyond⟩ := ih hmove.phase_ne_stopped
      have hgrows := (hmove.steps_le hb).1
      by_cases hmid : b.work.steps ≤ budget
      · obtain ⟨hnext, hcut⟩ := hmove.withBudget hb hmid
        refine ⟨fun hlast => (hwithin hmid).tail (hnext hlast), fun hlast => ?_⟩
        obtain ⟨d, hd, hout⟩ := hcut hlast
        exact ⟨d, (hwithin hmid).tail hd, hout⟩
      · have hmid := Nat.lt_of_not_le hmid
        obtain ⟨d, hd, hout⟩ := hbeyond hmid
        refine ⟨fun hlast => absurd (Nat.le_trans hgrows hlast) (Nat.not_le_of_lt hmid), fun _ => ?_⟩
        exact ⟨d, hd, hout.mono (hmove.journal_suffix hb)⟩

end Sweep

namespace Setup

open Sweep

/-- **The step budget is a threshold.** Let an optimization be completed, whatever its rules do and
remember. The steps that it took are within its budget. Under every budget that has so many steps it
leaves the same behind: the result with its steps and restarts, the list, the graph and the journal
of all calls. Under every smaller budget it runs out of the budget: it makes the first of these calls,
with the same events around them, and then the budget is used up. -/
theorem optimize_withBudget (setup : Setup σ) (user : σ) (graph : Graph)
    (list : List (Option TaskId)) {stats : OptimizeStats}
    (hok : (setup.optimize user graph list).result = .ok stats) :
    let o := setup.optimize user graph list
    stats.steps ≤ setup.maxSteps ∧
      (∀ budget ≥ stats.steps, (setup.withBudget budget).optimize user graph list = o) ∧
      ∀ budget < stats.steps,
        let cut := (setup.withBudget budget).optimize user graph list
        cut.result = .error .exhausted ∧ cut.journal.calls <+: o.journal.calls ∧
          o.journal.RunsOut budget cut.journal := by
  intro o
  obtain ⟨b, hpath, hfinal, heq⟩ := exists_final setup user graph list
  have hstopped := Path.isSome_stopped_iff hpath rfl nofun
  rw [heq, Situation.remains] at hok
  have hgoes : b.sweep.stopped = none := by
    cases hstop : b.sweep.stopped with
    | none => rfl
    | some stop =>
        rw [hstop] at hok
        cases hok
  rw [hgoes] at hok hstopped
  cases hok
  have hphase : b.phase ≠ .stopped := fun hphase => by cases hstopped.mpr hphase
  refine ⟨(hpath.steps_le hphase).2 (Nat.zero_le _), ?_, ?_⟩
  · intro budget hwithin
    have hsame := (hpath.withBudget hphase (Nat.zero_le budget)).1 hwithin
    exact (optimize_of_path hsame hfinal).trans heq.symm
  · intro budget hbeyond cut
    obtain ⟨c, hcut, hout⟩ := (hpath.withBudget hphase (Nat.zero_le budget)).2 hbeyond
    have hend : cut = c.remains := optimize_of_path hcut (Or.inl hout.phase)
    have hjournal : o.journal.RunsOut budget cut.journal := by
      rw [hend, show o = _ from heq, Situation.remains, Situation.remains, hgoes, hout.stopped]
      exact hout.journal
    refine ⟨?_, hjournal.calls, hjournal⟩
    rw [hend, Situation.remains, hout.stopped]

/-- With seven steps the budget runs out within the visit of the second entry. -/
theorem optimize_withBudget_tidying :
    let list := [some ⟨2⟩, none, some ⟨4⟩, some ⟨3⟩]
    let o := tidyingSetup.optimize () untidyGraph list
    let cut := (tidyingSetup.withBudget 7).optimize () untidyGraph list
    o.result = .ok ⟨12, 0⟩ ∧ (tidyingSetup.withBudget 12).optimize () untidyGraph list = o ∧
      cut.result = .error .exhausted ∧ cut.journal.calls <+: o.journal.calls ∧
      cut.journal.calls.length = 6 ∧ o.journal.calls.length = 8 := by
  intro list o cut
  have hok : o.result = .ok ⟨12, 0⟩ := by decide +kernel
  obtain ⟨_, hwithin, hbeyond⟩ := optimize_withBudget tidyingSetup () untidyGraph list hok
  obtain ⟨hout, hcalls, _⟩ := hbeyond 7 (by decide)
  exact ⟨hok, hwithin 12 (by decide), hout, hcalls, by decide +kernel, by decide +kernel⟩

end Setup

end RenderPlan
