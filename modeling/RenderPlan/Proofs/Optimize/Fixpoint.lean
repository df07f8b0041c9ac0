/-
# RenderPlan.Proofs.Optimize.Fixpoint -- an optimized list is optimized to itself

Where the rules are stateless and candid (`Rule.Stateless`, `Rule.Candid`), a second optimization
finds nothing to do: `Setup.optimize_optimize`. The proof looks at steps that are calm over a graph
and a list, that is, whose list rules and whose visits leave everything as it is (`Step.Calm`).

A call that changes something reports every category with a rule. So when a category leaves the set
of pending ones, nothing was changed during its pass, and its steps are calm over the graph and the
list as they are. This stays true until the next change, which makes every category pending again
that has a rule at all. When the first optimization is done, therefore, all steps of all categories
are calm, and the second one consists of just these steps. The budget suffices for them, since the
first one has paid for a pass over each category out of the same budget.
-/
import RenderPlan.Proofs.Optimize.Budget
import RenderPlan.Proofs.Optimize.Calm

namespace RenderPlan

variable {σ : Type} {setup : Setup σ}

/-! ## Calm steps -/

/-- The rule finds nothing to do in the list, whatever is remembered. -/
def Rule.CalmFor (r : Rule σ) (gate : Mask) (g : Graph) (list : List (Option TaskId)) : Prop :=
  ∀ user, (r.runList ⟨user, g, list, gate, ∅⟩).fault = none ∧
    (r.runList ⟨user, g, list, gate, ∅⟩).call.graph = g ∧
    (r.runList ⟨user, g, list, gate, ∅⟩).call.list = list ∧
    (r.runList ⟨user, g, list, gate, ∅⟩).call.affects = ∅

namespace Sweep

/-- The visit of the entry between these others finds nothing to do. -/
def CalmEntry (setup : Setup σ) (step : Step σ) (g : Graph) (before : List (Option TaskId))
    (task : TaskId) (after : List (Option TaskId)) : Prop :=
  ∃ seen, seen.task = some task ∧ seen.affects = ∅ ∧
    (Visit.visit setup.maxSteps step.members step.forTask setup.visitLimit
      (.ofEntry (before.reverse ++ some task :: after) step.gate task)).Calm g seen

/-- The list can be logged under the title, if this is wanted. -/
def Logged (setup : Setup σ) (title : String) (g : Graph) (list : List (Option TaskId)) : Prop :=
  setup.logSteps = true → ∃ lines, g.dump list title = .ok lines

end Sweep

open Sweep

/-- The step finds nothing to do, neither in the list nor in its entries. -/
structure Step.Calm (setup : Setup σ) (step : Step σ) (title : String) (g : Graph)
    (list : List (Option TaskId)) : Prop where
  logged : Logged setup title g list
  lists : ∀ m ∈ step.members, m.rule.descriptor.forList = true → m.rule.CalmFor step.gate g list
  entries : step.forEntries = true → ∀ before task after,
    list = before.reverse ++ some task :: after → CalmEntry setup step g before task after

/-- The steps of the category that begin before a rule are calm. -/
def Setup.CalmUpTo (setup : Setup σ) (c : Category) (rules : Nat) (g : Graph)
    (list : List (Option TaskId)) : Prop :=
  ∀ first next, first < rules → (members setup c)[first]? = some next →
    (c.simultaneous = true → first = 0) →
      (stepAt setup c next).Calm setup (titleAt c.index first) g list

/-- All steps of the category are calm. -/
def Setup.CalmIn (setup : Setup σ) (c : Category) (g : Graph)
    (list : List (Option TaskId)) : Prop :=
  ∀ rules, setup.CalmUpTo c rules g list

namespace Sweep

variable {s : Sweep} {w w' : Workspace σ} {step : Step σ} {c : Category} {g : Graph}
  {list : List (Option TaskId)} {a b : Situation σ}

theorem stepTitle_eq (h : s.Stepping setup step) :
    s.stepTitle = titleAt step.category.index s.nextRule := by
  rw [Category.index_of_ofIndex?_eq_some h.here]
  rfl

/-- A category without rules has no steps. -/
theorem calmIn_of_rules_eq_nil (h : setup.registry.rules c = []) : setup.CalmIn c g list := by
  intro rules first next _ hnext
  rw [members, h] at hnext
  cases hnext

theorem calmUpTo_zero : setup.CalmUpTo c 0 g list := nofun

/-- When all rules are done there is no further step. -/
theorem calmIn_of_done (h : setup.CalmUpTo c s.nextRule g list)
    (hdone : (members setup c)[s.nextRule]? = none) : setup.CalmIn c g list := by
  intro rules first next _ hnext hsim
  refine h first next ?_ hnext hsim
  exact Nat.lt_of_lt_of_le (List.getElem?_eq_some_iff.mp hnext).1
    (List.getElem?_eq_none_iff.mp hdone)

/-- Where a category is calm, the next step in it is. -/
theorem Stepping.calm (hstep : s.Stepping setup step) (h : setup.CalmIn step.category g list) :
    step.Calm setup s.stepTitle g list := by
  obtain ⟨next, hnext, heq⟩ := hstep.begins
  have hcalm := h _ s.nextRule next (Nat.lt_succ_self _) hnext hstep.whole
  rw [stepTitle_eq hstep]
  rwa [← heq] at hcalm

/-- Behind a calm step one step more is calm. -/
theorem Stepping.calmUpTo_behind (hstep : s.Stepping setup step)
    (h : setup.CalmUpTo step.category s.nextRule g list)
    (hcalm : step.Calm setup s.stepTitle g list) :
    setup.CalmUpTo step.category (s.behind step).nextRule g list := by
  intro first next hlt hnext hsim
  by_cases hbefore : first < s.nextRule
  · exact h first next hbefore hnext hsim
  · -- the step itself: its first rule is the next one
    obtain ⟨next', hnext', heq⟩ := hstep.begins
    have hfirst : first = s.nextRule := by
      cases hcat : step.category.simultaneous with
      | true => rw [hsim hcat, hstep.whole hcat]
      | false =>
          obtain ⟨_, _, hmembers⟩ := hstep.members_of_single hcat
          have hlen : (s.behind step).nextRule = s.nextRule + 1 := by
            simp [Sweep.behind, hmembers]
          omega
    rw [hfirst, hnext'] at hnext
    obtain rfl := Option.some.inj hnext
    rw [← heq, hfirst, ← stepTitle_eq hstep]
    exact hcalm

end Sweep

/-! ## The first optimization -/

/-- Over the graph and the list the steps of the present pass were calm so far. -/
def Phase.Calm (setup : Setup σ) (phase : Phase σ) (s : Sweep) (g : Graph)
    (list : List (Option TaskId)) : Prop :=
  match phase with
  | .between | .turning => ∀ c, Category.ofIndex? s.position = some c →
    setup.CalmUpTo c s.nextRule g list
  | .listing step rest => setup.CalmUpTo step.category s.nextRule g list ∧
    Logged setup s.stepTitle g list ∧
    ∀ m ∈ step.members, m ∈ rest ∨
      (m.rule.descriptor.forList = true → m.rule.CalmFor step.gate g list)
  | .visiting step before _ => setup.CalmUpTo step.category s.nextRule g list ∧
    Logged setup s.stepTitle g list ∧
    (∀ m ∈ step.members, m.rule.descriptor.forList = true → m.rule.CalmFor step.gate g list) ∧
    ∀ before' task after', list = before'.reverse ++ some task :: after' →
      before'.length < before.length → CalmEntry setup step g before' task after'
  | .stopped => True

/-- Whatever is not pending is calm, and so is the present pass until it reports every category that
has a rule. -/
structure Situation.Hushed (setup : Setup σ) (a : Situation σ) : Prop where
  filled : none ∉ a.list
  reported : ∀ c ∈ a.sweep.affected, c ∈ a.sweep.pending
  settled : ∀ c, c ∉ a.sweep.pending → setup.CalmIn c a.work.graph a.list
  passing : setup.registry.Covered a.sweep.affected ∨
    a.phase.Calm setup a.sweep a.work.graph a.list

namespace Sweep

variable {s : Sweep} {w w' : Workspace σ} {step : Step σ} {c : Category} {g : Graph}
  {list : List (Option TaskId)} {a b : Situation σ}

/-- Where every category with a rule is pending, the others have no steps. -/
theorem calmIn_of_covered {m : Mask} (h : setup.registry.Covered m) (hc : c ∉ m) :
    setup.CalmIn c g list := by
  refine calmIn_of_rules_eq_nil ?_
  by_cases hrules : setup.registry.rules c = []
  · exact hrules
  · exact absurd (h c hrules) hc

/-- A move that changes neither the graph nor the list. -/
theorem hushed_of_eq (ha : a.Hushed setup) (hlist : b.list = a.list)
    (hgraph : b.work.graph = a.work.graph) (hreported : ∀ c ∈ b.sweep.affected, c ∈ b.sweep.pending)
    (hpending : ∀ c, c ∉ b.sweep.pending → c ∉ a.sweep.pending)
    (hpassing : setup.registry.Covered b.sweep.affected ∨
      b.phase.Calm setup b.sweep a.work.graph a.list) : b.Hushed setup where
  filled := hlist ▸ ha.filled
  reported := hreported
  settled c hc := by
    rw [hgraph, hlist]
    exact ha.settled c (hpending c hc)
  passing := by
    rw [hgraph, hlist]
    exact hpassing

/-- A move within a pass that reports nothing. -/
theorem hushed_of_calm (ha : a.Hushed setup) (hlist : b.list = a.list)
    (hgraph : b.work.graph = a.work.graph) (haffected : b.sweep.affected = a.sweep.affected)
    (hpending : b.sweep.pending = a.sweep.pending)
    (hcalm : a.phase.Calm setup a.sweep a.work.graph a.list →
      b.phase.Calm setup b.sweep a.work.graph a.list) : b.Hushed setup := by
  refine hushed_of_eq ha hlist hgraph ?_ (fun c hc => hpending ▸ hc) ?_
  · rw [haffected, hpending]
    exact ha.reported
  · rw [haffected]
    exact ha.passing.imp_right hcalm

/-- A move that only takes in a report. -/
theorem hushed_of_report (ha : a.Hushed setup) (hlist : b.list = a.list)
    (hgraph : b.work.graph = a.work.graph) {m : Mask}
    (haffected : b.sweep.affected = a.sweep.affected ∪ m)
    (hpending : b.sweep.pending = a.sweep.pending ∪ (a.sweep.affected ∪ m))
    (hcalm : a.phase.Calm setup a.sweep a.work.graph a.list →
      b.phase.Calm setup b.sweep a.work.graph a.list) : b.Hushed setup := by
  refine hushed_of_eq ha hlist hgraph (fun c hc => ?_) (fun c hc hold => ?_) ?_
  · rw [hpending, ← haffected]
    exact Mask.mem_union.mpr (Or.inr hc)
  · rw [hpending] at hc
    exact hc (Mask.mem_union.mpr (Or.inl hold))
  · rcases ha.passing with hcovered | hpass
    · rw [haffected]
      exact Or.inl (hcovered.mono fun c hc => Mask.mem_union.mpr (Or.inl hc))
    · exact Or.inr (hcalm hpass)

/-- A move that reports every category with a rule. -/
theorem hushed_of_covered (hfilled : none ∉ b.list) {m : Mask} (hm : setup.registry.Covered m)
    (haffected : b.sweep.affected = s.affected ∪ m)
    (hpending : b.sweep.pending = s.pending ∪ (s.affected ∪ m)) : b.Hushed setup := by
  have hreported : ∀ c ∈ b.sweep.affected, c ∈ b.sweep.pending := by
    intro c hc
    rw [hpending, ← haffected]
    exact Mask.mem_union.mpr (Or.inr hc)
  have hcovered : setup.registry.Covered b.sweep.affected := by
    rw [haffected]
    exact hm.mono fun c hc => Mask.mem_union.mpr (Or.inr hc)
  exact ⟨hfilled, hreported, fun c hc => calmIn_of_covered (hcovered.mono hreported) hc,
    Or.inl hcovered⟩

/-- A call for the list either reports every category with a rule, or finds nothing to do. -/
theorem calmFor_or_covered {gate : Mask} {m : Member σ} (hstateless : m.rule.Stateless)
    (hcandid : m.rule.Candid setup.registry) (hreturns : (answer gate m s w).fault = none) :
    setup.registry.Covered (record gate m s w).reported ∨
      (answer gate m s w).call.list = s.list ∧ (answer gate m s w).call.graph = w.graph ∧
        (record gate m s w).reported = ∅ ∧ m.rule.CalmFor gate w.graph s.list := by
  by_cases hsame : (answer gate m s w).call.list = s.list
  · obtain ⟨hgraph, haffects⟩ := hcandid.idleList _ hreturns hsame
    refine Or.inr ⟨hsame, hgraph, ?_, fun user => ?_⟩
    · exact (reported_of_eq gate m s w hsame).trans haffects
    · obtain ⟨hfault', hgraph', hlist', haffects'⟩ :=
        hstateless.list ⟨w.user, w.graph, s.list, gate, ∅⟩ user
      exact ⟨hfault'.trans hreturns, hgraph'.trans hgraph, hlist'.trans hsame,
        haffects'.trans haffects⟩
  · rw [reported_of_ne gate m s w hsame]
    exact Or.inl (hcandid.marksList _ hreturns hsame)

/-- The visit of an entry either reports every category with a rule, or finds nothing to do. -/
theorem calmEntry_or_covered {before after : List (Option TaskId)} {task : TaskId}
    {seen : TaskView} (hstateless : ∀ m ∈ step.members, m.rule.Stateless)
    (hcandid : ∀ m ∈ step.members, m.rule.Candid setup.registry)
    (h : entryOutcome setup step before after task w = (.ok seen, w')) :
    setup.registry.Covered seen.affects ∨
      seen.task = some task ∧ seen.affects = ∅ ∧ w'.graph = w.graph ∧
        CalmEntry setup step w.graph before task after := by
  rcases (Visit.honest_visit hstateless hcandid step.forTask setup.visitLimit _).tells w seen w' h
    with hloud | ⟨⟨htask, haffects⟩, hcalm⟩
  · exact Or.inl hloud
  · obtain ⟨v, hv, hgraph, _⟩ := hcalm w rfl
    obtain rfl : v = w' := congrArg Prod.snd (hv.symm.trans h)
    exact Or.inr ⟨htask, haffects, hgraph, seen, htask, haffects, hcalm⟩

/-- A pass that begins is calm. -/
theorem calm_between (h : s.nextRule = 0) :
    (Phase.between : Phase σ).Calm setup s g list := by
  intro c _
  rw [h]
  exact calmUpTo_zero

/-- A step begins in a calm pass. -/
theorem calm_listing {next : Member σ} (hhere : Category.ofIndex? s.position = some c)
    (h : (Phase.turning : Phase σ).Calm setup s g list)
    (hlogged : Logged setup s.stepTitle g list) :
    (Phase.listing (stepAt setup c next) (stepAt setup c next).members).Calm setup s g list := by
  refine ⟨?_, hlogged, fun m hm => Or.inl hm⟩
  rw [category_stepAt]
  exact h c hhere

/-- Behind a calm step the pass is calm. -/
theorem calm_behind (hstep : s.Stepping setup step)
    (h : setup.CalmUpTo step.category s.nextRule g list)
    (hcalm : step.Calm setup s.stepTitle g list) :
    (Phase.between : Phase σ).Calm setup (s.behind step) g list := by
  intro c hhere
  obtain rfl : step.category = c := Option.some.inj (hstep.here.symm.trans hhere)
  exact hstep.calmUpTo_behind h hcalm

/-- A rule of the step is done with the list. -/
theorem calm_listed {m : Member σ} {rest : List (Member σ)}
    (h : (Phase.listing step (m :: rest)).Calm setup s g list)
    (hm : m.rule.descriptor.forList = true → m.rule.CalmFor step.gate g list) :
    (Phase.listing step rest).Calm setup s g list := by
  obtain ⟨hupto, hlogged, hlists⟩ := h
  refine ⟨hupto, hlogged, fun m' hm' => ?_⟩
  rcases hlists m' hm' with hrest | hdone
  · rcases List.mem_cons.mp hrest with rfl | hrest
    · exact Or.inr hm
    · exact Or.inl hrest
  · exact Or.inr hdone

/-- All rules of the step are done with the list, and no entry is visited so far. -/
theorem calm_visiting (h : (Phase.listing step []).Calm setup s g list) :
    (Phase.visiting step [] list).Calm setup s g list := by
  obtain ⟨hupto, hlogged, hlists⟩ := h
  exact ⟨hupto, hlogged, fun m hm => (hlists m hm).resolve_left List.not_mem_nil,
    fun _ _ _ _ hlt => absurd hlt (Nat.not_lt_zero _)⟩

/-- An entry was visited and stayed. -/
theorem calm_visited {before after : List (Option TaskId)} {task : TaskId}
    (h : (Phase.visiting step before (some task :: after)).Calm setup s g
      (before.reverse ++ some task :: after))
    (hentry : CalmEntry setup step g before task after) :
    (Phase.visiting step (some task :: before) after).Calm setup s g
      (before.reverse ++ some task :: after) := by
  obtain ⟨hupto, hlogged, hlists, hentries⟩ := h
  refine ⟨hupto, hlogged, hlists, fun before' task' after' heq hlt => ?_⟩
  by_cases hold : before'.length < before.length
  · exact hentries before' task' after' heq hold
  · -- it is the entry that was visited just now
    have hlen : before.reverse.length = before'.reverse.length := by
      simp only [List.length_cons, List.length_reverse] at hlt ⊢
      omega
    obtain ⟨hbefore, hafter⟩ := List.append_inj heq hlen
    obtain rfl := List.reverse_injective hbefore
    cases hafter
    exact hentry

/-- The step had nothing to do with the entries. -/
theorem calm_of_listed (hstep : s.Stepping setup step) (hother : step.forEntries = false)
    (h : (Phase.listing step []).Calm setup s g list) :
    (Phase.between : Phase σ).Calm setup (s.behind step) g list := by
  obtain ⟨hupto, hlogged, hlists⟩ := h
  refine calm_behind hstep hupto ⟨hlogged, ?_, ?_⟩
  · exact fun m hm => (hlists m hm).resolve_left List.not_mem_nil
  · exact fun hentries => absurd hentries (Bool.eq_false_iff.mp hother)

/-- All entries were visited. -/
theorem calm_of_visited {before : List (Option TaskId)} (hstep : s.Stepping setup step)
    (h : (Phase.visiting step before []).Calm setup s g (before.reverse ++ [])) :
    (Phase.between : Phase σ).Calm setup (s.behind step) g (before.reverse ++ []) := by
  obtain ⟨hupto, hlogged, hlists, hentries⟩ := h
  refine calm_behind hstep hupto ⟨hlogged, hlists, fun _ before' task' after' heq => ?_⟩
  have hlen := congrArg List.length heq
  simp only [List.length_append, List.length_reverse, List.length_cons, List.length_nil] at hlen
  exact hentries before' task' after' heq (by omega)

/-- The last rule of the category is done. -/
theorem hushed_settle (ha : Situation.Hushed setup ⟨.turning, s, w⟩)
    (hhere : Category.ofIndex? s.position = some c)
    (hdone : (members setup c)[s.nextRule]? = none) (e : Entry) :
    Situation.Hushed setup ⟨.between, s.settle c, w.note e⟩ := by
  refine ⟨ha.filled, fun _ h => absurd h Mask.notMem_empty, fun d hd => ?_,
    Or.inr (calm_between rfl)⟩
  simp only [Sweep.settle, Sweep.advance, Mask.mem_union, Mask.mem_sdiff, Category.mem_mask,
    not_or, not_and, Decidable.not_not] at hd
  by_cases hdc : d = c
  · subst hdc
    rcases ha.passing with hcovered | hpass
    · exact calmIn_of_covered hcovered hd.2
    · exact calmIn_of_done (hpass d hhere) hdone
  · exact ha.settled d fun hpending => hdc (hd.1 hpending)

/-- No hole takes the place of an entry. -/
theorem notMem_visited {before after : List (Option TaskId)} {task : TaskId}
    (h : none ∉ before.reverse ++ some task :: after) (new : Option TaskId) :
    none ∉ before.reverse ++ (new.toList.map some ++ after) := by
  simp only [List.mem_append, List.mem_reverse, List.mem_cons, not_or] at h
  simp [h]

theorem Move.hushed
    (hstateless : ∀ c, ∀ id ∈ setup.registry.rules c, (setup.rules id).Stateless)
    (hcandid : ∀ c, ∀ id ∈ setup.registry.rules c, (setup.rules id).Candid setup.registry)
    (hstands : a.Stands setup) (ha : a.Hushed setup) (h : Move setup a b)
    (hb : b.phase ≠ .stopped) : b.Hushed setup := by
  have hnothing : ∀ {p : Mask}, ∀ c ∈ (∅ : Mask), c ∈ p :=
    fun c hc => absurd hc Mask.notMem_empty
  cases h with
  | spend => exact hushed_of_calm ha rfl rfl rfl rfl id
  | rewind | advance | restart | cutList | cut =>
      exact hushed_of_eq ha rfl rfl hnothing (fun _ => id) (Or.inr (calm_between rfl))
  | settle hhere _ hdone => exact hushed_settle ha hhere hdone _
  | begin hhere _ _ _ hquiet =>
      refine hushed_of_calm ha rfl rfl rfl rfl fun hpass => ?_
      exact calm_listing hhere hpass fun hlogs => absurd hlogs (Bool.eq_false_iff.mp hquiet)
  | beginLogged hhere _ _ _ _ hdump =>
      refine hushed_of_calm ha rfl rfl rfl rfl fun hpass => ?_
      exact calm_listing hhere hpass fun _ => ⟨_, hdump⟩
  | @call s w step m rest hclean hlist hreturns =>
      have hm := hstands.2 (List.mem_cons_self ..)
      have hcandid := hstands.1.forall_members hcandid m hm
      rcases calmFor_or_covered (hstands.1.forall_members hstateless m hm) hcandid hreturns with
        hcovered | ⟨hsame, hgraph, _, hcalm⟩
      · exact hushed_of_covered (hcandid.noHoles _ hreturns ha.filled) hcovered rfl rfl
      · refine hushed_of_report ha hsame hgraph rfl rfl fun hpass => ?_
        have hlisted := calm_listed hpass fun _ => hcalm
        exact hlisted
  | skip _ hother =>
      refine hushed_of_calm ha rfl rfl rfl rfl fun hpass => calm_listed hpass fun hlist => ?_
      exact absurd hlist (Bool.eq_false_iff.mp hother)
  | descend => exact hushed_of_calm ha rfl rfl rfl rfl calm_visiting
  | finishList _ hother =>
      exact hushed_of_calm ha rfl rfl rfl rfl (calm_of_listed hstands.1 hother)
  | hole => exact absurd (List.mem_append_right _ (List.mem_cons_self ..)) ha.filled
  | @visit s w step before after task seen w' _ houtcome =>
      rcases calmEntry_or_covered (hstands.1.forall_members hstateless)
        (hstands.1.forall_members hcandid) houtcome with
        hcovered | ⟨htask, haffects, hgraph, hcalm⟩
      · refine hushed_of_covered ?_ hcovered rfl rfl
        have hfilled := notMem_visited ha.filled seen.task
        cases hseen : seen.task <;> simpa [Situation.list, hseen] using hfilled
      · refine hushed_of_report ha ?_ hgraph rfl rfl fun hpass => ?_
        · simp [Situation.list, htask]
        · have hvisited := calm_visited hpass hcalm
          rw [htask]
          exact hvisited
  | revisit _ houtcome hrepeats hnew =>
      obtain ⟨_, hnew', hother, _⟩ := hrepeats
      rcases calmEntry_or_covered (hstands.1.forall_members hstateless)
        (hstands.1.forall_members hcandid) houtcome with
        hcovered | ⟨htask, _⟩
      · exact hushed_of_covered (notMem_visited ha.filled (some _)) hcovered rfl rfl
      · rw [hnew'] at htask
        exact absurd (Option.some.inj htask) hother
  | finish =>
      refine hushed_of_calm ha (List.append_nil _).symm rfl rfl rfl fun hpass => ?_
      have hbehind := calm_of_visited hstands.1 hpass
      exact hbehind
  | exhausted | unlogged | raise | unrepeated | abort => exact absurd rfl hb

end Sweep

/-! ## The second optimization -/

/-- The optimization has found nothing to do so far. It has not gone back, and it took just the
steps that a pass over each category takes. -/
structure Situation.Idles (setup : Setup σ) (g : Graph) (list : List (Option TaskId))
    (a : Situation σ) : Prop where
  running : a.phase ≠ .stopped
  graph : a.work.graph = g
  entries : a.list = list
  affected : a.sweep.affected = ∅
  restarts : a.sweep.restarts = 0
  pending : ∀ c, c ∈ a.sweep.pending ↔ a.sweep.position ≤ c.index
  strict : a.sweep.pending.isStrict = true
  busy : a.phase = .turning → a.sweep.pending.isEmpty = false
  bound : ∀ c, Category.ofIndex? a.sweep.position = some c →
    a.sweep.nextRule ≤ (members setup c).length
  steps : a.work.steps ≤ setup.paid a.sweep.pending + a.turnsOfPass

namespace Sweep

variable {s : Sweep} {w w' : Workspace σ} {step : Step σ} {c : Category} {g : Graph}
  {list : List (Option TaskId)} {a b : Situation σ}

theorem report_empty (h : s.affected = ∅) : s.report ∅ = s := by
  obtain ⟨position, nextRule, affected, pending, list, restarts, turns, stopped⟩ := s
  change affected = ∅ at h
  subst h
  simp only [Sweep.report, Mask.union_empty]

theorem withList_report_of_calmFor {gate : Mask} {m : Member σ}
    (hcalm : m.rule.CalmFor gate w.graph s.list) (h : s.affected = ∅) :
    (withList gate m s w).report (record gate m s w).reported = s := by
  obtain ⟨_, _, hlist, haffects⟩ := hcalm w.user
  have hsame : (answer gate m s w).call.list = s.list := hlist
  have hreported : (record gate m s w).reported = ∅ :=
    (reported_of_eq gate m s w hsame).trans haffects
  rw [hreported, withList, hsame]
  exact report_empty h

theorem entryOutcome_of_calmEntry {before after : List (Option TaskId)} {task : TaskId}
    {r : Except Stop TaskView} (h : CalmEntry setup step w.graph before task after)
    (houtcome : entryOutcome setup step before after task w = (r, w')) :
    ∃ seen, r = .ok seen ∧ seen.task = some task ∧ seen.affects = ∅ ∧ w'.graph = w.graph ∧
      w'.steps = w.steps := by
  obtain ⟨seen, htask, haffects, hcalm⟩ := h
  obtain ⟨v, hv, hgraph, hsteps⟩ := hcalm w rfl
  have heq := hv.symm.trans houtcome
  cases heq
  exact ⟨seen, rfl, htask, haffects, hgraph, hsteps⟩

/-- There is a category left to process. -/
theorem exists_here (hpending : ∀ c, c ∈ s.pending ↔ s.position ≤ c.index)
    (hstrict : s.pending.isStrict = true) (h : s.pending.isEmpty = false) :
    ∃ c, Category.ofIndex? s.position = some c ∧ c ∈ s.pending := by
  obtain ⟨d, hd⟩ := Mask.exists_mem_of_isStrict hstrict h
  have hle := (hpending d).mp hd
  obtain ⟨c, hc⟩ := Category.exists_index (Nat.lt_of_le_of_lt hle d.index_lt_count)
  refine ⟨c, hc ▸ Category.ofIndex?_index c, (hpending c).mpr (Nat.le_of_eq hc.symm)⟩

/-- A category in which nothing happened leaves the set. -/
theorem pending_settle (haffected : s.affected = ∅) :
    (s.settle c).pending = s.pending \ c.mask := by
  change (s.pending \ c.mask) ∪ s.affected = _
  rw [haffected, Mask.union_empty]

theorem mem_settle {d : Category} (hhere : Category.ofIndex? s.position = some c)
    (haffected : s.affected = ∅) (hpending : ∀ c, c ∈ s.pending ↔ s.position ≤ c.index) :
    d ∈ (s.settle c).pending ↔ (s.settle c).position ≤ d.index := by
  rw [pending_settle haffected, Mask.mem_sdiff, Category.mem_mask, hpending d]
  change s.position ≤ d.index ∧ ¬ d = c ↔ s.position + 1 ≤ d.index
  rw [← Category.index_of_ofIndex?_eq_some hhere]
  constructor
  · rintro ⟨hle, hne⟩
    exact Nat.lt_of_le_of_ne hle fun heq => hne (Category.index_injective heq.symm)
  · intro hlt
    exact ⟨Nat.le_of_lt hlt, fun heq => Nat.lt_irrefl _ (heq ▸ hlt)⟩

/-- What a step relies on lies before its category, and is not pending. -/
theorem not_dirty (hstep : s.Stepping setup step)
    (hpending : ∀ c, c ∈ s.pending ↔ s.position ≤ c.index) (hstrict : s.pending.isStrict = true) :
    ¬ s.Dirty step := by
  intro hdirty
  obtain ⟨c, hc, hgate⟩ := Mask.exists_mem_of_intersects hstrict hdirty
  obtain ⟨m, _, hlt, _⟩ := Step.mem_gate.mp hgate
  have hle := (hpending c).mp hc
  rw [← Category.index_of_ofIndex?_eq_some hstep.here] at hle
  exact Nat.lt_irrefl _ (Nat.lt_of_le_of_lt hle hlt)

/-- A move within a step that finds nothing to do. -/
theorem idles_of_eq (ha : a.Idles setup g list) (hgraph : b.work.graph = a.work.graph)
    (hlist : b.list = a.list) (hsweep : b.sweep = a.sweep) (hsteps : b.work.steps = a.work.steps)
    (hturns : b.turnsOfPass = a.turnsOfPass) (hrunning : b.phase ≠ .stopped)
    (hphase : b.phase ≠ .turning) : b.Idles setup g list where
  running := hrunning
  graph := hgraph.trans ha.graph
  entries := hlist.trans ha.entries
  affected := hsweep ▸ ha.affected
  restarts := hsweep ▸ ha.restarts
  pending := hsweep ▸ ha.pending
  strict := hsweep ▸ ha.strict
  busy h := absurd h hphase
  bound := hsweep ▸ ha.bound
  steps := by
    rw [hsteps, hturns, hsweep]
    exact ha.steps

/-- Behind a step in which there was nothing to do. -/
theorem idles_behind (hstep : s.Stepping setup step) (ha : a.Idles setup g list)
    (hs : s = a.sweep) (hturns : a.turnsOfPass = s.progress + 1) (hentries : s.list = list) :
    Situation.Idles setup g list ⟨.between, s.behind step, a.work⟩ where
  running := nofun
  graph := ha.graph
  entries := hentries
  affected := hs ▸ ha.affected
  restarts := hs ▸ ha.restarts
  pending := hs ▸ ha.pending
  strict := hs ▸ ha.strict
  busy := nofun
  bound c hhere := by
    obtain rfl : step.category = c := Option.some.inj (hstep.here.symm.trans hhere)
    exact hstep.behind_le
  steps := by
    have hsteps := ha.steps
    rw [hturns, ← hstep.progress_behind, ← hs] at hsteps
    exact hsteps

/-- What is pending, and what the pass has cost, is within the budget for a pass over each category. -/
theorem steps_lt_paid (ha : Situation.Idles setup g list ⟨.between, s, w⟩)
    (hpending : s.pending.isEmpty = false) : w.steps + 1 ≤ setup.paid ∅ := by
  obtain ⟨c, hhere, hc⟩ := exists_here ha.pending ha.strict hpending
  have hsteps : w.steps ≤ setup.paid s.pending + s.progress := ha.steps
  have hcost : s.progress + 1 ≤ setup.passCost c := progress_lt_passCost hhere (ha.bound c hhere)
  have hpaid : setup.paid s.pending + setup.passCost c ≤ setup.paid ∅ :=
    Setup.paid_add_passCost_le hc
  omega

/-- A category in which nothing happened is settled. -/
theorem idles_settle (ha : Situation.Idles setup g list ⟨.turning, s, w⟩)
    (hhere : Category.ofIndex? s.position = some c) (hpending : c ∈ s.pending) (e : Entry) :
    Situation.Idles setup g list ⟨.between, s.settle c, w.note e⟩ := by
  have hleft := pending_settle (c := c) (show s.affected = ∅ from ha.affected)
  refine ⟨nofun, ha.graph, ha.entries, rfl, ha.restarts,
    fun d => mem_settle hhere ha.affected ha.pending, ?_, nofun, fun _ _ => Nat.zero_le _, ?_⟩
  · rw [hleft]
    exact Mask.isStrict_sdiff ha.strict
  · have hsteps : w.steps ≤ setup.paid s.pending + (s.progress + 1) := ha.steps
    have hcost : s.progress + 1 ≤ setup.passCost c :=
      progress_lt_passCost hhere (ha.bound c hhere)
    rw [turnsOfPass_between rfl, hleft, Setup.paid_sdiff hpending]
    exact Nat.le_trans hsteps (Nat.add_le_add_left hcost _)

/-- All entries were visited, and all of them stayed. -/
theorem idles_finish {before : List (Option TaskId)} (hstep : s.Stepping setup step)
    (ha : Situation.Idles setup g list ⟨.visiting step before [], s, w⟩) :
    Situation.Idles setup g list
      ⟨.between, ({ s with list := before.reverse } : Sweep).behind step, w⟩ := by
  have hentries : before.reverse = list := by
    rw [← ha.entries]
    exact (List.append_nil _).symm
  have hstep' : Stepping setup { s with list := before.reverse } step :=
    ⟨hstep.here, hstep.begins, hstep.whole⟩
  have hlast : Situation.Idles setup g list
      ⟨.visiting step before [], { s with list := before.reverse }, w⟩ :=
    { ha with
      running := nofun
      busy := nofun }
  exact idles_behind hstep' hlast rfl rfl hentries

theorem Move.idles (hcalm : ∀ c, setup.CalmIn c g list) (hfilled : none ∉ list)
    (hbudget : setup.paid ∅ ≤ setup.maxSteps) (hstands : a.Stands setup)
    (ha : a.Idles setup g list) (h : Move setup a b) : b.Idles setup g list := by
  have hgraph := ha.graph
  have hlist := ha.entries
  subst hgraph hlist
  cases h with
  | spend hpending =>
      exact { ha with
        running := nofun
        busy := fun _ => hpending
        steps := Nat.succ_le_succ ha.steps }
  | exhausted hpending hspent =>
      have hsteps := steps_lt_paid ha hpending
      exact absurd hspent (Nat.not_lt_of_le (Nat.le_trans hsteps hbudget))
  | rewind hlast =>
      obtain ⟨c, hhere, _⟩ := exists_here ha.pending ha.strict (ha.busy rfl)
      rw [hlast] at hhere
      cases hhere
  | @advance s w c hhere hsettled =>
      refine absurd ((ha.pending c).mpr ?_) hsettled
      exact Nat.le_of_eq (Category.index_of_ofIndex?_eq_some hhere).symm
  | settle hhere hpending => exact idles_settle ha hhere hpending _
  | restart _ _ _ _ hdirty =>
      rw [show Sweep.affected _ = ∅ from ha.affected] at hdirty
      exact absurd hdirty Mask.not_intersects_empty
  | begin | beginLogged | skip | descend =>
      exact idles_of_eq ha rfl rfl rfl rfl rfl nofun nofun
  | unlogged hhere _ hrule _ hlogs hdump =>
      obtain ⟨lines, hlines⟩ := ((Whole.stepping hstands hhere hrule).calm (hcalm _)).logged hlogs
      cases hdump.symm.trans hlines
  | @call s w step m rest _ hforList =>
      have hm := hstands.2 (List.mem_cons_self ..)
      have hidle := (hstands.1.calm (hcalm _)).lists m hm hforList
      have hsweep := withList_report_of_calmFor hidle ha.affected
      exact idles_of_eq ha (hidle w.user).2.1 (congrArg Sweep.list hsweep) hsweep rfl
        (congrArg (fun s => Sweep.progress s + 1) hsweep) nofun nofun
  | @raise s w step m rest f _ hforList hraises =>
      have hm := hstands.2 (List.mem_cons_self ..)
      have hidle := (hstands.1.calm (hcalm _)).lists m hm hforList
      cases hraises.symm.trans (hidle w.user).1
  | finishList => exact idles_behind hstands.1 ha rfl rfl rfl
  | cutList hdirty | cut hdirty =>
      exact (not_dirty hstands.1 ha.pending ha.strict hdirty).elim
  | hole => exact absurd (List.mem_append_right _ (List.mem_cons_self ..)) hfilled
  | @visit s w step before after task seen w' _ houtcome =>
      have hidle := (hstands.1.calm (hcalm _)).entries hstands.2 before task after rfl
      obtain ⟨_, ⟨⟩, htask, haffects, hgraph, hsteps⟩ := entryOutcome_of_calmEntry hidle houtcome
      have hsweep : s.report seen.affects = s := haffects ▸ report_empty ha.affected
      refine idles_of_eq ha hgraph ?_ hsweep hsteps
        (congrArg (fun s => Sweep.progress s + 1) hsweep) nofun nofun
      simp [Situation.list, htask]
  | @revisit s w step before after task seen new w' _ houtcome hrepeats hnew
  | @unrepeated s w step before after task seen new w' _ houtcome hrepeats hnew =>
      have hidle := (hstands.1.calm (hcalm _)).entries hstands.2 before task after rfl
      obtain ⟨_, ⟨⟩, htask, _⟩ := entryOutcome_of_calmEntry hidle houtcome
      obtain ⟨new', hnew', hother, _⟩ := hrepeats
      rw [hnew'] at htask
      exact absurd (Option.some.inj htask) hother
  | @abort s w step before after task stop w' _ houtcome =>
      have hidle := (hstands.1.calm (hcalm _)).entries hstands.2 before task after rfl
      obtain ⟨_, ⟨⟩, _⟩ := entryOutcome_of_calmEntry hidle houtcome
  | finish => exact idles_finish hstands.1 ha

end Sweep

/-! ## Both optimizations -/

/-- As long as it is not stopped, an optimization makes things calm within its budget. -/
def Situation.Proceeds (setup : Setup σ) (a : Situation σ) : Prop :=
  a.phase ≠ .stopped → a.Hushed setup ∧
    setup.paid a.sweep.pending + a.turnsOfPass ≤ a.work.steps ∧ a.work.steps ≤ setup.maxSteps

theorem Sweep.Move.proceeds {a b : Situation σ}
    (hstateless : ∀ c, ∀ id ∈ setup.registry.rules c, (setup.rules id).Stateless)
    (hcandid : ∀ c, ∀ id ∈ setup.registry.rules c, (setup.rules id).Candid setup.registry)
    (hstands : a.Stands setup) (ha : a.Proceeds setup) (h : Move setup a b) : b.Proceeds setup := by
  intro hb
  obtain ⟨hhushed, hpaid, hsteps⟩ := ha h.phase_ne_stopped
  exact ⟨h.hushed hstateless hcandid hstands hhushed hb, h.pays hstands hpaid hb,
    (h.steps_le hb).2 hsteps⟩

namespace Setup

/-- A list without holes has none to be taken out. -/
theorem filter_isSome_of_notMem {list : List (Option TaskId)} (h : none ∉ list) :
    list.filter Option.isSome = list := by
  rw [List.filter_eq_self]
  intro entry hentry
  cases entry with
  | none => exact absurd hentry h
  | some task => rfl

theorem paid_full (setup : Setup σ) : setup.paid .full = 0 := by
  simp [paid]

/-- When an optimization is done, everything is calm, and the budget was enough for a pass over each
category. -/
theorem hushed_optimize (setup : Setup σ) (user : σ) {graph : Graph}
    {list : List (Option TaskId)} {stats : OptimizeStats}
    (hstateless : ∀ c, ∀ id ∈ setup.registry.rules c, (setup.rules id).Stateless)
    (hcandid : ∀ c, ∀ id ∈ setup.registry.rules c, (setup.rules id).Candid setup.registry)
    (hlist : none ∉ list) (hok : (setup.optimize user graph list).result = .ok stats) :
    none ∉ (setup.optimize user graph list).list ∧
      (∀ c, setup.CalmIn c (setup.optimize user graph list).graph
        (setup.optimize user graph list).list) ∧
      setup.paid ∅ ≤ setup.maxSteps := by
  have hstart : (start user graph list).Proceeds setup := by
    refine fun _ => ⟨⟨hlist, fun c hc => absurd hc Mask.notMem_empty,
      fun c hc => absurd Mask.mem_full hc, Or.inr (calm_between rfl)⟩, ?_, Nat.zero_le _⟩
    rw [start, turnsOfPass_between rfl]
    exact Nat.le_of_eq ((Nat.add_zero _).trans setup.paid_full)
  rcases setup.optimize_invariant user graph list hstart
      (fun _ _ => Move.proceeds hstateless hcandid) with
    ⟨s, w, hs, hempty, heq⟩ | ⟨s, w, stop, _, _, heq⟩
  · obtain ⟨hhushed, hpaid, hsteps⟩ := hs nofun
    have hfilled : none ∉ s.list := hhushed.filled
    have hsettled : ∀ c, c ∉ s.pending := fun c => Mask.notMem_of_isEmpty hempty
    rw [heq, filter_isSome_of_notMem hfilled]
    refine ⟨hfilled, fun c => hhushed.settled c (hsettled c), ?_⟩
    have hall : setup.paid ∅ ≤ setup.paid s.pending :=
      paid_le_paid fun c hc => absurd hc (hsettled c)
    exact Nat.le_trans hall (Nat.le_trans (Nat.le_of_add_right_le hpaid) hsteps)
  · rw [heq] at hok
    cases hok

/-- **Optimized lists are fixed points.** Let the rules be stateless and candid, and let an
optimization of a list without holes be done. Then another one with the same setup, whatever the
rules remember, is done without going back once, and leaves list and graph as they are. -/
theorem optimize_optimize (setup : Setup σ) (user user' : σ) {graph : Graph}
    {list : List (Option TaskId)} {stats : OptimizeStats}
    (hstateless : ∀ c, ∀ id ∈ setup.registry.rules c, (setup.rules id).Stateless)
    (hcandid : ∀ c, ∀ id ∈ setup.registry.rules c, (setup.rules id).Candid setup.registry)
    (hlist : none ∉ list) (hok : (setup.optimize user graph list).result = .ok stats) :
    let done := setup.optimize user graph list
    let again := setup.optimize user' done.graph done.list
    (∃ steps, again.result = .ok ⟨steps, 0⟩) ∧ again.list = done.list ∧
      again.graph = done.graph := by
  intro done again
  obtain ⟨hfilled, hcalm, hbudget⟩ :=
    setup.hushed_optimize user hstateless hcandid hlist hok
  have hstart : (start user' done.graph done.list).Idles setup done.graph done.list := by
    refine ⟨nofun, rfl, rfl, rfl, rfl, fun c => ?_, Mask.isStrict_full, nofun,
      fun _ _ => Nat.zero_le _, Nat.zero_le _⟩
    exact ⟨fun _ => Nat.zero_le _, fun _ => Mask.mem_full⟩
  rcases setup.optimize_invariant user' done.graph done.list hstart
      (fun _ _ => Move.idles hcalm hfilled hbudget) with
    ⟨s, w, hidle, _, heq⟩ | ⟨s, w, stop, hidle, _, _⟩
  · have hsame : s.list = done.list := hidle.entries
    have hrestarts : s.restarts = 0 := hidle.restarts
    rw [show again = _ from heq, hsame, filter_isSome_of_notMem hfilled, hrestarts]
    exact ⟨⟨w.steps, rfl⟩, rfl, hidle.graph⟩
  · exact absurd rfl hidle.running

end Setup

/-! ### Taking holes out of nodes

The rule puts a new node without holes in the place of a task that has some, and counts its calls.
Its descriptor names its own category, the only one that has a rule. -/

/-- A rule that takes the holes out of a task. -/
def Rule.compacting : Rule Nat where
  name := "compact"
  descriptor :=
    { Descriptor.ofCategory .common with forTask := true, affects := Category.common.mask }
  runTask c := { call := match c.view.task.bind c.graph.get? with
    | some n =>
      if none ∈ n.subTasks then
        { user := c.user + 1
          graph := c.graph.insert { n with subTasks := n.subTasks.filter Option.isSome }
          view := { c.view with task := some c.graph.nextId } }
      else { c with user := c.user + 1 }
    | none => c }

/-- The rule alone. -/
def compactingSetup : Setup Nat where
  rules _ := .compacting
  registry := ⟨fun c => if c = .common then [⟨0⟩] else []⟩
  maxSteps := 64
  logSteps := false
  visitLimit := 8

theorem Rule.stateless_compacting : Rule.compacting.Stateless where
  list _ _ := ⟨rfl, rfl, rfl, rfl⟩
  task c user := by
    dsimp only [Rule.compacting]
    split
    · split <;> exact ⟨rfl, rfl, rfl⟩
    · exact ⟨rfl, rfl, rfl⟩

theorem Rule.candid_compacting : Rule.compacting.Candid compactingSetup.registry where
  idleList _ _ _ := ⟨rfl, rfl⟩
  marksList _ _ h := absurd rfl h
  noHoles _ _ h := h
  marksTask c _ _ := by
    intro d hd
    obtain rfl : d = .common := by
      by_cases hcommon : d = .common
      · exact hcommon
      · exact absurd (if_neg hcommon) hd
    exact Mask.mem_union.mpr (Or.inr (Category.mem_mask.mpr rfl))
  idleTask c _ := by
    dsimp only [Rule.compacting]
    split
    · next n hn =>
        split
        · -- the new node is no node of the graph, so the task is another one
          intro hsame
          obtain ⟨task, htask, hget⟩ := Option.bind_eq_some_iff.mp hn
          obtain rfl : c.graph.nextId = task := Option.some.inj (hsame.trans htask)
          rw [Graph.get?_nextId] at hget
          cases hget
        · exact fun _ => ⟨rfl, rfl⟩
    · exact fun _ => ⟨rfl, rfl⟩

/-- A task, a node with a hole, and a node that has this one twice around another hole. -/
def holedGraph : Graph :=
  let node (subs : List (Option TaskId)) : Node :=
    { Node.ofKind ⟨0, "image", none, {}⟩ with subTasks := subs }
  ⟨#[node [], node [none, some ⟨0⟩], node [some ⟨1⟩, none, some ⟨1⟩]]⟩

theorem Setup.optimize_optimize_compacting :
    let done := compactingSetup.optimize 0 holedGraph [some ⟨2⟩, some ⟨1⟩]
    let again := compactingSetup.optimize 100 done.graph done.list
    done.list ≠ [some ⟨2⟩, some ⟨1⟩] ∧
      (∃ steps, again.result = .ok ⟨steps, 0⟩) ∧ again.list = done.list ∧
        again.graph = done.graph := by
  intro done again
  have hresult : done.result.toOption.isSome = true := by decide +kernel
  refine ⟨by decide +kernel, ?_⟩
  cases hok : done.result with
  | ok stats =>
      exact compactingSetup.optimize_optimize 0 100 (fun _ _ _ => Rule.stateless_compacting)
        (fun _ _ _ => Rule.candid_compacting) (by decide) hok
  | error stop =>
      rw [hok] at hresult
      cases hresult

end RenderPlan
