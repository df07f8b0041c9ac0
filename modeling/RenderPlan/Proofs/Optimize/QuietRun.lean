/-
# RenderPlan.Proofs.Optimize.QuietRun -- an optimization in which nothing happens

`Traversal` says which calls are due for a task. Here they are put together to the calls of a whole
optimization (`Setup.dueCalls`): the steps of the categories in ascending order, in each step the
rules for the list, and then the entries from left to right. If all of them find nothing to do, the
optimization makes just these calls, goes through every category once, and leaves everything as it
was but for the holes in the list.

The path of moves is built as the calls fall due. What it needs at every step is that the gate is
clean, and it is: a gate holds categories before the present one, and these have all left the set.
-/
import RenderPlan.Proofs.Optimize.Fixpoint
import RenderPlan.Proofs.Optimize.Limit
import RenderPlan.Proofs.Optimize.Traversal

namespace RenderPlan

variable {σ : Type}

/-! ## The order of a whole optimization -/

namespace Step

/-- The calls of these rules for the list, in the order of registration. -/
def listCalls (step : Step σ) (members : List (Member σ)) (list : List (Option TaskId)) :
    List (DueCall σ) :=
  (members.filter fun m => m.rule.descriptor.forList).map fun m => ⟨m, step.gate, .list list⟩

/-- The calls of a step: the rules for the list, and then the entries. -/
def calls (step : Step σ) (g : Graph) (list : List (Option TaskId)) : List (DueCall σ) :=
  step.listCalls step.members list ++ if step.forEntries then entriesCalls g step [] list else []

/-- What a step in which nothing happens leaves of the list: a walk over the entries takes the holes
out. -/
def listBehind (step : Step σ) (list : List (Option TaskId)) : List (Option TaskId) :=
  if step.forEntries then list.filter Option.isSome else list

end Step

/-- The calls of steps, one step after the other. -/
def stepsCalls (g : Graph) : List (Step σ) → List (Option TaskId) → List (DueCall σ)
  | [], _ => []
  | step :: steps, list => step.calls g list ++ stepsCalls g steps (step.listBehind list)

/-- What steps in which nothing happens leave of the list. -/
def listBehindAll (steps : List (Step σ)) (list : List (Option TaskId)) : List (Option TaskId) :=
  steps.foldl (fun list step => step.listBehind list) list

namespace Setup

/-- The steps of a category: one with all of its rules, if they run together and there are any, or
else one for each rule. -/
def stepsOf (setup : Setup σ) (c : Category) : List (Step σ) :=
  let members := Sweep.members setup c
  if c.simultaneous then (if members.isEmpty then [] else [⟨c, members⟩])
  else members.map fun m => ⟨c, [m]⟩

/-- The calls of an optimization in which nothing happens. -/
def dueCalls (setup : Setup σ) (g : Graph) (list : List (Option TaskId)) : List (DueCall σ) :=
  stepsCalls g (Category.all.flatMap setup.stepsOf) list

/-- The steps of the budget that it takes: one to leave each category, one for each category that has
rules and runs them together, and one for each rule of the others. -/
def quietSteps (setup : Setup σ) : Nat :=
  Category.count +
    (Category.all.filter fun c => c.simultaneous ∧ setup.registry.rules c ≠ []).length +
    ((Category.all.filter fun c => !c.simultaneous).map fun c =>
      (setup.registry.rules c).length).sum

end Setup

theorem stepsCalls_append (g : Graph) (steps steps' : List (Step σ)) (list : List (Option TaskId)) :
    stepsCalls g (steps ++ steps') list =
      stepsCalls g steps list ++ stepsCalls g steps' (listBehindAll steps list) := by
  induction steps generalizing list with
  | nil => rfl
  | cons step steps ih => rw [List.cons_append, stepsCalls, ih, stepsCalls, List.append_assoc]; rfl

theorem Step.filter_isSome_listBehind (step : Step σ) (list : List (Option TaskId)) :
    (step.listBehind list).filter Option.isSome = list.filter Option.isSome := by
  unfold listBehind
  split
  · rw [List.filter_filter]
    simp only [Bool.and_self]
  · rfl

theorem filter_isSome_listBehindAll (steps : List (Step σ)) (list : List (Option TaskId)) :
    (listBehindAll steps list).filter Option.isSome = list.filter Option.isSome := by
  induction steps generalizing list with
  | nil => rfl
  | cons step steps ih => exact (ih _).trans (step.filter_isSome_listBehind list)

/-- The tasks of the list stay. -/
theorem Step.some_mem_of_listBehind {step : Step σ} {list : List (Option TaskId)} {task : TaskId}
    (h : some task ∈ step.listBehind list) : some task ∈ list := by
  unfold listBehind at h
  split at h
  · exact List.mem_of_mem_filter h
  · exact h

theorem some_mem_of_listBehindAll {steps : List (Step σ)} {list : List (Option TaskId)}
    {task : TaskId} (h : some task ∈ listBehindAll steps list) : some task ∈ list := by
  induction steps generalizing list with
  | nil => exact h
  | cons step steps ih => exact Step.some_mem_of_listBehind (ih h)

/-- What the steps of some categories add up to. -/
theorem Setup.length_flatMap_stepsOf (setup : Setup σ) (cs : List Category) :
    (cs.flatMap setup.stepsOf).length =
      (cs.filter fun c => c.simultaneous ∧ setup.registry.rules c ≠ []).length +
        ((cs.filter fun c => !c.simultaneous).map fun c =>
          (setup.registry.rules c).length).sum := by
  induction cs with
  | nil => rfl
  | cons c cs ih =>
      rw [List.flatMap_cons, List.length_append, ih, List.filter_cons, List.filter_cons]
      cases hsim : c.simultaneous with
      | true => cases hrules : setup.registry.rules c <;>
          simp [stepsOf, Sweep.members, hsim, hrules]; omega
      | false =>
          simp [stepsOf, Sweep.members, hsim]
          omega

namespace Sweep

variable {setup : Setup σ} {s : Sweep} {w : Workspace σ} {step : Step σ} {g : Graph}
  {c : Category} {list : List (Option TaskId)} {k : Nat}

/-! ## One step -/

/-- The rules for the list are called. -/
theorem path_listing (hclean : ¬ s.Dirty step) (haffected : s.affected = ∅)
    (rest : List (Member σ)) (hidle : IdleAlong w.graph w.user (step.listCalls rest s.list)) :
    ∃ w', Path setup ⟨.listing step rest, s, w⟩ ⟨.listing step [], s, w'⟩ ∧
      w.After 0 (step.listCalls rest s.list) w' := by
  induction rest generalizing w with
  | nil => exact ⟨w, .refl, .refl w⟩
  | cons m rest ih =>
      rw [Step.listCalls, List.filter_cons] at hidle ⊢
      cases hlist : m.rule.descriptor.forList with
      | false =>
          rw [hlist, if_neg Bool.false_ne_true] at hidle
          rw [if_neg Bool.false_ne_true]
          obtain ⟨w', hpath, hafter⟩ := ih hidle
          exact ⟨w', .head (.skip hclean hlist) hpath, hafter⟩
      | true =>
          rw [hlist, if_pos rfl] at hidle
          rw [if_pos rfl]
          have hfault : (answer step.gate m s w).fault = none := hidle.1.1
          have hgraph : (answer step.gate m s w).call.graph = w.graph := hidle.1.2.1
          have hsame : (answer step.gate m s w).call.list = s.list := hidle.1.2.2.1
          have haffects : (answer step.gate m s w).call.affects = ∅ := hidle.1.2.2.2
          have hrecord : record step.gate m s w = ⟨m.id, .list s.list, ∅, false⟩ := by
            simp [record, hsame, haffects]
          have hcalled : w.After 0 [⟨m, step.gate, .list s.list⟩]
              (workspaceAfter step.gate m s w) := by
            refine ⟨hgraph, rfl, ?_, rfl⟩
            rw [workspaceAfter, hrecord]
            exact Journal.calls_cons
          have hmove : Move setup ⟨.listing step (m :: rest), s, w⟩
              ⟨.listing step rest, s, workspaceAfter step.gate m s w⟩ := by
            have hcall : Move setup ⟨.listing step (m :: rest), s, w⟩ ⟨.listing step rest, _, _⟩ :=
              .call hclean hlist hfault
            rw [hrecord, withList, hsame] at hcall
            rwa [report_empty haffected] at hcall
          obtain ⟨w', hpath, hafter⟩ := ih (hcalled.idle_rest hidle)
          exact ⟨w', .head hmove hpath, hcalled.trans hafter⟩

/-- The entries are visited, and the holes are taken out. -/
theorem path_visiting (hclean : ¬ s.Dirty step) (haffected : s.affected = ∅)
    (hlimit : g.size + g.width + 2 ≤ setup.visitLimit) (before after : List (Option TaskId))
    (hsound : ∀ task, some task ∈ after → g.SoundAt task) (hg : w.graph = g)
    (hidle : IdleAlong g w.user (entriesCalls g step before after)) :
    ∃ w', Path setup ⟨.visiting step before after, s, w⟩
        ⟨.visiting step ((after.filter Option.isSome).reverse ++ before) [], s, w'⟩ ∧
      w.After 0 (entriesCalls g step before after) w' := by
  induction after generalizing before w with
  | nil => exact ⟨w, .refl, .refl w⟩
  | cons entry after ih =>
      have hrest : ∀ task, some task ∈ after → g.SoundAt task := fun task htask =>
        hsound task (List.mem_cons_of_mem _ htask)
      cases entry with
      | none =>
          obtain ⟨w', hpath, hafter⟩ := ih before hrest hg hidle
          exact ⟨w', .head (.hole hclean) hpath, hafter⟩
      | some task =>
          rw [entriesCalls] at hidle ⊢
          obtain ⟨hfirst, hlater⟩ := idleAlong_append.mp hidle
          have hlevels : g.size < ([] : List TaskId).length + (g.size + 1) := by simp
          have hdepth : (g.size + 1) + g.width + 1 ≤ setup.visitLimit := by omega
          obtain ⟨w', hvisit, hafter⟩ := Visit.visit_idle ⟨rfl, rfl⟩ rfl
            (hsound task (List.mem_cons_self ..)) (Graph.above_nil task) hlevels hdepth hg hfirst
          have hdone : ¬ TaskView.Repeats
              (.ofEntry (before.reverse ++ some task :: after) step.gate task) task := by
            rintro ⟨new, hnew, hother, _⟩
            exact hother (Option.some.inj hnew).symm
          have hsame : s.report (TaskView.affects
              (.ofEntry (before.reverse ++ some task :: after) step.gate task)) = s :=
            report_empty haffected
          have hmove := Move.visit hclean hvisit hdone
          rw [hsame] at hmove
          have hnoted := hafter.note (e := listEntry before.length task
            (.ofEntry (before.reverse ++ some task :: after) step.gate task)) rfl
          obtain ⟨w'', hpath, hafter'⟩ := ih (some task :: before) hrest (hnoted.graph.trans hg)
            (by rw [hnoted.user, hg]; exact hlater)
          have hdone : ((some task :: after).filter Option.isSome).reverse ++ before =
              (after.filter Option.isSome).reverse ++ some task :: before := by simp
          rw [hdone]
          exact ⟨w'', .head hmove hpath, hnoted.trans hafter'⟩

/-- The sweep stands at this place with this list, and has found nothing to do so far. -/
structure QuietAt (position nextRule : Nat) (list : List (Option TaskId)) (s : Sweep) : Prop where
  position : s.position = position
  nextRule : s.nextRule = nextRule
  entries : s.list = list
  affected : s.affected = ∅
  pending : ∀ c, c ∈ s.pending ↔ s.position ≤ c.index
  strict : s.pending.isStrict = true
  restarts : s.restarts = 0
  stopped : s.stopped = none

theorem QuietAt.here (h : s.QuietAt c.index k list) : Category.ofIndex? s.position = some c := by
  rw [h.position]
  exact c.ofIndex?_index

theorem QuietAt.mem_pending (h : s.QuietAt c.index k list) : c ∈ s.pending :=
  (h.pending c).mpr (Nat.le_of_eq h.position)

/-- A turn begins. -/
theorem QuietAt.path_spend (h : s.QuietAt c.index k list) (hbudget : w.steps + 1 ≤ setup.maxSteps) :
    ∃ s' w', Move setup ⟨.between, s, w⟩ ⟨.turning, s', w'⟩ ∧ s'.QuietAt c.index k list ∧
      w.After 1 [] w' := by
  have hpending : s.pending.isEmpty = false := by
    rw [← Bool.not_eq_true]
    exact fun hempty => Mask.notMem_of_isEmpty hempty h.mem_pending
  exact ⟨_, _, .spend hpending hbudget, { h with },
    ⟨rfl, rfl, (List.append_nil _).symm, rfl⟩⟩

/-- A category whose rules are done is settled, and the next one is reached. -/
theorem QuietAt.path_settle (h : s.QuietAt c.index k list)
    (hdone : (members setup c)[k]? = none) (hbudget : w.steps + 1 ≤ setup.maxSteps) :
    ∃ s' w', Path setup ⟨.between, s, w⟩ ⟨.between, s', w'⟩ ∧
      s'.QuietAt (c.index + 1) 0 list ∧ w.After 1 [] w' := by
  obtain ⟨t, u, hspend, ht, hu⟩ := h.path_spend hbudget
  have hmove := Move.settle (w := u) ht.here ht.mem_pending (by rw [ht.nextRule]; exact hdone)
  refine ⟨_, _, .head hspend (.single hmove), ?_, hu.note rfl⟩
  refine ⟨congrArg (· + 1) ht.position, rfl, ht.entries, rfl,
    fun d => mem_settle ht.here ht.affected ht.pending, ?_, ht.restarts, ht.stopped⟩
  rw [pending_settle ht.affected]
  exact Mask.isStrict_sdiff ht.strict

/-- Categories in a row begin with the one at their place. -/
theorem index_of_prefix {cs : List Category} {i : Nat} (h : c :: cs <+: Category.all.drop i) :
    c.index = i ∧ cs <+: Category.all.drop (i + 1) := by
  obtain ⟨rest, hrest⟩ := h
  have hhere : Category.ofIndex? i = some c := by
    rw [Category.ofIndex?, ← List.head?_drop, ← hrest]
    rfl
  refine ⟨Category.index_of_ofIndex?_eq_some hhere, rest, ?_⟩
  rw [← List.tail_drop, ← hrest]
  rfl

/-- Categories without rules are settled one after the other. -/
theorem QuietAt.path_skip {cs : List Category} {i : Nat} (hcs : cs <+: Category.all.drop i)
    (hempty : ∀ c ∈ cs, members setup c = []) (h : s.QuietAt i 0 list)
    (hbudget : w.steps + cs.length ≤ setup.maxSteps) :
    ∃ s' w', Path setup ⟨.between, s, w⟩ ⟨.between, s', w'⟩ ∧
      s'.QuietAt (i + cs.length) 0 list ∧ w.After cs.length [] w' := by
  induction cs generalizing i s w with
  | nil => exact ⟨s, w, .refl, h, .refl w⟩
  | cons c cs ih =>
      obtain ⟨rfl, hnext⟩ := index_of_prefix hcs
      obtain ⟨hnone, hempty⟩ := List.forall_mem_cons.mp hempty
      rw [List.length_cons] at hbudget
      obtain ⟨t, u, hpath, ht, hu⟩ := h.path_settle (w := w) (by rw [hnone]; rfl) (by omega)
      obtain ⟨t', u', hpath', ht', hu'⟩ := ih hnext hempty ht (by rw [hu.steps]; omega)
      refine ⟨t', u', hpath.trans hpath', ?_, ?_⟩
      · rw [List.length_cons, Nat.add_comm cs.length, ← Nat.add_assoc]
        exact ht'
      · rw [List.length_cons, Nat.add_comm]
        exact hu.trans hu'

/-- A step begins, and the list is logged if this is wanted. -/
theorem QuietAt.path_begin {next : Member σ} (h : s.QuietAt c.index k list)
    (hrule : (members setup c)[k]? = some next)
    (hsound : ∀ task, some task ∈ list → g.SoundAt task) (hg : w.graph = g) :
    ∃ w', Move setup ⟨.turning, s, w⟩
        ⟨.listing (stepAt setup c next) (stepAt setup c next).members, s, w'⟩ ∧
      w.After 0 [] w' := by
  have hrule' : (members setup c)[s.nextRule]? = some next := h.nextRule.symm ▸ hrule
  have hclean : c.simultaneous = false →
      s.affected.intersects (next.rule.descriptor.dependsFrom ∩ c.mask) = false := by
    intro _
    rw [h.affected]
    exact Bool.eq_false_iff.mpr Mask.not_intersects_empty
  have hbegun : w.After 0 [] (s.stepBegun (stepAt setup c next) w) :=
    (Workspace.After.refl w).note rfl
  cases hlogs : setup.logSteps with
  | false => exact ⟨_, .begin h.here h.mem_pending hrule' hclean hlogs, hbegun⟩
  | true =>
      have hlist : ∀ task, some task ∈ s.list → w.graph.SoundAt task := by
        rw [hg, h.entries]
        exact hsound
      obtain ⟨lines, hdump⟩ := Graph.exists_dump hlist s.stepTitle
      exact ⟨_, .beginLogged h.here h.mem_pending hrule' hclean hlogs hdump, hbegun.note rfl⟩

/-- A turn begins, and with it a step. Nothing that the step relies on is pending. -/
theorem QuietAt.path_enter {next : Member σ} (h : s.QuietAt c.index k list)
    (hrule : (members setup c)[k]? = some next) (hwhole : c.simultaneous = true → k = 0)
    (hstep : step = stepAt setup c next)
    (hsound : ∀ task, some task ∈ list → w.graph.SoundAt task)
    (hbudget : w.steps + 1 ≤ setup.maxSteps) :
    ∃ s' w', Path setup ⟨.between, s, w⟩ ⟨.listing step step.members, s', w'⟩ ∧
      s'.QuietAt c.index k list ∧ ¬ s'.Dirty step ∧ w.After 1 [] w' := by
  obtain ⟨t, u, hspend, ht, hu⟩ := h.path_spend hbudget
  obtain ⟨u', hbegin, hu'⟩ := ht.path_begin hrule hsound hu.graph
  have hwhole' : t.Whole setup := by
    intro d hd hsim
    obtain rfl : c = d := Option.some.inj (ht.here.symm.trans hd)
    exact Or.inl (ht.nextRule.trans (hwhole hsim))
  have hstands : t.Stepping setup step := by
    rw [hstep]
    exact hwhole'.stepping ht.here (ht.nextRule.symm ▸ hrule)
  rw [← hstep] at hbegin
  exact ⟨t, u', .head hspend (.single hbegin), ht, not_dirty hstands ht.pending ht.strict,
    hu.trans hu'⟩

/-- A step is done: the calls that are due are made, and the sweep stands behind the step. -/
theorem QuietAt.path_step {next : Member σ} (h : s.QuietAt c.index k list)
    (hrule : (members setup c)[k]? = some next) (hwhole : c.simultaneous = true → k = 0)
    (hstep : step = stepAt setup c next)
    (hsound : ∀ task, some task ∈ list → g.SoundAt task)
    (hlimit : g.size + g.width + 2 ≤ setup.visitLimit) (hbudget : w.steps + 1 ≤ setup.maxSteps)
    (hg : w.graph = g) (hidle : IdleAlong g w.user (step.calls g list)) :
    ∃ s' w', Path setup ⟨.between, s, w⟩ ⟨.between, s', w'⟩ ∧
      s'.QuietAt c.index (k + step.members.length) (step.listBehind list) ∧
      w.After 1 (step.calls g list) w' := by
  subst hg
  obtain ⟨t, u, hentered, ht, hclean, hbegun⟩ := h.path_enter hrule hwhole hstep hsound hbudget
  have hentries := ht.entries
  subst hentries
  obtain ⟨hlists, htasks⟩ := idleAlong_append.mp hidle
  obtain ⟨u', hlisting, hu'⟩ := path_listing (w := u) hclean ht.affected step.members
    (by rw [hbegun.graph, hbegun.user]; exact hlists)
  have hlisted := hbegun.trans hu'
  have hbefore : Path setup ⟨.between, s, w⟩ ⟨.listing step [], t, u'⟩ := hentered.trans hlisting
  cases hentries : step.forEntries with
  | false =>
      rw [Step.calls, Step.listBehind, hentries]
      refine ⟨t.behind step, u', hbefore.tail (.finishList hclean hentries), ?_, ?_⟩
      · exact { ht with nextRule := congrArg (· + step.members.length) ht.nextRule }
      · simpa using hlisted
  | true =>
      rw [hentries] at htasks
      obtain ⟨v, hvisiting, hv⟩ := path_visiting (w := u') hclean ht.affected hlimit [] t.list
        hsound hlisted.graph (by rw [hlisted.user]; exact htasks)
      rw [Step.calls, Step.listBehind, hentries]
      refine ⟨_, v, (hbefore.tail (.descend hclean hentries)).trans
        (hvisiting.tail (.finish hclean)), ?_, hlisted.trans hv⟩
      exact { ht with
        nextRule := congrArg (· + step.members.length) ht.nextRule
        entries := by simp [Sweep.behind] }

/-! ## From category to category -/

/-- The rules of a category that runs them one at a time, from one of them on. -/
theorem QuietAt.path_singles (hsim : c.simultaneous = false)
    (hlimit : g.size + g.width + 2 ≤ setup.visitLimit) {rest : List (Member σ)}
    (hrest : (members setup c).drop k = rest) (h : s.QuietAt c.index k list)
    (hsound : ∀ task, some task ∈ list → g.SoundAt task)
    (hbudget : w.steps + (rest.length + 1) ≤ setup.maxSteps) (hg : w.graph = g)
    (hidle : IdleAlong g w.user (stepsCalls g (rest.map fun m => ⟨c, [m]⟩) list)) :
    ∃ s' w', Path setup ⟨.between, s, w⟩ ⟨.between, s', w'⟩ ∧
      s'.QuietAt (c.index + 1) 0 (listBehindAll (rest.map fun m => ⟨c, [m]⟩) list) ∧
      w.After (rest.length + 1) (stepsCalls g (rest.map fun m => ⟨c, [m]⟩) list) w' := by
  induction rest generalizing k list s w with
  | nil =>
      have hdone : (members setup c)[k]? = none :=
        List.getElem?_eq_none_iff.mpr (List.drop_eq_nil_iff.mp hrest)
      exact h.path_settle hdone hbudget
  | cons m rest ih =>
      rw [List.length_cons] at hbudget ⊢
      have hrule : (members setup c)[k]? = some m := by
        rw [← List.head?_drop, hrest]
        rfl
      have hnext : (members setup c).drop (k + 1) = rest := by
        rw [← List.tail_drop, hrest]
        rfl
      have hstep : (⟨c, [m]⟩ : Step σ) = stepAt setup c m := by
        rw [stepAt, if_neg (Bool.eq_false_iff.mp hsim)]
      obtain ⟨hfirst, hlater⟩ := idleAlong_append.mp hidle
      obtain ⟨t, u, hpath, ht, hu⟩ := h.path_step hrule
        (fun hsim' => absurd (hsim.symm.trans hsim') Bool.false_ne_true) hstep hsound hlimit
        (by omega) hg hfirst
      obtain ⟨t', u', hpath', ht', hu'⟩ := ih hnext ht
        (fun task htask => hsound task (Step.some_mem_of_listBehind htask))
        (by rw [hu.steps]; omega) (hu.graph.trans hg) (by rw [hu.user, hg]; exact hlater)
      refine ⟨t', u', hpath.trans hpath', ht', ?_⟩
      rw [Nat.add_comm (rest.length + 1)]
      exact hu.trans hu'

/-- A whole category. -/
theorem QuietAt.path_category (hlimit : g.size + g.width + 2 ≤ setup.visitLimit)
    (h : s.QuietAt c.index 0 list) (hsound : ∀ task, some task ∈ list → g.SoundAt task)
    (hbudget : w.steps + ((setup.stepsOf c).length + 1) ≤ setup.maxSteps) (hg : w.graph = g)
    (hidle : IdleAlong g w.user (stepsCalls g (setup.stepsOf c) list)) :
    ∃ s' w', Path setup ⟨.between, s, w⟩ ⟨.between, s', w'⟩ ∧
      s'.QuietAt (c.index + 1) 0 (listBehindAll (setup.stepsOf c) list) ∧
      w.After ((setup.stepsOf c).length + 1) (stepsCalls g (setup.stepsOf c) list) w' := by
  cases hsim : c.simultaneous with
  | false =>
      have hsteps : setup.stepsOf c = (members setup c).map fun m => ⟨c, [m]⟩ := by
        rw [Setup.stepsOf, if_neg (Bool.eq_false_iff.mp hsim)]
      rw [hsteps] at hidle hbudget ⊢
      rw [List.length_map] at hbudget ⊢
      exact h.path_singles hsim hlimit List.drop_zero hsound hbudget hg hidle
  | true =>
      cases hmembers : members setup c with
      | nil =>
          have hsteps : setup.stepsOf c = [] := by simp [Setup.stepsOf, hsim, hmembers]
          rw [hsteps] at hbudget ⊢
          exact h.path_settle (by rw [hmembers]; rfl) hbudget
      | cons next rest =>
          have hsteps : setup.stepsOf c = [⟨c, members setup c⟩] := by
            simp [Setup.stepsOf, hsim, hmembers]
          rw [hsteps] at hidle hbudget ⊢
          rw [List.length_singleton] at hbudget ⊢
          have hstep : (⟨c, members setup c⟩ : Step σ) = stepAt setup c next := by
            rw [stepAt, if_pos hsim]
          obtain ⟨t, u, hpath, ht, hu⟩ := h.path_step (by rw [hmembers]; rfl) (fun _ => rfl) hstep
            hsound hlimit (by omega) hg (idleAlong_append.mp hidle).1
          have hend : (members setup c)[0 + (members setup c).length]? = none :=
            List.getElem?_eq_none_iff.mpr (Nat.le_of_eq (Nat.zero_add _).symm)
          obtain ⟨t', u', hpath', ht', hu'⟩ := ht.path_settle hend (by rw [hu.steps]; omega)
          exact ⟨t', u', hpath.trans hpath', ht', hu.trans hu'⟩

/-- All categories from a place on. -/
theorem QuietAt.path_categories (hlimit : g.size + g.width + 2 ≤ setup.visitLimit)
    {cs : List Category} {i : Nat} (hcs : cs <+: Category.all.drop i) (h : s.QuietAt i 0 list)
    (hsound : ∀ task, some task ∈ list → g.SoundAt task)
    (hbudget : w.steps + ((cs.flatMap setup.stepsOf).length + cs.length) ≤ setup.maxSteps)
    (hg : w.graph = g)
    (hidle : IdleAlong g w.user (stepsCalls g (cs.flatMap setup.stepsOf) list)) :
    ∃ s' w', Path setup ⟨.between, s, w⟩ ⟨.between, s', w'⟩ ∧
      s'.QuietAt (i + cs.length) 0 (listBehindAll (cs.flatMap setup.stepsOf) list) ∧
      w.After ((cs.flatMap setup.stepsOf).length + cs.length)
        (stepsCalls g (cs.flatMap setup.stepsOf) list) w' := by
  induction cs generalizing i list s w with
  | nil => exact ⟨s, w, .refl, h, .refl w⟩
  | cons c cs ih =>
      obtain ⟨rfl, hnext⟩ := index_of_prefix hcs
      rw [List.flatMap_cons, List.length_append, List.length_cons] at hbudget
      rw [List.flatMap_cons, stepsCalls_append] at hidle
      obtain ⟨hfirst, hlater⟩ := idleAlong_append.mp hidle
      obtain ⟨t, u, hpath, ht, hu⟩ := h.path_category hlimit hsound (by omega) hg hfirst
      obtain ⟨t', u', hpath', ht', hu'⟩ := ih hnext ht
        (fun task htask => hsound task (some_mem_of_listBehindAll htask))
        (by rw [hu.steps]; omega) (hu.graph.trans hg) (by rw [hu.user, hg]; exact hlater)
      refine ⟨t', u', hpath.trans hpath', ?_, ?_⟩
      · rw [List.flatMap_cons, listBehindAll, List.foldl_append, List.length_cons,
          Nat.add_comm cs.length, ← Nat.add_assoc]
        exact ht'
      · rw [List.flatMap_cons, stepsCalls_append, List.length_append, List.length_cons]
        have hboth := hu.trans hu'
        rwa [show (setup.stepsOf c).length + 1 + ((cs.flatMap setup.stepsOf).length + cs.length) =
          (setup.stepsOf c).length + (cs.flatMap setup.stepsOf).length + (cs.length + 1) by
            omega] at hboth

/-! ## From the beginning to the end -/

/-- In the beginning every category is to be processed. -/
theorem quietAt_start (list : List (Option TaskId)) : (Sweep.start list).QuietAt 0 0 list :=
  ⟨rfl, rfl, rfl, rfl, fun _ => ⟨fun _ => Nat.zero_le _, fun _ => Mask.mem_full⟩,
    Mask.isStrict_full, rfl, rfl⟩

/-- Behind the last category nothing is pending any more, and that is where the optimization ends. -/
theorem QuietAt.optimize_eq {user : σ} {entries : List (Option TaskId)}
    (h : s.QuietAt Category.count 0 list)
    (hpath : Path setup (Setup.start user g entries) ⟨.between, s, w⟩) :
    setup.optimize user g entries =
      ⟨.ok ⟨w.steps, 0⟩, list.filter Option.isSome, w.user, w.graph, w.journal, s.turns⟩ := by
  have hempty : s.pending.isEmpty = true := by
    cases hpending : s.pending.isEmpty with
    | true => rfl
    | false =>
        obtain ⟨c, hc⟩ := Mask.exists_mem_of_isStrict h.strict hpending
        have hle := (h.pending c).mp hc
        rw [h.position] at hle
        exact absurd c.index_lt_count (Nat.not_lt_of_le hle)
  rw [Setup.optimize_of_path hpath (Or.inr ⟨rfl, hempty⟩), Situation.remains, h.stopped]
  dsimp only
  rw [h.entries, h.restarts]

end Sweep

open Sweep

/-- **An optimization in which nothing happens goes through everything once.** If the calls that are
due find nothing to do, each with the memory that the calls before it left behind, an optimization
makes just these calls in just this order. It takes as many steps as it has turns to take and never
goes back; it leaves the graph as it was, and of the list it leaves all but the holes. -/
theorem Setup.optimize_traverses (setup : Setup σ) (user : σ) (graph : Graph)
    (list : List (Option TaskId)) (hsound : graph.WellFormed (list.filterMap id))
    (hidle : IdleAlong graph user (setup.dueCalls graph list))
    (hbudget : setup.quietSteps ≤ setup.maxSteps)
    (hlimit : graph.size + graph.width + 2 ≤ setup.visitLimit) :
    let done := setup.optimize user graph list
    done.result = .ok ⟨setup.quietSteps, 0⟩ ∧ done.graph = graph ∧
      done.list = list.filter Option.isSome ∧
      done.journal.calls = (setup.dueCalls graph list).map DueCall.record ∧
      done.user = rememberedAlong graph user (setup.dueCalls graph list) := by
  have hsteps : (Category.all.flatMap setup.stepsOf).length + Category.all.length =
      setup.quietSteps := by
    rw [setup.length_flatMap_stepsOf, Nat.add_comm, ← Nat.add_assoc]
    rfl
  have hroots : ∀ task, some task ∈ list → graph.SoundAt task := by
    intro task htask
    exact Graph.wellFormed_iff.mp hsound task (List.mem_filterMap.mpr ⟨_, htask, rfl⟩)
  obtain ⟨s, w, hpath, hs, hw⟩ := (quietAt_start list).path_categories (w := ⟨user, graph, 0, []⟩)
    hlimit (List.prefix_refl Category.all) hroots (by rw [hsteps]; exact (Nat.zero_add _).symm ▸ hbudget) rfl hidle
  have hend : 0 + Category.all.length = Category.count := Nat.zero_add _
  rw [hend] at hs
  rw [hs.optimize_eq hpath]
  refine ⟨?_, hw.graph, filter_isSome_listBehindAll _ _, hw.calls.trans (List.nil_append _), hw.user⟩
  dsimp only
  rw [hw.steps, hsteps, Nat.zero_add]

/-! ### Counting calls

The rules do nothing but count their calls. They are of all kinds: for the list, for the entries,
for all tasks, before and after the sub-tasks, and some of them rely on other categories. -/

/-- A rule that counts its calls. -/
def Rule.counting (d : Descriptor) : Rule Nat where
  name := "count"
  descriptor := d
  runList c := { call := { c with user := c.user + 1 } }
  runTask c := { call := { c with user := c.user + 1 } }

/-- Two rules that run together, two that run one at a time, and one for the list alone. -/
def countingSetup : Setup Nat where
  rules id := .counting (match id.index with
    | 0 => { Descriptor.ofCategory .common with forTask := true }
    | 1 => { Descriptor.ofCategory .common with forList := true, forTask := true, deepFirst := true }
    | 2 => { Descriptor.ofCategory .linear with
        forRootTask := true, dependsFrom := Category.common.mask }
    | 3 => { Descriptor.ofCategory .linear with
        forTask := true, deepFirst := true, dependsFrom := Category.linear.mask }
    | _ => { Descriptor.ofCategory .list with forList := true, dependsFrom := .full })
  registry := ⟨fun
    | .common => [⟨0⟩, ⟨1⟩]
    | .linear => [⟨2⟩, ⟨3⟩]
    | .list => [⟨4⟩]
    | _ => []⟩
  maxSteps := 11
  logSteps := true
  visitLimit := 8

theorem Setup.optimize_traverses_counting :
    let list := [some ⟨2⟩, none, some ⟨1⟩]
    let done := countingSetup.optimize 0 holedGraph list
    done.result = .ok ⟨11, 0⟩ ∧ done.graph = holedGraph ∧ done.list = [some ⟨2⟩, some ⟨1⟩] ∧
      done.journal.calls.map CallRecord.rule =
        [⟨1⟩, ⟨0⟩, ⟨0⟩, ⟨0⟩, ⟨1⟩, ⟨1⟩, ⟨0⟩, ⟨0⟩, ⟨1⟩, ⟨1⟩, ⟨1⟩, ⟨0⟩, ⟨0⟩, ⟨1⟩, ⟨1⟩,
          ⟨2⟩, ⟨2⟩, ⟨3⟩, ⟨3⟩, ⟨3⟩, ⟨3⟩, ⟨3⟩, ⟨3⟩, ⟨3⟩, ⟨4⟩] ∧
      done.user = 25 := by
  intro list done
  obtain ⟨hresult, hgraph, hlist, hcalls, huser⟩ := countingSetup.optimize_traverses 0 holedGraph
    list (Graph.wellFormed_of_older (by decide) (by decide)) (by decide +kernel) (by decide)
    (by decide)
  refine ⟨hresult, hgraph, hlist, ?_, huser.trans (by decide +kernel)⟩
  rw [hcalls]
  decide +kernel

end RenderPlan
