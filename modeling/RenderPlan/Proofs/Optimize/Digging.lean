/-
# RenderPlan.Proofs.Optimize.Digging -- visits under rules that do not grow trees

A rule digs if whatever hangs below its answer hung below the task before: it may take a task away,
put something from below in its place, drop slots, or change the node itself. If all the rules that
apply at any depth before the sub-tasks dig, a visit of a sub-task begins strictly below the visit
around it, unless a step of the budget was spent in between. So there is no descent without end
(`Visit.halts_of_digs`). Rules for entries alone, and rules that come after the sub-tasks, may grow
trees as they like: it happens once a visit, or what they put there is visited once more and a step
is spent on it.
-/
import RenderPlan.Proofs.Optimize.Descent
import Mathlib.Data.Set.Finite.Basic
import Mathlib.Order.WellFounded

namespace RenderPlan

variable {σ : Type}

namespace Graph

variable {g : Graph} {task : TaskId}

/-- Induction over a sound tree: what holds of a task if it holds of all that lies below the task,
holds of the task. -/
theorem SoundAt.below_induction {P : TaskId → Prop} (hs : g.SoundAt task)
    (step : ∀ a, g.SoundAt a → (∀ b, g.Below a b → P b) → P a) : P task := by
  -- there are no more sound tasks than nodes
  let Sound := { a : TaskId // g.SoundAt a }
  have hindex : ∀ a : Sound, a.1.index < g.size := by
    intro a
    have hexists := (a.2 a.1 (.refl a.1)).1
    simpa [get?, size] using hexists
  let index : Sound → Fin g.size := fun a => ⟨a.1.index, hindex a⟩
  have hinjective : Function.Injective index := by
    intro a b hab
    exact Subtype.ext (eq_of_index_eq (congrArg Fin.val hab))
  have : Finite Sound := .of_injective index hinjective
  let below : Sound → Sound → Prop := fun b a => g.Below a.1 b.1
  have : IsTrans Sound below := ⟨fun _ _ _ hba hcb => hcb.trans hba⟩
  have : Std.Irrefl below := ⟨fun a => a.2.not_below⟩
  suffices hall : ∀ a : Sound, P a.1 from hall ⟨task, hs⟩
  intro a
  induction a using (Finite.wellFounded_of_trans_of_irrefl below).induction with
  | _ a ih => exact step a.1 a.2 fun b hb => ih ⟨b, hb.soundAt a.2⟩ hb

end Graph

/-- The visit begins at a well-formed tree and within the budget. -/
structure Entrance.Sound (maxSteps : Nat) (x : Entrance σ) : Prop where
  tree : x.work.graph.WellFormed x.view.task.toList
  steps : x.work.steps ≤ maxSteps

/-- Where the rule applies at any depth, before the sub-tasks, what hangs below its answer hung
below the task before. -/
def Rule.Digs (r : Rule σ) : Prop :=
  r.descriptor.forTask = true → r.descriptor.deepFirst = false →
    ∀ (c : TaskCall σ) (task : TaskId), c.view.task = some task → c.graph.SoundAt task →
      (r.runTask c).fault = none → ∀ answer child, (r.runTask c).call.view.task = some answer →
        (r.runTask c).call.graph.HasSubTask answer child → c.graph.Below task child

theorem Rule.additive_unwrapping : Rule.unwrapping.Additive where
  list _ := .refl _
  task c := by
    dsimp only [Rule.unwrapping]
    split
    · exact .refl _
    · exact .refl _

theorem Rule.digs_unwrapping : Rule.unwrapping.Digs := by
  intro _ _ c task htask hs _ answer child
  dsimp only [Rule.unwrapping]
  split
  · next sub hslots =>
      intro hanswer hchild
      obtain rfl : sub = answer := Option.some.inj hanswer
      obtain ⟨n, hn⟩ := hs.exists_node
      have hsub : n.subTasks = [some sub] := by simpa [htask, Graph.slots, hn] using hslots
      exact ⟨sub, ⟨n, hn, by simp [hsub]⟩, .single hchild⟩
  · intro hanswer hchild
    obtain rfl : task = answer := Option.some.inj (htask.symm.trans hanswer)
    exact ⟨child, hchild, .refl child⟩

namespace Visit

open Work

variable {maxSteps : Nat} {rules : List (Member σ)} {x y : Entrance σ} {p : SlotPoint}
  {w₀ w : Workspace σ} {v : TaskView} {root : TaskId}

/-! ## Within one visit -/

/-- What the early rules have made of a task, so far. -/
structure Dug (w₀ : Workspace σ) (root : TaskId) (v : TaskView) (w : Workspace σ) : Prop where
  regrafts : w₀.graph.Regrafts [root] w.graph v.task.toList
  below : ∀ task child, v.task = some task → w.graph.HasSubTask task child →
    w₀.graph.Below root child

theorem Dug.start (hs : w₀.graph.SoundAt root) (htask : v.task = some root) : Dug w₀ root v w₀ where
  regrafts := by
    rw [htask]
    exact .refl (by simpa [Graph.wellFormed_iff] using hs)
  below := by
    intro task child heq hchild
    obtain rfl : root = task := Option.some.inj (htask.symm.trans heq)
    exact ⟨child, hchild, .refl child⟩

/-- One more rule digs on from there. -/
theorem Dug.call {m : Member σ} (h : Dug w₀ root v w) (hs : w₀.graph.SoundAt root)
    (hkeeps : m.rule.Regrafts) (hdigs : m.rule.Digs) (hdeep : m.rule.descriptor.forTask = true)
    (hearly : m.rule.descriptor.deepFirst = false) (hfresh : v.isStale = false)
    (hreturns : (answer m v w).fault = none) :
    Dug w₀ root (viewAfter m v w) (workspaceAfter m v w) := by
  obtain ⟨task, htask⟩ := Option.isSome_iff_exists.mp (TaskView.isStale_eq_false_iff.mp hfresh).1
  have hcall := hkeeps.task ⟨w.user, w.graph, v⟩ h.regrafts.sound hreturns
  refine ⟨h.regrafts.trans hcall, ?_⟩
  intro answer child hanswer hchild
  have htree : w.graph.SoundAt task := h.regrafts.sound task (by simp [htask])
  obtain ⟨sub, hsub, hrest⟩ := hdigs hdeep hearly ⟨w.user, w.graph, v⟩ task htask htree hreturns
    answer child hanswer hchild
  -- what hung below the task before hung below the root from the beginning
  obtain ⟨first, hfirst, hthere⟩ := h.below task sub htask hsub
  have hsubtree : w₀.graph.SoundAt sub := (hs.subTask hfirst).of_reaches hthere
  exact ⟨first, hfirst, hthere.trans ((h.regrafts.grows.reaches_iff hsubtree).mp hrest)⟩

/-- All the early rules dig, one after the other. -/
theorem ensures_dug (hrules : ∀ m ∈ rules, m.rule.Regrafts) (hdigs : ∀ m ∈ rules, m.rule.Digs)
    (hs : w₀.graph.SoundAt root) (h : Dug w₀ root v w) (hfresh : v.isStale = false)
    (hparent : v.parent.isSome = true) :
    (applyRules false rules v).Ensures w fun r w' =>
      ∀ v' goesOn, r = .ok (v', goesOn) → Dug w₀ root v' w' := by
  induction rules generalizing v w with
  | nil =>
      rintro _ _ ⟨⟩
      exact h
  | cons m rules ih =>
      obtain ⟨hkeeps, hrules⟩ := List.forall_mem_cons.mp hrules
      obtain ⟨hdigsFirst, hdigs⟩ := List.forall_mem_cons.mp hdigs
      dsimp only [applyRules]
      split
      · next happlies =>
          have hdeep : m.rule.descriptor.forTask = true := by
            simpa [Descriptor.appliesToTask, hparent] using happlies.2
          have hcall : (callRule m v).Ensures w fun r w' =>
              ∀ v', r = .ok v' → Dug w₀ root v' w' ∧ v'.parent.isSome = true := by
            unfold Ensures
            rw [outcome_callRule]
            split
            · intro v' heq
              cases heq
            · next hreturns =>
                rintro _ ⟨⟩
                exact ⟨h.call hs hkeeps hdigsFirst hdeep happlies.1 hfresh hreturns, hparent⟩
          apply hcall.bind
          · intro v' w' hafter
            obtain ⟨hdug, hparent⟩ := hafter v' rfl
            split
            · rintro _ _ ⟨⟩
              exact hdug
            · next hgoes => exact ih hrules hdigs hdug (Bool.eq_false_iff.mpr hgoes) hparent
          · intro stop w' _ v' goesOn heq
            cases heq
      · exact ih hrules hdigs h hfresh hparent

theorem Underway.fresh (h : Underway maxSteps rules x p w) : x.view.isStale = false := by
  induction h with
  | enter hfresh => exact hfresh
  | hole _ _ _ _ ih => exact ih
  | next _ _ _ _ _ ih => exact ih

/-- As long as no step of the budget was spent, the sub-tasks that are still to be visited lie below
the task that the visit began with. -/
theorem Underway.child_below (hrules : ∀ m ∈ rules, m.rule.Regrafts)
    (hdigs : ∀ m ∈ rules, m.rule.Digs) (hx : x.Sound maxSteps) (hroot : x.view.task = some root)
    (hparent : x.view.parent.isSome = true) (h : Underway maxSteps rules x p w)
    (hsteps : w.steps = x.work.steps) {task : TaskId} {n : Node} {slot : Nat} {child : TaskId}
    (htask : p.view.task = some task) (hn : w.graph.get? task = some n) (hslot : p.slot ≤ slot)
    (hchild : n.subTasks[slot]? = some (some child)) : x.work.graph.Below root child := by
  have hs : x.work.graph.SoundAt root := hx.tree root (by simp [hroot])
  induction h generalizing task n slot with
  | @enter v w hfresh houtcome =>
      have hearly := ensures_dug hrules hdigs hs (.start hs hroot) hfresh hparent
      have hdug : Dug x.work root v w := hearly.of_outcome houtcome v true rfl
      exact hdug.below task child htask ⟨n, hn, List.mem_of_getElem? hchild⟩
  | hole _ _ _ _ ih => exact ih hsteps htask hn (Nat.le_of_succ_le hslot) hchild
  | @next p w task' child' limit seen w' q w'' hbefore hdescends houtcome hback _ ih =>
      obtain ⟨_, hbelow⟩ := (ensures_visit _ _ _ _ _ _).of_outcome houtcome
      have hcourse := hbefore.course.1
      have hearlier := hcourse.steps_le.1
      have hlater := hbelow.steps_le.1
      have hkept := (hbelow.regrafts hrules
        (hdescends.wellFormed (hcourse.regrafts hrules hx.tree).1)).1.grows
      obtain ⟨n', hn', _⟩ := hdescends.slot_eq
      cases (ensures_takeBack _ _ _ _ _ _).of_outcome hback with
      | keep =>
          replace hsteps : w'.steps = x.work.steps := hsteps
          replace hslot : p.slot + 1 ≤ slot := hslot
          obtain rfl : task' = task := Option.some.inj (hdescends.task_eq.symm.trans htask)
          obtain rfl : n' = n := Option.some.inj ((hkept _ _ hn').symm.trans hn)
          exact ih (by omega) hdescends.task_eq hn' (by omega) hchild
      | @splice m _ hm =>
          replace hsteps : w'.steps = x.work.steps := hsteps
          replace hslot : p.slot + 1 ≤ slot := hslot
          obtain rfl : n' = m := Option.some.inj ((hkept _ _ hn').symm.trans hm)
          obtain rfl := Option.some.inj htask
          -- the later slots of the copy are those of the node
          obtain rfl : n'.withSlot p.slot seen.task = n :=
            Option.some.inj ((get?_splice p.copied p.slot seen.task hm).symm.trans hn)
          rw [Node.withSlot, List.getElem?_set_ne (by omega)] at hchild
          exact ih (by omega) hdescends.task_eq hn' (by omega) hchild
      | again =>
          replace hsteps : w'.steps + 1 = x.work.steps := hsteps
          omega

/-! ## Visits within visits -/

theorem Nests.sound (hrules : ∀ m ∈ rules, m.rule.Regrafts) (hx : x.Sound maxSteps)
    (h : Nests maxSteps rules x y) : y.Sound maxSteps := by
  refine ⟨?_, h.steps_le hx.steps⟩
  obtain ⟨p, task, child, hway, hdescends, hview⟩ := h
  rw [hview]
  exact hdescends.wellFormed (hway.course.1.regrafts hrules hx.tree).1

/-- The visit of a sub-task begins below, or a step of the budget was spent before it. -/
theorem Nests.below (hrules : ∀ m ∈ rules, m.rule.Regrafts) (hdigs : ∀ m ∈ rules, m.rule.Digs)
    (hx : x.Sound maxSteps) (hroot : x.view.task = some root)
    (hparent : x.view.parent.isSome = true) (h : Nests maxSteps rules x y)
    (hsteps : y.work.steps = x.work.steps) :
    ∃ child, y.view.task = some child ∧ x.work.graph.Below root child := by
  obtain ⟨p, task, child, hway, hdescends, hview⟩ := h
  obtain ⟨n, hn, hslot⟩ := hdescends.slot_eq
  refine ⟨child, by rw [hview]; rfl, ?_⟩
  exact hway.child_below hrules hdigs hx hroot hparent hsteps hdescends.task_eq hn
    (Nat.le_refl _) hslot

theorem Nests.isSome_parent (h : Nests maxSteps rules x y) : y.view.parent.isSome = true := by
  obtain ⟨p, task, child, _, hdescends, hview⟩ := h
  rw [hview]
  exact Option.isSome_of_eq_some hdescends.task_eq

theorem Nests.grows (hadds : ∀ m ∈ rules, m.rule.Additive) (h : Nests maxSteps rules x y) :
    x.work.graph.Extends y.work.graph ∧ x.work.steps ≤ y.work.steps := by
  obtain ⟨p, _, _, hway, _⟩ := h
  have hcourse := hway.course.1
  exact ⟨(hcourse.only_adds hadds).1, hcourse.steps_le.1⟩

/-- The visit of a sub-task returns if the early rules dig. -/
theorem halts_below_of_digs (hadds : ∀ m ∈ rules, m.rule.Additive)
    (hrules : ∀ m ∈ rules, m.rule.Regrafts) (hdigs : ∀ m ∈ rules, m.rule.Digs)
    (hx : x.Sound maxSteps) (hparent : x.view.parent.isSome = true) :
    Halts maxSteps rules true x := by
  induction hleft : maxSteps - x.work.steps using Nat.strong_induction_on generalizing x with
  | _ left ihSteps =>
      -- while the steps of the budget stay the same, the descent stays in the tree
      suffices hwithin : ∀ root, x.work.graph.SoundAt root → ∀ y : Entrance σ, y.Sound maxSteps →
          y.view.parent.isSome = true → y.work.steps = x.work.steps →
          x.work.graph.Extends y.work.graph → y.view.task = some root →
          Halts maxSteps rules true y by
        rcases htask : x.view.task with _ | root
        · apply halts_of_nests hadds hx.steps
          rintro y ⟨p, _, _, hway, _⟩
          have hthere := (TaskView.isStale_eq_false_iff.mp hway.fresh).1
          rw [htask] at hthere
          cases hthere
        · exact hwithin root (hx.tree root (by simp [htask])) x hx hparent rfl (.refl _) htask
      intro root hs
      apply hs.below_induction
      intro root hs ihBelow y hy hparent hsteps hgrows hroot
      apply halts_of_nests hadds hy.steps
      intro z hz
      have hnext := hz.sound hrules hy
      obtain ⟨hmore, hlater⟩ := hz.grows hadds
      rcases Nat.eq_or_lt_of_le hlater with hsame | hspent
      · obtain ⟨child, hchild, hbelow⟩ :=
          hz.below hrules hdigs hy hroot hparent hsame.symm
        have hbelow := (hgrows.below_iff hs).mp hbelow
        exact ihBelow child hbelow z hnext hz.isSome_parent (by omega) (hgrows.trans hmore) hchild
      · have hbound := hnext.steps
        exact ihSteps (maxSteps - z.work.steps) (by omega) hnext hz.isSome_parent rfl

/-- **Every visit returns if the early rules dig.** -/
theorem halts_of_digs (hadds : ∀ m ∈ rules, m.rule.Additive)
    (hrules : ∀ m ∈ rules, m.rule.Regrafts) (hdigs : ∀ m ∈ rules, m.rule.Digs)
    (hx : x.Sound maxSteps) : Halts maxSteps rules true x := by
  apply halts_of_nests hadds hx.steps
  intro y hy
  exact halts_below_of_digs hadds hrules hdigs (hy.sound hrules hx) hy.isSome_parent

end Visit

end RenderPlan
