/-
# RenderPlan.Proofs.Optimize.Moves -- what can happen during an optimization

An optimization stands in a `Situation`: a sweep, a workspace, and the place within the turn. `Move`
has one rule for each thing that can happen next. `optimize_path` says that every optimization is a
path of moves, which ends behind a turn with nothing pending, or where the optimization stopped. So
a property of situations that holds in the beginning and is kept by every move holds at the end.

The turns and the repeated visits are counted down in the code by bounds of their own. Both bounds
are one more than the budget, and each turn and each repeated visit takes a step out of the budget,
so it is always the budget that is used up first. No move speaks of them.
-/
import RenderPlan.Optimize.Sweep
import RenderPlan.Proofs.Optimize.Course
import Mathlib.Logic.Relation

namespace RenderPlan

variable {σ : Type}

namespace Sweep

/-! ## One call for the list -/

section ListCall

variable (gate : Mask) (m : Member σ) (s : Sweep) (w : Workspace σ)

/-- What a rule answers when it is called for the list. -/
def answer : Answered (ListCall σ) := m.rule.runList ⟨w.user, w.graph, s.list, gate, ∅⟩

/-- What the journal keeps of the call. -/
def record : CallRecord :=
  let after := (answer gate m s w).call
  let changed : Bool := after.list ≠ s.list
  ⟨m.id, .list s.list, if changed then after.affects ∪ m.rule.descriptor.affects else after.affects,
    changed⟩

theorem reported_of_eq (h : (answer gate m s w).call.list = s.list) :
    (record gate m s w).reported = (answer gate m s w).call.affects := by
  simp [record, h]

theorem reported_of_ne (h : (answer gate m s w).call.list ≠ s.list) :
    (record gate m s w).reported =
      (answer gate m s w).call.affects ∪ m.rule.descriptor.affects := by
  simp [record, h]

/-- The workspace after the call. -/
def workspaceAfter : Workspace σ :=
  { w with
    user := (answer gate m s w).call.user
    graph := (answer gate m s w).call.graph
    journal := .call (record gate m s w) :: w.journal }

/-- The sweep with the list as the call left it. -/
def withList : Sweep := { s with list := (answer gate m s w).call.list }

theorem leaves_callListRule : Leaves (callListRule gate m s) w fun s' w' =>
    w' = workspaceAfter gate m s w ∧
      s' = match (answer gate m s w).fault with
        | some f => (withList gate m s w).halt (.fault f)
        | none => (withList gate m s w).report (record gate m s w).reported := by
  have hrun : (callListRule gate m s).run w =
      (match (answer gate m s w).fault with
        | some f => pure ((withList gate m s w).halt (.fault f))
        | none => pure ((withList gate m s w).report (record gate m s w).reported) :
          StateM (Workspace σ) Sweep).run (workspaceAfter gate m s w) := rfl
  unfold Leaves
  rw [hrun]
  split
  · exact ⟨rfl, rfl⟩
  · exact ⟨rfl, rfl⟩

end ListCall

end Sweep

/-! ## Situations -/

/-- Where an optimization stands within a turn. -/
inductive Phase (σ : Type) where
  /-- Between two turns. -/
  | between
  /-- At the beginning of a turn. -/
  | turning
  /-- Within a step; these rules are still to be called for the list. -/
  | listing (step : Step σ) (rest : List (Member σ))
  /-- Within a step; the entries before are done, the latest first, and these are still to be
  visited. -/
  | visiting (step : Step σ) (before after : List (Option TaskId))
  /-- At the end of an optimization that stopped. -/
  | stopped

/-- Where an optimization stands. -/
structure Situation (σ : Type) where
  phase : Phase σ
  sweep : Sweep
  work : Workspace σ

/-- The rules of the step rely on something that is not settled. -/
def Sweep.Dirty (s : Sweep) (step : Step σ) : Prop := s.pending.intersects step.gate = true

/-- The entry is to be visited once more. -/
def TaskView.Repeats (seen : TaskView) (task : TaskId) : Prop :=
  ∃ new, seen.task = some new ∧ new ≠ task ∧ seen.mode.contains .last = true

namespace Sweep

/-- The step that begins with a rule of a category. -/
def stepAt (setup : Setup σ) (c : Category) (next : Member σ) : Step σ :=
  if c.simultaneous then ⟨c, members setup c⟩ else ⟨c, [next]⟩

/-- The ending of the visit of an entry. -/
def entryOutcome (setup : Setup σ) (step : Step σ) (before after : List (Option TaskId))
    (task : TaskId) (w : Workspace σ) : Except Stop TaskView × Workspace σ :=
  (Visit.visit setup.maxSteps step.members step.forTask setup.visitLimit
    (.ofEntry (before.reverse ++ some task :: after) step.gate task)).outcome w

/-- The entry that a visited entry of the list leaves in the journal. -/
def listEntry (position : Nat) (task : TaskId) (seen : TaskView) : Entry :=
  .visit (.entry position) task seen.task seen.mode

/-- The event that goes back to the first category because the gate of a step is dirty. -/
def gateRestart (step : Step σ) (s : Sweep) : Entry :=
  .restart (.gateDirty step.category (s.pending ∩ step.gate))

/-- The sweep behind a step. -/
def behind (step : Step σ) (s : Sweep) : Sweep :=
  { s with nextRule := s.nextRule + step.members.length }

/-- The workspace where a step begins. -/
def stepBegun (s : Sweep) (step : Step σ) (w : Workspace σ) : Workspace σ :=
  w.note (.step step.category s.nextRule (step.members.map Member.id) step.gate)

/-- The title of the list in the dump before the step that begins with this rule. -/
def titleAt (position nextRule : Nat) : String :=
  "before optimize category " ++ toString position ++ " index " ++ toString nextRule

/-- The title of the list in the dump before a step. -/
def stepTitle (s : Sweep) : String := titleAt s.position s.nextRule

/-! ## Moves -/

/-- What can happen next. -/
inductive Move (setup : Setup σ) : Situation σ → Situation σ → Prop where
  /-- A turn begins. -/
  | spend {s w} (pending : s.pending.isEmpty = false) (left : w.steps + 1 ≤ setup.maxSteps) :
      Move setup ⟨.between, s, w⟩
        ⟨.turning, { s with turns := s.turns + 1 }, { w with steps := w.steps + 1 }⟩
  /-- The budget is used up. -/
  | exhausted {s w} (pending : s.pending.isEmpty = false) (spent : setup.maxSteps < w.steps + 1) :
      Move setup ⟨.between, s, w⟩ ⟨.stopped, s.halt .exhausted,
        { w with steps := w.steps + 1 }.note (.exhausted setup.maxSteps)⟩
  /-- Behind the last category the sweep goes back to the first. -/
  | rewind {s w} (last : Category.ofIndex? s.position = none) :
      Move setup ⟨.turning, s, w⟩ ⟨.between, s.rewind, w⟩
  /-- A settled category is passed over. -/
  | advance {s w c} (here : Category.ofIndex? s.position = some c) (settled : c ∉ s.pending) :
      Move setup ⟨.turning, s, w⟩ ⟨.between, s.advance, w⟩
  /-- All rules of the category are done. -/
  | settle {s w c} (here : Category.ofIndex? s.position = some c) (pending : c ∈ s.pending)
      (done : (members setup c)[s.nextRule]? = none) :
      Move setup ⟨.turning, s, w⟩ ⟨.between, s.settle c, w.note (.settled c)⟩
  /-- The next rule relies on its own category, which this pass unsettled. -/
  | restart {s w c next} (here : Category.ofIndex? s.position = some c) (pending : c ∈ s.pending)
      (rule : (members setup c)[s.nextRule]? = some next) (single : c.simultaneous = false)
      (dirty : s.affected.intersects (next.rule.descriptor.dependsFrom ∩ c.mask) = true) :
      Move setup ⟨.turning, s, w⟩
        ⟨.between, s.restart, w.note (.restart (.selfDirty c next.rule.name))⟩
  /-- A step begins. -/
  | begin {s w c next} (here : Category.ofIndex? s.position = some c) (pending : c ∈ s.pending)
      (rule : (members setup c)[s.nextRule]? = some next)
      (clean : c.simultaneous = false →
        s.affected.intersects (next.rule.descriptor.dependsFrom ∩ c.mask) = false)
      (quiet : setup.logSteps = false) :
      Move setup ⟨.turning, s, w⟩ ⟨.listing (stepAt setup c next) (stepAt setup c next).members, s,
        s.stepBegun (stepAt setup c next) w⟩
  /-- A step begins, and the list is logged. -/
  | beginLogged {s w c next lines} (here : Category.ofIndex? s.position = some c)
      (pending : c ∈ s.pending) (rule : (members setup c)[s.nextRule]? = some next)
      (clean : c.simultaneous = false →
        s.affected.intersects (next.rule.descriptor.dependsFrom ∩ c.mask) = false)
      (logs : setup.logSteps = true) (dump : w.graph.dump s.list s.stepTitle = .ok lines) :
      Move setup ⟨.turning, s, w⟩ ⟨.listing (stepAt setup c next) (stepAt setup c next).members, s,
        (s.stepBegun (stepAt setup c next) w).note (.dump lines)⟩
  /-- A step begins, and the list cannot be logged. -/
  | unlogged {s w c next f} (here : Category.ofIndex? s.position = some c)
      (pending : c ∈ s.pending) (rule : (members setup c)[s.nextRule]? = some next)
      (clean : c.simultaneous = false →
        s.affected.intersects (next.rule.descriptor.dependsFrom ∩ c.mask) = false)
      (logs : setup.logSteps = true) (dump : w.graph.dump s.list s.stepTitle = .error f) :
      Move setup ⟨.turning, s, w⟩ ⟨.stopped, s.halt (.fault f),
        s.stepBegun (stepAt setup c next) w⟩
  /-- A rule is called for the list. -/
  | call {s w step m rest} (clean : ¬ s.Dirty step) (forList : m.rule.descriptor.forList = true)
      (returns : (answer step.gate m s w).fault = none) :
      Move setup ⟨.listing step (m :: rest), s, w⟩ ⟨.listing step rest,
        (withList step.gate m s w).report (record step.gate m s w).reported,
        workspaceAfter step.gate m s w⟩
  /-- A rule gives up over the list. -/
  | raise {s w step m rest f} (clean : ¬ s.Dirty step)
      (forList : m.rule.descriptor.forList = true)
      (raises : (answer step.gate m s w).fault = some f) :
      Move setup ⟨.listing step (m :: rest), s, w⟩ ⟨.stopped,
        (withList step.gate m s w).halt (.fault f), workspaceAfter step.gate m s w⟩
  /-- A rule has nothing to do with the list as a whole. -/
  | skip {s w step m rest} (clean : ¬ s.Dirty step) (other : m.rule.descriptor.forList = false) :
      Move setup ⟨.listing step (m :: rest), s, w⟩ ⟨.listing step rest, s, w⟩
  /-- All list rules were called, and the entries are next. -/
  | descend {s w step} (clean : ¬ s.Dirty step) (forEntries : step.forEntries = true) :
      Move setup ⟨.listing step [], s, w⟩ ⟨.visiting step [] s.list, s, w⟩
  /-- All list rules were called, and the step has nothing to do with the entries. -/
  | finishList {s w step} (clean : ¬ s.Dirty step) (other : step.forEntries = false) :
      Move setup ⟨.listing step [], s, w⟩ ⟨.between, s.behind step, w⟩
  /-- A list rule unsettled what the step relies on. -/
  | cutList {s w step rest} (dirty : s.Dirty step) :
      Move setup ⟨.listing step rest, s, w⟩ ⟨.between, s.restart, w.note (s.gateRestart step)⟩
  /-- A hole is taken out. -/
  | hole {s w step before after} (clean : ¬ s.Dirty step) :
      Move setup ⟨.visiting step before (none :: after), s, w⟩
        ⟨.visiting step before after, s, w⟩
  /-- An entry was visited for the last time in this step. What came of it takes its place. -/
  | visit {s w step before after task seen w'} (clean : ¬ s.Dirty step)
      (outcome : entryOutcome setup step before after task w = (.ok seen, w'))
      (done : ¬ seen.Repeats task) :
      Move setup ⟨.visiting step before (some task :: after), s, w⟩
        ⟨.visiting step (seen.task.toList.map some ++ before) after, s.report seen.affects,
          w'.note (listEntry before.length task seen)⟩
  /-- An entry was visited, and what came of it is visited once more. -/
  | revisit {s w step before after task seen new w'} (clean : ¬ s.Dirty step)
      (outcome : entryOutcome setup step before after task w = (.ok seen, w'))
      (repeats : seen.Repeats task) (replaced : seen.task = some new)
      (left : w'.steps + 1 ≤ setup.maxSteps) :
      Move setup ⟨.visiting step before (some task :: after), s, w⟩
        ⟨.visiting step before (some new :: after), s.report seen.affects,
          { w'.note (listEntry before.length task seen) with steps := w'.steps + 1 }⟩
  /-- An entry is to be visited once more, but the budget is used up. -/
  | unrepeated {s w step before after task seen new w'} (clean : ¬ s.Dirty step)
      (outcome : entryOutcome setup step before after task w = (.ok seen, w'))
      (repeats : seen.Repeats task) (replaced : seen.task = some new)
      (spent : setup.maxSteps < w'.steps + 1) :
      Move setup ⟨.visiting step before (some task :: after), s, w⟩ ⟨.stopped,
        { (s.report seen.affects).halt .exhausted with
          list := before.reverse ++ some new :: after },
        { w'.note (listEntry before.length task seen) with steps := w'.steps + 1 }.note
          (.exhausted setup.maxSteps)⟩
  /-- The visit of an entry was broken off. -/
  | abort {s w step before after task stop w'} (clean : ¬ s.Dirty step)
      (outcome : entryOutcome setup step before after task w = (.error stop, w')) :
      Move setup ⟨.visiting step before (some task :: after), s, w⟩ ⟨.stopped,
        { s.halt stop with list := before.reverse ++ some task :: after }, w'⟩
  /-- All entries were visited. -/
  | finish {s w step before} (clean : ¬ s.Dirty step) :
      Move setup ⟨.visiting step before [], s, w⟩
        ⟨.between, ({ s with list := before.reverse } : Sweep).behind step, w⟩
  /-- A visit unsettled what the step relies on. -/
  | cut {s w step before after} (dirty : s.Dirty step) :
      Move setup ⟨.visiting step before after, s, w⟩ ⟨.between,
        ({ s with list := before.reverse ++ after } : Sweep).restart, w.note (s.gateRestart step)⟩

/-- A path of moves. -/
abbrev Path (setup : Setup σ) : Situation σ → Situation σ → Prop :=
  Relation.ReflTransGen (Move setup)

variable {setup : Setup σ} {a b : Situation σ} {s : Sweep} {w : Workspace σ} {step : Step σ}

/-- A sweep is marked as stopped where the optimization stopped, and nowhere else. -/
theorem Move.isSome_stopped_iff (h : Move setup a b) (ha : a.sweep.stopped = none) :
    b.sweep.stopped.isSome ↔ b.phase = .stopped := by
  cases h <;> simp_all [Sweep.rewind, Sweep.advance, Sweep.settle, Sweep.restart, Sweep.halt,
    Sweep.report, Sweep.behind, Sweep.withList]

theorem entryOutcome_steps_le {before after : List (Option TaskId)} {task : TaskId}
    {seen : TaskView} {w' : Workspace σ}
    (h : entryOutcome setup step before after task w = (.ok seen, w')) :
    w.steps ≤ w'.steps ∧ (w.steps ≤ setup.maxSteps → w'.steps ≤ setup.maxSteps) := by
  obtain ⟨copied, hcourse⟩ := (Visit.ensures_visit _ _ _ _ _ _).of_outcome h
  exact hcourse.steps_le

/-- The steps only grow, and within the budget. -/
theorem Move.steps_le (h : Move setup a b) (hb : b.phase ≠ .stopped) :
    a.work.steps ≤ b.work.steps ∧
      (a.work.steps ≤ setup.maxSteps → b.work.steps ≤ setup.maxSteps) := by
  cases h with
  | spend _ hleft => exact ⟨Nat.le_succ _, fun _ => hleft⟩
  | visit _ houtcome =>
      have hsteps := entryOutcome_steps_le houtcome
      exact hsteps
  | revisit _ houtcome _ _ hleft =>
      exact ⟨Nat.le_succ_of_le (entryOutcome_steps_le houtcome).1, fun _ => hleft⟩
  | exhausted | unlogged | raise | unrepeated | abort => exact absurd rfl hb
  | _ => exact ⟨Nat.le_refl _, id⟩

/-- Nothing happens after the end. -/
theorem Move.phase_ne_stopped (h : Move setup a b) : a.phase ≠ .stopped := by
  cases h <;> nofun

theorem Path.steps_le (h : Path setup a b) (hb : b.phase ≠ .stopped) :
    a.work.steps ≤ b.work.steps ∧
      (a.work.steps ≤ setup.maxSteps → b.work.steps ≤ setup.maxSteps) := by
  induction h with
  | refl => exact ⟨Nat.le_refl _, id⟩
  | tail _ hmove ih =>
      have hlast := hmove.steps_le hb
      have hrest := ih hmove.phase_ne_stopped
      exact ⟨Nat.le_trans hrest.1 hlast.1, fun h => hlast.2 (hrest.2 h)⟩

theorem Path.isSome_stopped_iff (h : Path setup a b) (ha : a.sweep.stopped = none)
    (hphase : a.phase ≠ .stopped) : b.sweep.stopped.isSome ↔ b.phase = .stopped := by
  induction h with
  | refl => simp [ha, hphase]
  | tail _ hmove ih =>
      refine hmove.isSome_stopped_iff ?_
      rw [← Option.not_isSome_iff_eq_none, ih]
      exact hmove.phase_ne_stopped

/-! ## Optimizations are paths -/

/-- A beginning of an optimization: nothing stopped it, and it is within the budget. -/
structure Begins (setup : Setup σ) (a : Situation σ) : Prop where
  phase : a.phase ≠ .stopped
  stopped : a.sweep.stopped = none
  steps : a.work.steps ≤ setup.maxSteps

theorem Begins.isSome_stopped (ha : Begins setup a) (h : Path setup a ⟨.stopped, s, w⟩) :
    s.stopped.isSome = true :=
  (Path.isSome_stopped_iff h ha.stopped ha.phase).mpr rfl

theorem Begins.not_isSome_stopped {phase : Phase σ} (ha : Begins setup a)
    (h : Path setup a ⟨phase, s, w⟩) (hphase : phase ≠ .stopped) : ¬ s.stopped.isSome = true :=
  fun hstopped => hphase ((Path.isSome_stopped_iff h ha.stopped ha.phase).mp hstopped)

theorem leaves_listRules (ha : Begins setup a) {rest : List (Member σ)}
    (h : Path setup a ⟨.listing step rest, s, w⟩) :
    Leaves (listRules step.gate rest s) w fun s' w' =>
      Path setup a ⟨.stopped, s', w'⟩ ∨
        ∃ rest', Path setup a ⟨.listing step rest', s', w'⟩ ∧ (rest' = [] ∨ s'.Dirty step) := by
  induction rest generalizing s w with
  | nil => exact Or.inr ⟨[], h, Or.inl rfl⟩
  | cons m rest ih =>
      unfold listRules
      split
      · next hdirty => exact Or.inr ⟨m :: rest, h, Or.inr hdirty⟩
      · next hclean =>
          split
          · next hlist =>
              refine (leaves_callListRule step.gate m s w).bind ?_
              rintro s' w' ⟨rfl, rfl⟩
              cases hf : (answer step.gate m s w).fault with
              | none =>
                  have hcalled := h.tail (.call hclean hlist hf)
                  dsimp only
                  rw [if_neg (ha.not_isSome_stopped hcalled nofun)]
                  exact ih hcalled
              | some f => exact Or.inl (h.tail (.raise hclean hlist hf))
          · next hlist => exact ih (h.tail (.skip hclean (Bool.eq_false_iff.mpr hlist)))

/-- The ending of the visits of one entry: the optimization stopped with the list as it was at that
moment, the entry is done, or what came of it is left for the next turn because the gate is dirty.
-/
def EntryDone (setup : Setup σ) (a : Situation σ) (step : Step σ)
    (before after : List (Option TaskId)) (r : Sweep × Option TaskId) (w : Workspace σ) : Prop :=
  Path setup a ⟨.stopped,
      { r.1 with list := before.reverse ++ (r.2.toList.map some ++ after) }, w⟩ ∨
    Path setup a ⟨.visiting step (r.2.toList.map some ++ before) after, r.1, w⟩ ∨
    r.1.Dirty step ∧ Path setup a ⟨.visiting step before (r.2.toList.map some ++ after), r.1, w⟩

theorem leaves_visitEntry (ha : Begins setup a) {before after : List (Option TaskId)}
    {task : TaskId} {visits : Nat}
    (h : Path setup a ⟨.visiting step before (some task :: after), s, w⟩) (hclean : ¬ s.Dirty step)
    (hvisits : setup.maxSteps < w.steps + visits) :
    Leaves (visitEntry setup step before after visits task s) w
      (EntryDone setup a step before after) := by
  induction visits generalizing task s w with
  | zero =>
      -- the budget would have been used up before
      have hsteps : w.steps ≤ setup.maxSteps := (h.steps_le nofun).2 ha.steps
      omega
  | succ visits ih =>
      unfold visitEntry
      have hvisit : Leaves (Visit.visit setup.maxSteps step.members step.forTask setup.visitLimit
          (.ofEntry (before.reverse ++ some task :: after) step.gate task)).run w fun r w' =>
            entryOutcome setup step before after task w = (r, w') := rfl
      refine hvisit.bind ?_
      rintro (stop | seen) w' houtcome
      · exact leaves_pure (Or.inl (h.tail (.abort hclean houtcome)))
      · apply leaves_modify_bind
        dsimp only
        split
        · next hgone =>
            have hdone : ¬ seen.Repeats task := by
              rintro ⟨new, hnew, _⟩
              rw [hgone] at hnew
              cases hnew
            have hvisited := h.tail (.visit hclean houtcome hdone)
            rw [hgone] at hvisited
            exact leaves_pure (Or.inr (Or.inl hvisited))
        · next new hnew =>
            split
            · next hrepeat =>
                have hrepeats : seen.Repeats task := ⟨new, hnew, hrepeat⟩
                refine (Work.ensures_spend setup.maxSteps _).leaves.bind ?_
                rintro (stop | ⟨⟩) w'' hspend
                · obtain ⟨hspent, rfl, rfl⟩ := hspend
                  exact leaves_pure
                    (Or.inl (h.tail (.unrepeated hclean houtcome hrepeats hnew hspent)))
                · obtain ⟨hleft, rfl⟩ := hspend
                  have hagain := h.tail (.revisit hclean houtcome hrepeats hnew hleft)
                  dsimp only
                  split
                  · next hdirty => exact leaves_pure (Or.inr (Or.inr ⟨hdirty, hagain⟩))
                  · next hclean' =>
                      have hsteps := (entryOutcome_steps_le houtcome).1
                      exact ih hagain hclean' (by dsimp only [Workspace.note]; omega)
            · next hrepeat =>
                have hdone : ¬ seen.Repeats task := by
                  rintro ⟨new', hnew', hrepeat'⟩
                  rw [hnew] at hnew'
                  cases hnew'
                  exact hrepeat hrepeat'
                have hvisited := h.tail (.visit hclean houtcome hdone)
                rw [hnew] at hvisited
                exact leaves_pure (Or.inr (Or.inl hvisited))

/-- The ending of the visits of all entries. -/
def EntriesDone (setup : Setup σ) (a : Situation σ) (step : Step σ) (s : Sweep)
    (w : Workspace σ) : Prop :=
  Path setup a ⟨.stopped, s, w⟩ ∨
    ∃ before after s', s = { s' with list := before.reverse ++ after } ∧
      Path setup a ⟨.visiting step before after, s', w⟩ ∧ (after = [] ∨ s'.Dirty step)

/-- Nothing is visited while the gate is dirty. -/
theorem visitEntries_of_dirty {before after : List (Option TaskId)} (hdirty : s.Dirty step) :
    visitEntries setup step before after s =
      pure { s with list := before.reverse ++ after } := by
  cases after with
  | nil => rw [visitEntries, List.append_nil]
  | cons entry after =>
      unfold visitEntries
      rw [if_pos (show s.pending.intersects step.gate = true from hdirty)]

/-- A hole is taken out. -/
theorem visitEntries_none {before after : List (Option TaskId)} (hclean : ¬ s.Dirty step) :
    visitEntries setup step before (none :: after) s = visitEntries setup step before after s := by
  rw [visitEntries, if_neg (show ¬ s.pending.intersects step.gate = true from hclean)]

/-- What comes of an entry takes its place. -/
theorem visitEntries_some {before after : List (Option TaskId)} {task : TaskId}
    (hclean : ¬ s.Dirty step) :
    visitEntries setup step before (some task :: after) s =
      visitEntry setup step before after (setup.maxSteps + 1) task s >>= fun r =>
        if r.1.stopped.isSome then
          pure { r.1 with list := before.reverse ++ (r.2.toList.map some ++ after) }
        else visitEntries setup step (r.2.toList.map some ++ before) after r.1 := by
  rw [visitEntries, if_neg (show ¬ s.pending.intersects step.gate = true from hclean)]
  refine bind_congr ?_
  rintro ⟨s', _ | new⟩
  · rfl
  · simp

theorem leaves_visitEntries (ha : Begins setup a) {before after : List (Option TaskId)}
    (h : Path setup a ⟨.visiting step before after, s, w⟩) :
    Leaves (visitEntries setup step before after s) w (EntriesDone setup a step) := by
  induction after generalizing before s w with
  | nil =>
      refine leaves_pure (Or.inr ⟨before, [], s, ?_, h, Or.inl rfl⟩)
      rw [List.append_nil]
  | cons entry after ih =>
      by_cases hdirty : s.Dirty step
      · rw [visitEntries_of_dirty hdirty]
        exact leaves_pure (Or.inr ⟨before, entry :: after, s, rfl, h, Or.inr hdirty⟩)
      cases entry with
      | none =>
          rw [visitEntries_none hdirty]
          exact ih (h.tail (.hole hdirty))
      | some task =>
          rw [visitEntries_some hdirty]
          refine (leaves_visitEntry ha h hdirty (by omega)).bind ?_
          rintro ⟨s', kept⟩ w' hvisit
          dsimp only
          rcases hvisit with hstop | hdone | ⟨hcut, hleft⟩
          · have hstopped : s'.stopped.isSome = true := by
              have hmarked := ha.isSome_stopped hstop
              exact hmarked
            rw [if_pos hstopped]
            exact leaves_pure (Or.inl hstop)
          · rw [if_neg (ha.not_isSome_stopped hdone nofun)]
            exact ih hdone
          · rw [if_neg (ha.not_isSome_stopped hleft nofun), visitEntries_of_dirty hcut]
            refine leaves_pure (Or.inr ⟨_, _, s', ?_, hleft, Or.inr hcut⟩)
            cases kept <;> simp

/-- The list is logged where this is wanted. -/
theorem leaves_logList {c : Category} {next : Member σ}
    (h : Path setup a ⟨.turning, s, w⟩) (hhere : Category.ofIndex? s.position = some c)
    (hpending : c ∈ s.pending) (hrule : (members setup c)[s.nextRule]? = some next)
    (hclean : c.simultaneous = false →
      s.affected.intersects (next.rule.descriptor.dependsFrom ∩ c.mask) = false) :
    Leaves (logList setup s) (s.stepBegun (stepAt setup c next) w) fun s' w' =>
      Path setup a ⟨.stopped, s', w'⟩ ∨
        Path setup a ⟨.listing (stepAt setup c next) (stepAt setup c next).members, s', w'⟩ := by
  unfold logList
  split
  · next hlogs =>
      apply leaves_get_bind
      split
      · next lines hdump =>
          exact Or.inr (h.tail (.beginLogged hhere hpending hrule hclean hlogs hdump))
      · next f hdump =>
          exact Or.inl (h.tail (.unlogged hhere hpending hrule hclean hlogs hdump))
  · next hquiet =>
      exact Or.inr (h.tail (.begin hhere hpending hrule hclean (Bool.eq_false_iff.mpr hquiet)))

/-- The ending of the work of a step: the optimization stopped, or the sweep goes back because the
gate is dirty, or it goes on behind the step. -/
def StepDone (setup : Setup σ) (a : Situation σ) (step : Step σ) (s : Sweep)
    (w : Workspace σ) : Prop :=
  s.stopped.isSome = true ∧ Path setup a ⟨.stopped, s, w⟩ ∨
    s.stopped.isSome = false ∧ s.Dirty step ∧
      Path setup a ⟨.between, s.restart, w.note (s.gateRestart step)⟩ ∨
    s.stopped.isSome = false ∧ ¬ s.Dirty step ∧ Path setup a ⟨.between, s.behind step, w⟩

theorem EntriesDone.stepDone (ha : Begins setup a) (h : EntriesDone setup a step s w) :
    StepDone setup a step s w := by
  rcases h with hstop | ⟨before, after, s', rfl, hpath, hend⟩
  · exact Or.inl ⟨ha.isSome_stopped hstop, hstop⟩
  · have hgoes : s'.stopped.isSome = false :=
      Bool.eq_false_iff.mpr (ha.not_isSome_stopped hpath nofun)
    by_cases hdirty : s'.Dirty step
    · exact Or.inr (Or.inl ⟨hgoes, hdirty, hpath.tail (.cut hdirty)⟩)
    · obtain rfl : after = [] := hend.resolve_right hdirty
      rw [List.append_nil]
      exact Or.inr (Or.inr ⟨hgoes, hdirty, hpath.tail (.finish hdirty)⟩)

/-- The end of a step looks at the gate once more. -/
theorem StepDone.leaves_close (h : StepDone setup a step s w) :
    Leaves (if s.stopped.isSome = true then pure s
      else if s.pending.intersects step.gate = true then
        restartFor (.gateDirty step.category (s.pending ∩ step.gate)) s
      else pure (s.behind step)) w fun s' w' =>
      Path setup a ⟨.stopped, s', w'⟩ ∨ Path setup a ⟨.between, s', w'⟩ := by
  rcases h with ⟨hstopped, hpath⟩ | ⟨hgoes, hdirty, hpath⟩ | ⟨hgoes, hclean, hpath⟩
  · rw [if_pos hstopped]
    exact leaves_pure (Or.inl hpath)
  · rw [if_neg (Bool.eq_false_iff.mp hgoes),
      if_pos (show s.pending.intersects step.gate = true from hdirty)]
    exact Or.inr hpath
  · rw [if_neg (Bool.eq_false_iff.mp hgoes),
      if_neg (show ¬ s.pending.intersects step.gate = true from hclean)]
    exact leaves_pure (Or.inr hpath)

/-- A step leads behind it, back to the first category, or to the end. -/
theorem leaves_runStep (ha : Begins setup a) {c : Category} {next : Member σ}
    (h : Path setup a ⟨.turning, s, w⟩) (hhere : Category.ofIndex? s.position = some c)
    (hpending : c ∈ s.pending) (hrule : (members setup c)[s.nextRule]? = some next)
    (hclean : c.simultaneous = false →
      s.affected.intersects (next.rule.descriptor.dependsFrom ∩ c.mask) = false) :
    Leaves (runStep setup (stepAt setup c next) s) w fun s' w' =>
      Path setup a ⟨.stopped, s', w'⟩ ∨ Path setup a ⟨.between, s', w'⟩ := by
  have hlog := leaves_logList h hhere hpending hrule hclean
  unfold runStep
  revert hlog
  generalize stepAt setup c next = step
  intro hlog
  apply leaves_modify_bind
  refine Leaves.bind hlog ?_
  rintro s' w' (hstop | hlisting)
  · rw [if_pos (ha.isSome_stopped hstop)]
    exact leaves_pure (Or.inl hstop)
  rw [if_neg (ha.not_isSome_stopped hlisting nofun)]
  refine (leaves_listRules ha hlisting).bind ?_
  rintro s' w' (hstop | ⟨rest, hlisted, hend⟩)
  · rw [if_pos (ha.isSome_stopped hstop)]
    exact leaves_pure (Or.inl hstop)
  have hgoes := Bool.eq_false_iff.mpr (ha.not_isSome_stopped hlisted nofun)
  rw [if_neg (Bool.eq_false_iff.mp hgoes)]
  dsimp only
  by_cases hdirty : s'.Dirty step
  · -- no entry is visited, and the sweep goes back
    have hback : StepDone setup a step s' w' :=
      Or.inr (Or.inl ⟨hgoes, hdirty, hlisted.tail (.cutList hdirty)⟩)
    split
    · rw [visitEntries_of_dirty hdirty]
      exact hback.leaves_close
    · exact hback.leaves_close
  · obtain rfl : rest = [] := hend.resolve_right hdirty
    split
    · next hentries =>
        refine (leaves_visitEntries ha (hlisted.tail (.descend hdirty hentries))).bind ?_
        exact fun s'' w'' hdone => (hdone.stepDone ha).leaves_close
    · next hentries =>
        have hother := Bool.eq_false_iff.mpr hentries
        have hbehind : StepDone setup a step s' w' :=
          Or.inr (Or.inr ⟨hgoes, hdirty, hlisted.tail (.finishList hdirty hother)⟩)
        exact hbehind.leaves_close

/-- A turn leads to the next one, or to the end. -/
theorem leaves_turn (ha : Begins setup a)
    (h : Path setup a ⟨.turning, { s with turns := s.turns + 1 }, w⟩) :
    Leaves (turn setup s) w fun s' w' =>
      Path setup a ⟨.stopped, s', w'⟩ ∨ Path setup a ⟨.between, s', w'⟩ := by
  dsimp only [turn]
  split
  · next hlast => exact leaves_pure (Or.inr (h.tail (.rewind hlast)))
  · next c hhere =>
      split
      · next hpending =>
          unfold runCategory
          dsimp only
          split
          · next hdone => exact Or.inr (h.tail (.settle hhere hpending hdone))
          · next next hrule =>
              cases hsimultaneous : c.simultaneous with
              | true =>
                  have hstep : stepAt setup c next = ⟨c, members setup c⟩ := if_pos hsimultaneous
                  rw [if_pos rfl, ← hstep]
                  exact leaves_runStep ha h hhere hpending hrule (by rw [hsimultaneous]; nofun)
              | false =>
                  have hstep : stepAt setup c next = ⟨c, [next]⟩ :=
                    if_neg (by rw [hsimultaneous]; nofun)
                  rw [if_neg Bool.false_ne_true]
                  split
                  · next hdirty =>
                      exact Or.inr (h.tail (.restart hhere hpending hrule hsimultaneous hdirty))
                  · next hclean =>
                      rw [← hstep]
                      exact leaves_runStep ha h hhere hpending hrule
                        (fun _ => Bool.eq_false_iff.mpr hclean)
      · next hsettled => exact leaves_pure (Or.inr (h.tail (.advance hhere hsettled)))

/-- Turns lead on until nothing is pending, or to the end. -/
theorem leaves_run (ha : Begins setup a) {turns : Nat} (h : Path setup a ⟨.between, s, w⟩)
    (hturns : setup.maxSteps < w.steps + turns) :
    Leaves (run setup turns s) w fun s' w' =>
      Path setup a ⟨.stopped, s', w'⟩ ∨
        Path setup a ⟨.between, s', w'⟩ ∧ s'.pending.isEmpty = true := by
  induction turns generalizing s w with
  | zero =>
      -- the budget would have been used up before
      have hsteps : w.steps ≤ setup.maxSteps := (h.steps_le nofun).2 ha.steps
      omega
  | succ turns ih =>
      unfold run
      split
      · next hempty => exact leaves_pure (Or.inr ⟨h, hempty⟩)
      · next hpending =>
          have hpending := Bool.eq_false_iff.mpr hpending
          refine (Work.ensures_spend setup.maxSteps w).leaves.bind ?_
          rintro (stop | ⟨⟩) w' hspend
          · obtain ⟨hspent, rfl, rfl⟩ := hspend
            exact leaves_pure (Or.inl (h.tail (.exhausted hpending hspent)))
          · obtain ⟨hleft, rfl⟩ := hspend
            have hturn := h.tail (.spend hpending hleft)
            have hgoes : s.stopped = none :=
              Option.not_isSome_iff_eq_none.mp (ha.not_isSome_stopped h nofun)
            have hbegins : Begins setup ⟨.turning, { s with turns := s.turns + 1 },
                { w with steps := w.steps + 1 }⟩ := ⟨nofun, hgoes, hleft⟩
            refine (leaves_turn hbegins .refl).bind ?_
            rintro s' w' (hstop | hnext)
            · rw [if_pos (hbegins.isSome_stopped hstop)]
              exact leaves_pure (Or.inl (hturn.trans hstop))
            · rw [if_neg (hbegins.not_isSome_stopped hnext nofun)]
              have hsteps : w.steps + 1 ≤ w'.steps := (hnext.steps_le nofun).1
              exact ih (hturn.trans hnext) (by omega)

end Sweep

/-! ## The whole optimization -/

theorem filter_isSome (list : List (Option TaskId)) :
    list.filter Option.isSome = (list.filterMap id).map some := by
  induction list with
  | nil => rfl
  | cons entry list ih => cases entry <;> simp [ih]

namespace Setup

open Sweep

/-- Where an optimization begins. -/
def start (user : σ) (graph : Graph) (list : List (Option TaskId)) : Situation σ :=
  ⟨.between, .start list, ⟨user, graph, 0, []⟩⟩

/-- **Every optimization is a path of moves.** It leaves behind what stands at the end of the path:
behind a turn, with nothing pending, or where it stopped. -/
theorem optimize_path (setup : Setup σ) (user : σ) (graph : Graph) (list : List (Option TaskId)) :
    (∃ s w, Path setup (start user graph list) ⟨.between, s, w⟩ ∧ s.pending.isEmpty = true ∧
      setup.optimize user graph list = ⟨.ok ⟨w.steps, s.restarts⟩, s.list.filter Option.isSome,
        w.user, w.graph, w.journal, s.turns⟩) ∨
    ∃ s w stop, Path setup (start user graph list) ⟨.stopped, s, w⟩ ∧ s.stopped = some stop ∧
      setup.optimize user graph list =
        ⟨.error stop, s.list, w.user, w.graph, w.journal, s.turns⟩ := by
  have ha : Begins setup (start user graph list) := ⟨nofun, rfl, Nat.zero_le _⟩
  have hturns : setup.maxSteps < 0 + (setup.maxSteps + 1) := by omega
  have hrun := leaves_run ha .refl hturns
  revert hrun
  unfold Leaves optimize
  rcases (run setup (setup.maxSteps + 1) (.start list)).run ⟨user, graph, 0, []⟩ with ⟨s, w⟩
  rintro (hstop | ⟨hpath, hempty⟩)
  · obtain ⟨stop, hstopped⟩ := Option.isSome_iff_exists.mp (ha.isSome_stopped hstop)
    refine Or.inr ⟨s, w, stop, hstop, hstopped, ?_⟩
    dsimp only
    rw [hstopped]
  · have hgoes := Option.not_isSome_iff_eq_none.mp (ha.not_isSome_stopped hpath nofun)
    refine Or.inl ⟨s, w, hpath, hempty, ?_⟩
    dsimp only
    rw [hgoes]

/-- A completed optimization leaves no holes. -/
theorem isSome_of_optimize {setup : Setup σ} {user : σ} {graph : Graph}
    {list : List (Option TaskId)} {stats : OptimizeStats}
    (h : (setup.optimize user graph list).result = .ok stats) :
    ∀ entry ∈ (setup.optimize user graph list).list, entry.isSome := by
  rcases setup.optimize_path user graph list with ⟨s, w, _, _, heq⟩ | ⟨s, w, stop, _, _, heq⟩
  · rw [heq]
    exact fun entry hentry => (List.mem_filter.mp hentry).2
  · rw [heq] at h
    cases h

end Setup

end RenderPlan
