/-
# RenderPlan.Proofs.Optimize.Truncation -- bits that name no category

Masks are kept with all their bits. What a bit does that names no category is told by leaving all
such bits out: `Setup.truncate` is a setup whose rules declare and report truncated masks and do
everything else as before. The two setups are compared event by event (`Visit.truncates_visit`,
`Sweep.Move.truncate`). They go the same way, because every test but one compares a mask with the
mask of a category or with a gate, and a gate is made of categories only.

The one test that sees the bits is the end of the sweep. It asks for a set of pending categories
without any bit, and such a bit never leaves the set. So where the truncated optimization ends with
everything settled, the other one goes on passing over categories until its budget is used up
(`Sweep.Path.coasts`), if ever a call left such a bit unsettled. That is what it does, and not what the
end of the sweep is for: with truncated masks the optimization would have been completed there.

The rules are assumed not to look at such bits in the masks they are shown. What they answer may
have them.
-/
import RenderPlan.Proofs.Category.Membership
import RenderPlan.Proofs.Optimize.Comparison
import RenderPlan.Proofs.Optimize.Limit
import RenderPlan.Proofs.Optimize.Standing

namespace RenderPlan

variable {σ : Type}

/-! ## Truncated records -/

namespace TaskView

/-- The view with a truncated mask of unsettled categories. -/
def truncate (v : TaskView) : TaskView := { v with affects := v.affects.truncate }

/-- The gate is made of categories. -/
def Gated (v : TaskView) : Prop := v.gate.isStrict = true

theorem truncate_ofChild (v : TaskView) (child : TaskId) :
    (v.ofChild child).truncate = v.truncate.ofChild child := by
  simp [truncate, ofChild]

theorem truncate_ofEntry (list : List (Option TaskId)) (gate : Mask) (task : TaskId) :
    (ofEntry list gate task).truncate = ofEntry list gate task := by
  simp [truncate, ofEntry]

theorem Gated.intersects_truncate {v : TaskView} (h : v.Gated) :
    v.truncate.affects.intersects v.truncate.gate = v.affects.intersects v.gate :=
  Mask.truncate_intersects_of_isStrict h

end TaskView

def TaskCall.truncate (c : TaskCall σ) : TaskCall σ := { c with view := c.view.truncate }

def ListCall.truncate (c : ListCall σ) : ListCall σ := { c with affects := c.affects.truncate }

def Answered.map {α β : Type} (f : α → β) (a : Answered α) : Answered β := ⟨f a.call, a.fault⟩

/-- The rule with truncated masks, in its descriptor and in its answers. -/
def Rule.truncate (r : Rule σ) : Rule σ where
  name := r.name
  descriptor := { r.descriptor with affects := r.descriptor.affects.truncate }
  runTask c := (r.runTask c).map TaskCall.truncate
  runList c := (r.runList c).map ListCall.truncate

/-- The rule does not look at bits that name no category: shown truncated masks it answers the same,
up to such bits. -/
def Rule.Blind (r : Rule σ) : Prop :=
  ∀ c : TaskCall σ,
    (r.runTask c.truncate).map TaskCall.truncate = (r.runTask c).map TaskCall.truncate

def CallTarget.truncate : CallTarget → CallTarget
  | list l => list l
  | task v => task v.truncate

def CallRecord.truncate (r : CallRecord) : CallRecord :=
  { r with target := r.target.truncate, reported := r.reported.truncate }

def Entry.truncate : Entry → Entry
  | call c => call c.truncate
  | e => e

def Workspace.truncate (w : Workspace σ) : Workspace σ :=
  { w with journal := w.journal.map Entry.truncate }

def Member.truncate (m : Member σ) : Member σ := ⟨m.id, m.rule.truncate⟩

/-! ## Parts of an optimization -/

namespace Work

variable {α α' β β' : Type} {V : α → α' → Prop}

/-- The second part does what the first one does, with truncated masks in the journal. `V` relates
the values they come to. -/
structure Truncates (V : α → α' → Prop) (m : Work σ α) (m' : Work σ α') : Prop where
  ok : ∀ w a w', m.outcome w = (.ok a, w') →
    ∃ a', V a a' ∧ m'.outcome w.truncate = (.ok a', w'.truncate)
  stop : ∀ w stop w', m.outcome w = (.error stop, w') →
    m'.outcome w.truncate = (.error stop, w'.truncate)

theorem Truncates.bind {U : β → β' → Prop} {m : Work σ α} {m' : Work σ α'} {k : α → Work σ β}
    {k' : α' → Work σ β'} (hm : Truncates V m m')
    (hk : ∀ a a', V a a' → Truncates U (k a) (k' a')) : Truncates U (m >>= k) (m' >>= k') where
  ok w b w'' h := by
    obtain ⟨a, w', hfirst, hrest⟩ := exists_of_outcome_bind h
    obtain ⟨a', hrelated, hfirst'⟩ := hm.ok w a w' hfirst
    rw [outcome_bind, hfirst']
    exact (hk a a' hrelated).ok w' b w'' hrest
  stop w stop w'' h := by
    rw [outcome_bind] at h ⊢
    rcases hfirst : m.outcome w with ⟨_ | a, w'⟩ <;> rw [hfirst] at h
    · cases h
      rw [hm.stop w _ w'' hfirst]
    · obtain ⟨a', hrelated, hfirst'⟩ := hm.ok w a w' hfirst
      rw [hfirst']
      exact (hk a a' hrelated).stop w' stop w'' h

theorem truncates_pure {a : α} {a' : α'} (h : V a a') :
    Truncates (σ := σ) V (pure a) (pure a') where
  ok := by
    rintro w _ _ ⟨⟩
    exact ⟨a', h, rfl⟩
  stop _ _ _ := nofun

theorem truncates_throw (stop : Stop) : Truncates (σ := σ) V (throw stop) (throw stop) where
  ok _ _ _ := nofun
  stop := by
    rintro w _ _ ⟨⟩
    rfl

/-- Parts that come to the same end, up to truncation. -/
theorem truncates_of_outcome {f : α → α'} {m : Work σ α} {m' : Work σ α'}
    (h : ∀ w, m'.outcome w.truncate = ((m.outcome w).1.map f, (m.outcome w).2.truncate))
    (hV : ∀ w a w', m.outcome w = (.ok a, w') → V a (f a)) : Truncates V m m' where
  ok w a w' houtcome := by
    refine ⟨f a, hV w a w' houtcome, ?_⟩
    rw [h w, houtcome]
    rfl
  stop w stop w' houtcome := by
    rw [h w, houtcome]
    rfl

/-- A part that comes to a value without any mask. -/
theorem truncates_eq {m m' : Work σ α}
    (h : ∀ w, m'.outcome w.truncate = ((m.outcome w).1, (m.outcome w).2.truncate)) :
    Truncates Eq m m' :=
  truncates_of_outcome (f := id)
    (fun w => (h w).trans (by cases (m.outcome w).1 <;> rfl)) fun _ _ _ _ => rfl

theorem truncates_note {e : Entry} (h : e.truncate = e) :
    Truncates Eq (modify (Workspace.note e) : Work σ PUnit) (modify (Workspace.note e)) :=
  truncates_eq fun w => congrArg (fun e => (Except.ok (), w.truncate.note e)) h.symm

theorem truncates_fetch (id : TaskId) : Truncates Eq (fetch id : Work σ Node) (fetch id) := by
  apply truncates_eq
  intro w
  rw [outcome_fetch, outcome_fetch, show w.truncate.graph = w.graph from rfl]
  cases w.graph.get? id <;> rfl

theorem truncates_copy (id : TaskId) : Truncates Eq (copy id : Work σ TaskId) (copy id) := by
  apply truncates_eq
  intro w
  rw [outcome_copy, outcome_copy, show w.truncate.graph = w.graph from rfl]
  cases w.graph.get? id <;> rfl

theorem truncates_setSlot (id : TaskId) (slot : Nat) (sub : Option TaskId) :
    Truncates Eq (setSlot id slot sub : Work σ Unit) (setSlot id slot sub) := by
  apply truncates_eq
  intro w
  rw [outcome_setSlot, outcome_setSlot, show w.truncate.graph = w.graph from rfl]
  cases w.graph.get? id with
  | none => rfl
  | some n =>
      dsimp only
      split <;> rfl

theorem truncates_spend (maxSteps : Nat) :
    Truncates Eq (spend maxSteps : Work σ Unit) (spend maxSteps) := by
  apply truncates_eq
  intro w
  rw [outcome_spend, outcome_spend, show w.truncate.steps = w.steps from rfl]
  split <;> rfl

end Work

/-! ## Visits -/

namespace Visit

open Work

section Call

variable {m : Member σ} (hblind : m.rule.Blind) (v : TaskView) (w : Workspace σ)

include hblind

theorem answer_truncate :
    answer m.truncate v.truncate w.truncate = (answer m v w).map TaskCall.truncate :=
  hblind ⟨w.user, w.graph, v⟩

theorem record_truncate :
    record m.truncate v.truncate w.truncate = (record m v w).truncate := by
  unfold record
  rw [answer_truncate hblind]
  unfold CallRecord.truncate
  dsimp only
  rw [apply_ite Mask.truncate, Mask.truncate_union]
  rfl

theorem workspaceAfter_truncate :
    workspaceAfter m.truncate v.truncate w.truncate = (workspaceAfter m v w).truncate := by
  unfold workspaceAfter
  rw [answer_truncate hblind, record_truncate hblind]
  rfl

theorem viewAfter_truncate :
    viewAfter m.truncate v.truncate w.truncate = (viewAfter m v w).truncate := by
  unfold viewAfter
  rw [answer_truncate hblind, record_truncate hblind]
  unfold TaskView.truncate
  rw [Mask.truncate_union]
  rfl

end Call

/-- The view with a truncated mask, behind a gate made of categories. -/
structure Shown (v v' : TaskView) : Prop where
  gated : v.Gated
  eq : v' = v.truncate

theorem Shown.absorb {v v' seen seen' : TaskView} (h : Shown v v') (hseen : Shown seen seen') :
    Shown (absorb v seen) (absorb v' seen') where
  gated := h.gated
  eq := by
    rw [h.eq, hseen.eq]
    unfold Visit.absorb TaskView.truncate
    rw [Mask.truncate_union]

theorem truncates_callRule {m : Member σ} (hblind : m.rule.Blind) {v v' : TaskView}
    (hv : Shown v v') : Truncates Shown (callRule m v) (callRule m.truncate v') := by
  apply truncates_of_outcome (f := TaskView.truncate)
  · intro w
    rw [hv.eq, outcome_callRule, outcome_callRule, answer_truncate hblind,
      workspaceAfter_truncate hblind, viewAfter_truncate hblind]
    dsimp only [Answered.map]
    split <;> rfl
  · intro w seen w' h
    rw [outcome_callRule] at h
    split at h <;> cases h
    exact ⟨hv.gated, rfl⟩

/-- Visits with all bits and with truncated masks. -/
def truncated : Comparison σ where
  Alike := Truncates
  View := Shown
  alike_pure := truncates_pure
  alike_bind := Truncates.bind
  alike_limit _ := truncates_throw _
  alike_fetch := truncates_fetch
  alike_copy := truncates_copy
  alike_setSlot := truncates_setSlot
  alike_note {e} h := truncates_note <| by
    cases e with
    | call => cases h
    | _ => rfl
  task_eq h := h.eq ▸ rfl
  parent_eq h := h.eq ▸ rfl
  mode_eq h := h.eq ▸ rfl
  intersects_eq h := h.eq ▸ h.gated.intersects_truncate
  view_ofChild h child := ⟨h.gated, h.eq ▸ (TaskView.truncate_ofChild _ child).symm⟩
  view_withTask h _ := ⟨h.gated, h.eq ▸ rfl⟩
  view_absorb := Shown.absorb

theorem truncated_acts {m : Member σ} (hblind : m.rule.Blind) : truncated.Acts m m.truncate where
  deepFirst := rfl
  applies := rfl
  call := truncates_callRule hblind

/-- **A visit with truncated masks goes the same way.** -/
theorem truncates_visit (maxSteps : Nat) {rules : List (Member σ)}
    (hblind : ∀ m ∈ rules, m.rule.Blind) (deep : Bool) (limit : Nat) {v : TaskView}
    (hv : v.Gated) :
    Truncates Shown (visit maxSteps rules deep limit v)
      (visit maxSteps (rules.map Member.truncate) deep limit v.truncate) := by
  have hrules : List.Forall₂ truncated.Acts rules (rules.map Member.truncate) :=
    List.forall₂_map_right_iff.mpr
      (List.forall₂_same.mpr fun m hm => truncated_acts (hblind m hm))
  exact Comparison.alike_visit (C := truncated) (truncates_spend maxSteps) hrules deep limit
    ⟨hv, rfl⟩

end Visit

/-! ## Situations -/

namespace Step

variable (step : Step σ)

def truncate : Step σ := ⟨step.category, step.members.map Member.truncate⟩

theorem isStrict_gate : step.gate.isStrict = true := by
  have hfold : ∀ (members : List (Member σ)) (acc : Mask), acc.isStrict = true →
      (members.foldl (fun acc m => acc ∪ (step.category.below ∩ m.rule.descriptor.dependsFrom))
        acc).isStrict = true := by
    intro members
    induction members with
    | nil => exact fun _ hacc => hacc
    | cons m members ih =>
        exact fun acc hacc => ih _ (Mask.isStrict_union hacc
          (Mask.isStrict_inter (Mask.isStrict_below step.category)))
  exact hfold step.members ∅ Mask.isStrict_empty

theorem gate_truncate : step.truncate.gate = step.gate := List.foldl_map ..

theorem forTask_truncate : step.truncate.forTask = step.forTask := List.any_map ..

theorem forEntries_truncate : step.truncate.forEntries = step.forEntries := List.any_map ..

end Step

def Phase.truncate : Phase σ → Phase σ
  | listing step rest => listing step.truncate (rest.map Member.truncate)
  | visiting step before after => visiting step.truncate before after
  | between => between
  | turning => turning
  | stopped => stopped

def Sweep.truncate (s : Sweep) : Sweep :=
  { s with affected := s.affected.truncate, pending := s.pending.truncate }

def Situation.truncate (a : Situation σ) : Situation σ :=
  ⟨a.phase.truncate, a.sweep.truncate, a.work.truncate⟩

/-- The setup with truncated masks. -/
def Setup.truncate (setup : Setup σ) : Setup σ :=
  { setup with rules := fun id => (setup.rules id).truncate }

namespace Sweep

variable {setup : Setup σ} {s : Sweep} {w : Workspace σ} {step : Step σ}

theorem truncate_rewind : s.rewind.truncate = s.truncate.rewind := by
  simp [truncate, rewind]

theorem truncate_restart : s.restart.truncate = s.truncate.restart := by
  simp [truncate, restart, rewind]

theorem truncate_advance : s.advance.truncate = s.truncate.advance := by
  simp [truncate, advance]

theorem truncate_settle (c : Category) : (s.settle c).truncate = s.truncate.settle c := by
  simp [truncate, settle, advance, Mask.truncate_union, Mask.truncate_sdiff]

theorem truncate_report (m : Mask) : (s.report m).truncate = s.truncate.report m.truncate := by
  simp [truncate, report, Mask.truncate_union]

theorem truncate_behind : (s.behind step).truncate = s.truncate.behind step.truncate := by
  simp [truncate, behind, Step.truncate]

theorem dirty_truncate : s.truncate.Dirty step.truncate ↔ s.Dirty step := by
  unfold Dirty
  rw [step.gate_truncate]
  exact iff_of_eq (congrArg (· = true) (Mask.truncate_intersects_of_isStrict step.isStrict_gate))

theorem gateRestart_truncate : gateRestart step.truncate s.truncate = gateRestart step s := by
  unfold gateRestart
  rw [step.gate_truncate]
  have hinter : s.pending.truncate ∩ step.gate = s.pending ∩ step.gate :=
    Mask.truncate_inter_of_isStrict step.isStrict_gate
  rw [show s.truncate.pending = s.pending.truncate from rfl, hinter]
  rfl

theorem members_truncate (setup : Setup σ) (c : Category) :
    members setup.truncate c = (members setup c).map Member.truncate := by
  simp [members, Setup.truncate, Member.truncate]

theorem stepAt_truncate (setup : Setup σ) (c : Category) (next : Member σ) :
    stepAt setup.truncate c next.truncate = (stepAt setup c next).truncate := by
  unfold stepAt
  split
  · rw [members_truncate]
    rfl
  · rfl

theorem truncate_note (e : Entry) : (w.note e).truncate = w.truncate.note e.truncate := rfl

theorem stepBegun_truncate :
    (s.stepBegun step w).truncate = s.truncate.stepBegun step.truncate w.truncate := by
  unfold stepBegun
  rw [step.gate_truncate]
  simp [Workspace.truncate, Workspace.note, Entry.truncate, Step.truncate, truncate,
    Member.truncate, Function.comp_def]

section ListCall

variable {m : Member σ}

theorem answer_truncate : answer step.truncate.gate m.truncate s.truncate w.truncate =
    (answer step.gate m s w).map ListCall.truncate := by
  rw [step.gate_truncate]
  rfl

theorem record_truncate : record step.truncate.gate m.truncate s.truncate w.truncate =
    (record step.gate m s w).truncate := by
  unfold record CallRecord.truncate
  rw [answer_truncate]
  dsimp only
  rw [apply_ite Mask.truncate, Mask.truncate_union]
  rfl

theorem reported_truncate : (record step.gate m s w).reported.truncate =
    (record step.truncate.gate m.truncate s.truncate w.truncate).reported :=
  (congrArg CallRecord.reported record_truncate).symm

theorem withList_truncate : withList step.truncate.gate m.truncate s.truncate w.truncate =
    (withList step.gate m s w).truncate := by
  unfold withList
  rw [answer_truncate]
  rfl

theorem workspaceAfter_truncate :
    workspaceAfter step.truncate.gate m.truncate s.truncate w.truncate =
      (workspaceAfter step.gate m s w).truncate := by
  unfold workspaceAfter
  rw [record_truncate, answer_truncate]
  rfl

end ListCall

/-- The visit of an entry with truncated masks. -/
theorem entryOutcome_truncate (hblind : ∀ m ∈ step.members, m.rule.Blind)
    {before after : List (Option TaskId)} {task : TaskId} {r : Except Stop TaskView}
    {w' : Workspace σ} (h : entryOutcome setup step before after task w = (r, w')) :
    entryOutcome setup.truncate step.truncate before after task w.truncate =
      (r.map TaskView.truncate, w'.truncate) := by
  have hgated : (TaskView.ofEntry (before.reverse ++ some task :: after) step.gate task).Gated :=
    step.isStrict_gate
  have hvisit := Visit.truncates_visit setup.maxSteps hblind step.forTask setup.visitLimit hgated
  rw [TaskView.truncate_ofEntry] at hvisit
  unfold entryOutcome at h ⊢
  rw [step.gate_truncate, step.forTask_truncate]
  cases r with
  | error stop => exact hvisit.stop w stop w' h
  | ok seen =>
      obtain ⟨_, hshown, hseen⟩ := hvisit.ok w seen w' h
      rw [hshown.eq] at hseen
      exact hseen

/-! ## Moves -/

end Sweep

/-- Between two turns, with no category pending. -/
structure Situation.Drained (a : Situation σ) : Prop where
  phase : a.phase = .between
  pending : a.sweep.pending.truncate.isEmpty = true

namespace Sweep

variable {setup : Setup σ} {a b : Situation σ} {s : Sweep}

theorem rule_truncate {c : Category} {i : Nat} {next : Member σ}
    (h : (members setup c)[i]? = some next) :
    (members setup.truncate c)[i]? = some next.truncate := by
  rw [members_truncate, List.getElem?_map, h]
  rfl

/-- Whether the next rule may start after what the pass unsettled. -/
theorem affected_truncate {c : Category} {next : Member σ} :
    s.truncate.affected.intersects (next.truncate.rule.descriptor.dependsFrom ∩ c.mask) =
      s.affected.intersects (next.rule.descriptor.dependsFrom ∩ c.mask) :=
  Mask.truncate_intersects_of_isStrict (Mask.isStrict_inter_right (Mask.isStrict_mask c))

/-- The beginning of a step, logged or not. -/
theorem listing_truncate {c : Category} {next : Member σ} {w : Workspace σ} :
    Situation.truncate ⟨.listing (stepAt setup c next) (stepAt setup c next).members, s, w⟩ =
      ⟨.listing (stepAt setup.truncate c next.truncate)
        (stepAt setup.truncate c next.truncate).members, s.truncate, w.truncate⟩ := by
  rw [stepAt_truncate]
  rfl

/-- What lets a step begin lets it begin with truncated masks. -/
theorem begins_truncate {c : Category} {next : Member σ} (hpending : c ∈ s.pending)
    (hrule : (members setup c)[s.nextRule]? = some next)
    (hclean : c.simultaneous = false →
      s.affected.intersects (next.rule.descriptor.dependsFrom ∩ c.mask) = false) :
    c ∈ s.truncate.pending ∧
      (members setup.truncate c)[s.truncate.nextRule]? = some next.truncate ∧
      (c.simultaneous = false → s.truncate.affected.intersects
        (next.truncate.rule.descriptor.dependsFrom ∩ c.mask) = false) :=
  ⟨Mask.mem_truncate.mpr hpending, rule_truncate hrule,
    fun hsingle => affected_truncate.trans (hclean hsingle)⟩

/-- A turn begins with the same move. -/
theorem Move.truncate_turning {w : Workspace σ} (h : Move setup ⟨.turning, s, w⟩ b) :
    Move setup.truncate ⟨.turning, s.truncate, w.truncate⟩ b.truncate := by
  cases h with
  | rewind hlast =>
      show Move _ _ ⟨.between, s.rewind.truncate, _⟩
      rw [truncate_rewind]
      exact .rewind hlast
  | advance hhere hsettled =>
      show Move _ _ ⟨.between, s.advance.truncate, _⟩
      rw [truncate_advance]
      exact .advance hhere (mt Mask.mem_truncate.mp hsettled)
  | @settle _ _ c hhere hpending hdone =>
      show Move _ _ ⟨.between, (s.settle c).truncate, _⟩
      rw [truncate_settle]
      refine .settle hhere (Mask.mem_truncate.mpr hpending) ?_
      rw [members_truncate, List.getElem?_map, show s.truncate.nextRule = s.nextRule from rfl,
        hdone]
      rfl
  | restart hhere hpending hrule hsingle hdirty =>
      show Move _ _ ⟨.between, s.restart.truncate, _⟩
      rw [truncate_restart]
      have hrestart := Move.restart (s := s.truncate) (w := w.truncate) hhere
        (Mask.mem_truncate.mpr hpending) (rule_truncate hrule) hsingle
        (affected_truncate.trans hdirty)
      exact hrestart
  | begin hhere hpending hrule hclean hquiet =>
      obtain ⟨hpending, hrule, hclean⟩ := begins_truncate hpending hrule hclean
      rw [listing_truncate, stepBegun_truncate, ← stepAt_truncate]
      exact .begin hhere hpending hrule hclean hquiet
  | beginLogged hhere hpending hrule hclean hlogs hdump =>
      obtain ⟨hpending, hrule, hclean⟩ := begins_truncate hpending hrule hclean
      rw [listing_truncate, truncate_note, stepBegun_truncate, ← stepAt_truncate]
      exact .beginLogged hhere hpending hrule hclean hlogs hdump
  | @unlogged _ _ c next _ hhere hpending hrule hclean hlogs hdump =>
      obtain ⟨hpending, hrule, hclean⟩ := begins_truncate hpending hrule hclean
      show Move _ _ ⟨.stopped, _, (s.stepBegun (stepAt setup c next) w).truncate⟩
      rw [stepBegun_truncate, ← stepAt_truncate]
      exact .unlogged hhere hpending hrule hclean hlogs hdump

section Step

variable {step : Step σ} {w : Workspace σ}

/-- The sweep goes back for the same reason. -/
theorem restart_truncate {t : Sweep} :
    Situation.truncate ⟨.between, t.restart, w.note (s.gateRestart step)⟩ =
      ⟨.between, t.truncate.restart, w.truncate.note (s.truncate.gateRestart step.truncate)⟩ := by
  rw [gateRestart_truncate, ← truncate_restart]
  rfl

/-- The rules of a step are called for the list with the same moves. -/
theorem Move.truncate_listing {rest : List (Member σ)}
    (h : Move setup ⟨.listing step rest, s, w⟩ b) :
    Move setup.truncate
      ⟨.listing step.truncate (rest.map Member.truncate), s.truncate, w.truncate⟩ b.truncate := by
  cases h with
  | @call _ _ _ m _ hclean hforList hreturns =>
      show Move _ _ ⟨_, ((withList step.gate m s w).report
        (record step.gate m s w).reported).truncate, (workspaceAfter step.gate m s w).truncate⟩
      rw [truncate_report, ← withList_truncate, reported_truncate, ← workspaceAfter_truncate]
      exact .call (mt dirty_truncate.mp hclean) hforList
        ((congrArg Answered.fault answer_truncate).trans hreturns)
  | @raise _ _ _ m _ f hclean hforList hraises =>
      show Move _ _ ⟨_, (withList step.gate m s w).truncate.halt (.fault f),
        (workspaceAfter step.gate m s w).truncate⟩
      rw [← withList_truncate, ← workspaceAfter_truncate]
      exact .raise (mt dirty_truncate.mp hclean) hforList
        ((congrArg Answered.fault answer_truncate).trans hraises)
  | skip hclean hother => exact .skip (mt dirty_truncate.mp hclean) hother
  | descend hclean hentries =>
      exact .descend (mt dirty_truncate.mp hclean) (step.forEntries_truncate.trans hentries)
  | finishList hclean hother =>
      show Move _ _ ⟨.between, (s.behind step).truncate, _⟩
      rw [truncate_behind]
      exact .finishList (mt dirty_truncate.mp hclean) (step.forEntries_truncate.trans hother)
  | cutList hdirty =>
      rw [restart_truncate]
      exact .cutList (dirty_truncate.mpr hdirty)

/-- The entries are visited with the same moves, if the rules of the step are blind. -/
theorem Move.truncate_visiting {before after : List (Option TaskId)}
    (hblind : ∀ m ∈ step.members, m.rule.Blind)
    (h : Move setup ⟨.visiting step before after, s, w⟩ b) :
    Move setup.truncate ⟨.visiting step.truncate before after, s.truncate, w.truncate⟩
      b.truncate := by
  cases h with
  | hole hclean => exact .hole (mt dirty_truncate.mp hclean)
  | @visit _ _ _ _ _ _ seen _ hclean houtcome hdone =>
      have houtcome' := entryOutcome_truncate hblind houtcome
      show Move _ _ ⟨_, (s.report seen.affects).truncate, _⟩
      rw [truncate_report]
      exact .visit (mt dirty_truncate.mp hclean) houtcome' hdone
  | @revisit _ _ _ _ _ _ seen _ _ hclean houtcome hrepeats hnew hleft =>
      have houtcome' := entryOutcome_truncate hblind houtcome
      show Move _ _ ⟨_, (s.report seen.affects).truncate, _⟩
      rw [truncate_report]
      exact .revisit (mt dirty_truncate.mp hclean) houtcome' hrepeats hnew hleft
  | @unrepeated _ _ _ _ after _ seen new _ hclean houtcome hrepeats hnew hspent =>
      have houtcome' := entryOutcome_truncate hblind houtcome
      show Move _ _ ⟨_, { (s.report seen.affects).truncate.halt .exhausted with
        list := before.reverse ++ some new :: after }, _⟩
      rw [truncate_report]
      exact .unrepeated (mt dirty_truncate.mp hclean) houtcome' hrepeats hnew hspent
  | abort hclean houtcome =>
      exact .abort (mt dirty_truncate.mp hclean) (entryOutcome_truncate hblind houtcome)
  | finish hclean =>
      show Move _ _
        ⟨.between, (({ s with list := before.reverse } : Sweep).behind step).truncate, _⟩
      rw [truncate_behind]
      exact .finish (mt dirty_truncate.mp hclean)
  | cut hdirty =>
      rw [restart_truncate]
      exact .cut (dirty_truncate.mpr hdirty)

end Step

/-- **A move is one with truncated masks as well**, except where no category is pending: there the
sweep with truncated masks is over. -/
theorem Move.truncate (hblind : ∀ c, ∀ id ∈ setup.registry.rules c, (setup.rules id).Blind)
    (hstands : a.Stands setup) (h : Move setup a b) (hgoes : ¬ a.Drained) :
    Move setup.truncate a.truncate b.truncate := by
  obtain ⟨phase, s, w⟩ := a
  cases phase with
  | between =>
      have hmore : s.truncate.pending.isEmpty = false :=
        Bool.eq_false_iff.mpr fun hempty => hgoes ⟨rfl, hempty⟩
      cases h with
      | spend _ hleft => exact .spend hmore hleft
      | exhausted _ hspent => exact .exhausted hmore hspent
  | turning => exact h.truncate_turning
  | listing step rest => exact h.truncate_listing
  | visiting step before after =>
      exact h.truncate_visiting (hstands.1.forall_members hblind)
  | stopped => exact absurd rfl h.phase_ne_stopped

end Sweep

end RenderPlan
