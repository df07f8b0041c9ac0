/-
# RenderPlan.Proofs.Optimize.Passes -- which categories are settled, and when

A category is settled at a point of a journal if a pass over it was completed before, and no call
made since the beginning of the last completed pass reported it (`Journal.Settled`). A sweep does
not look at the journal. It keeps a set of pending categories, the unrest of the present pass, and
during a visit the unrest of that visit at every depth; the invariants below tie the three to the
journal: outside of them everything is settled.

Two results follow. When an optimization is done nothing is pending, so no report was lost
(`Setup.settled_of_optimize_eq_ok`). And since the gate of a step is compared with the pending
categories, or with the unrest of a visit, before each call, rules are only called on settled ground
(`Setup.optimize_on_settled_ground`).

Journals have the latest event first.
-/
import RenderPlan.Proofs.Optimize.Standing

namespace RenderPlan

variable {σ : Type} {setup : Setup σ}

/-- Events that happen within a step. -/
def Entry.isInner : Entry → Bool
  | .dump _ | .call _ | .visit .. => true
  | _ => false

/-- The category that the event settles, if it settles one. -/
def Entry.settled? : Entry → Option Category
  | .settled c => some c
  | _ => none

namespace Journal

/-! ## Passes -/

/-- The events of an uninterrupted pass over a category that has come through these rules: its steps
begin with the first rule of the category, each one where the one before ended, and there is nothing
between them but what happened in them. No restart is among them, so no step was cut short; what
each step did is told by `Setup.pass_carried_out`. -/
inductive Pass (c : Category) : List RuleId → Journal → Prop where
  /-- Nothing was done yet. -/
  | start : Pass c [] []
  /-- The next step began. -/
  | step {done : List RuleId} {j : Journal} (before : Pass c done j) (rules : List RuleId)
      (gate : Mask) : Pass c (done ++ rules) (.step c done.length rules gate :: j)
  /-- Something happened in a step. -/
  | inner {done : List RuleId} {j : Journal} {e : Entry} (before : Pass c done j)
      (begun : done ≠ []) (inner : e.isInner = true) : Pass c done (e :: j)

/-- No call reported the category. -/
def Quiet (j : Journal) (c : Category) : Prop := ∀ r, .call r ∈ j → c ∉ r.reported

/-- The category has a completed pass, and no call reported it since the last one began. -/
def Settled (setup : Setup σ) (j : Journal) (c : Category) : Prop :=
  ∃ later pass earlier : Journal, j = later ++ .settled c :: (pass ++ earlier) ∧
    .settled c ∉ later ∧ Pass c (setup.registry.rules c) pass ∧ Quiet (later ++ pass) c

/-- The last step in the journal is one over these rules, and nothing but what happened in it comes
after. -/
def Within (j : Journal) (c : Category) (ids : List RuleId) : Prop :=
  ∃ first gate, ∃ inner earlier : Journal, j = inner ++ .step c first ids gate :: earlier ∧
    ∀ e ∈ inner, e.isInner = true

/-! ## What is allowed -/

/-- A rule is called in a step it belongs to, and all earlier categories that the rules of the step
rely on are settled. -/
def Grounded (setup : Setup σ) (r : CallRecord) (earlier : Journal) : Prop :=
  ∃ c ids, Within earlier c ids ∧ r.rule ∈ ids ∧ ids ⊆ setup.registry.rules c ∧
    ∀ id ∈ ids, ∀ d ∈ (setup.rules id).descriptor.dependsFrom, d < c → Settled setup earlier d

/-- A step over a rule that relies on its own category begins in a pass that did not unsettle it. -/
def Unspoilt (setup : Setup σ) (c : Category) (first : Nat) (ids : List RuleId)
    (earlier : Journal) : Prop :=
  c.simultaneous = false → ∀ id ∈ ids, c ∈ (setup.rules id).descriptor.dependsFrom →
    ∃ pass rest : Journal, earlier = pass ++ rest ∧
      Pass c ((setup.registry.rules c).take first) pass ∧ Quiet pass c

/-- What has to hold of the journal when an event comes to it. -/
def Allowed (setup : Setup σ) : Entry → Journal → Prop
  | .call r, earlier => Grounded setup r earlier
  | .step c first ids _, earlier => Unspoilt setup c first ids earlier
  | _, _ => True

/-- Every event was allowed when it happened. -/
def Lawful (setup : Setup σ) : Journal → Prop
  | [] => True
  | e :: earlier => Allowed setup e earlier ∧ Lawful setup earlier

variable {j : Journal} {c d : Category} {e : Entry} {r : CallRecord} {ids : List RuleId}

theorem Lawful.allowed {later earlier : Journal} (h : Lawful setup (later ++ e :: earlier)) :
    Allowed setup e earlier := by
  induction later with
  | nil => exact h.1
  | cons _ later ih => exact ih h.2

/-! ## One more event -/

theorem Quiet.append {j' : Journal} (h : Quiet j c) (h' : Quiet j' c) : Quiet (j ++ j') c :=
  fun r hr => (List.mem_append.mp hr).elim (h r) (h' r)

theorem Quiet.cons (h : Quiet j c) (he : ∀ r, e = .call r → c ∉ r.reported) : Quiet (e :: j) c := by
  intro r hr
  rcases List.mem_cons.mp hr with heq | hr
  · exact he r heq.symm
  · exact h r hr

theorem Quiet.cons_call (h : Quiet j c) (hr : c ∉ r.reported) : Quiet (.call r :: j) c := by
  refine h.cons ?_
  rintro _ ⟨⟩
  exact hr

theorem Quiet.cons_other (h : Quiet j c) (he : e.call? = none) : Quiet (e :: j) c := by
  refine h.cons ?_
  rintro r rfl
  cases he

/-- A category stays settled until a call reports it or a pass over it is done. -/
theorem Settled.cons (h : Settled setup j c) (hother : e ≠ .settled c)
    (he : ∀ r, e = .call r → c ∉ r.reported) : Settled setup (e :: j) c := by
  obtain ⟨later, pass, earlier, rfl, hlast, hpass, hquiet⟩ := h
  refine ⟨e :: later, pass, earlier, rfl, ?_, hpass, hquiet.cons he⟩
  simpa using ⟨hother.symm, hlast⟩

theorem Settled.cons_call (h : Settled setup j c) (hr : c ∉ r.reported) :
    Settled setup (.call r :: j) c := by
  refine h.cons (by simp) ?_
  rintro _ ⟨⟩
  exact hr

theorem Settled.cons_settled (h : Settled setup j c) (hother : c ≠ d) :
    Settled setup (.settled d :: j) c :=
  h.cons (by simpa using hother.symm) (by simp)

theorem Settled.cons_other (h : Settled setup j c) (hother : e.settled? = none)
    (he : e.call? = none) : Settled setup (e :: j) c := by
  refine h.cons ?_ ?_
  · rintro rfl
    cases hother
  · rintro r rfl
    cases he

/-- A pass that is done and was quiet settles its category. -/
theorem settled_cons_of_pass {pass : Journal} (earlier : Journal)
    (hpass : Pass c (setup.registry.rules c) pass) (hquiet : Quiet pass c) :
    Settled setup (.settled c :: (pass ++ earlier)) c :=
  ⟨[], pass, earlier, rfl, nofun, hpass, hquiet⟩

theorem Pass.append_inner {done : List RuleId} {inner : Journal} (h : Pass c done j)
    (hbegun : done ≠ []) (hinner : ∀ e ∈ inner, e.isInner = true) : Pass c done (inner ++ j) := by
  induction inner with
  | nil => exact h
  | cons e inner ih =>
      obtain ⟨he, hrest⟩ := List.forall_mem_cons.mp hinner
      exact .inner (ih hrest) hbegun he

theorem Within.cons (h : Within j c ids) (he : e.isInner = true) : Within (e :: j) c ids := by
  obtain ⟨first, gate, inner, earlier, rfl, hinner⟩ := h
  exact ⟨first, gate, e :: inner, earlier, rfl, List.forall_mem_cons.mpr ⟨he, hinner⟩⟩

end Journal

open Journal

namespace Visit

/-! ## Visits -/

variable {maxSteps : Nat} {rules : List (Member σ)} {w₀ w : Workspace σ} {v₀ v : TaskView}
  {copied : Bool} {c : Category} {ids : List RuleId} {outer : Mask} {stop : Stop}

/-- A visit of the step `ids` may begin: what the rules rely on is in the gate, and outside of what
is pending (`outer`) and of the unrest of the visit itself everything is settled. -/
structure Admitted (setup : Setup σ) (c : Category) (ids : List RuleId) (outer : Mask)
    (v : TaskView) (j : Journal) : Prop where
  registered : ids ⊆ setup.registry.rules c
  gated : ∀ id ∈ ids, ∀ d ∈ (setup.rules id).descriptor.dependsFrom, d < c → d ∈ v.gate
  apart : ∀ d ∈ v.gate, d ∉ outer
  within : j.Within c ids
  lawful : j.Lawful setup
  settled : ∀ d, d ∉ outer → d ∉ v.affects → j.Settled setup d

/-- The journal has grown by events of the step, and the calls among them reported nothing but
unrest that the view knows. -/
def Grown (v : TaskView) (j₀ j : Journal) : Prop :=
  ∃ new : Journal, j = new ++ j₀ ∧ (∀ e ∈ new, e.isInner = true) ∧
    ∀ d, d ∉ v.affects → Quiet new d

theorem notMem_of_fresh (hfresh : v.isStale = false) : ∀ d ∈ v.gate, d ∉ v.affects := by
  have hclean : v.affects.intersects v.gate = false := (Bool.or_eq_false_iff.mp hfresh).2
  exact fun d hd => Mask.notMem_of_not_intersects hclean hd

theorem Admitted.grounded {j : Journal} (h : Admitted setup c ids outer v j) {r : CallRecord}
    (hr : r.rule ∈ ids) (hclean : ∀ d ∈ v.gate, d ∉ v.affects) : Grounded setup r j := by
  refine ⟨c, ids, h.within, hr, h.registered, fun id hid d hd hlt => ?_⟩
  have hgate := h.gated id hid d hd hlt
  exact h.settled d (h.apart d hgate) (hclean d hgate)

/-- The call of a rule. -/
theorem Admitted.call (h : Admitted setup c ids outer v w.journal) {m : Member σ}
    (hm : m.id ∈ ids) (hfresh : v.isStale = false) :
    Admitted setup c ids outer (viewAfter m v w) (workspaceAfter m v w).journal where
  registered := h.registered
  gated := h.gated
  apart := h.apart
  within := h.within.cons rfl
  lawful := ⟨h.grounded hm (notMem_of_fresh hfresh), h.lawful⟩
  settled d houter hd := by
    simp only [viewAfter, Mask.mem_union, not_or] at hd
    exact (h.settled d houter hd.1).cons_call hd.2

/-- The visit of a sub-task begins. -/
theorem Admitted.child (h : Admitted setup c ids outer v w.journal) (hfresh : v.isStale = false)
    (child : TaskId) :
    Admitted setup c ids (outer ∪ v.affects) (v.ofChild child) w.journal where
  registered := h.registered
  gated := h.gated
  apart d hd := by simpa using ⟨h.apart d hd, notMem_of_fresh hfresh d hd⟩
  within := h.within
  lawful := h.lawful
  settled d houter _ := by
    simp only [Mask.mem_union, not_or] at houter
    exact h.settled d houter.1 houter.2

/-- A sub-task comes back from its visit with unrest that is taken over. -/
theorem Admitted.absorb {seen v' : TaskView} {j : Journal} {place : Place} {task : TaskId}
    {result : Option TaskId} {mode : RepeatMode} (h : Admitted setup c ids outer v w.journal)
    (hbelow : Admitted setup c ids (outer ∪ v.affects) seen j) (hgate : v'.gate = v.gate)
    (haffects : v'.affects = v.affects ∪ seen.affects) :
    Admitted setup c ids outer v' (.visit place task result mode :: j) where
  registered := h.registered
  gated := hgate ▸ h.gated
  apart := hgate ▸ h.apart
  within := hbelow.within.cons rfl
  lawful := ⟨trivial, hbelow.lawful⟩
  settled d houter hd := by
    simp only [haffects, Mask.mem_union, not_or] at hd
    refine (hbelow.settled d ?_ hd.2).cons_other rfl rfl
    simpa using ⟨houter, hd.1⟩

theorem Grown.call {j₀ : Journal} (h : Grown v j₀ w.journal) (m : Member σ) :
    Grown (viewAfter m v w) j₀ (workspaceAfter m v w).journal := by
  obtain ⟨new, hj, hinner, hquiet⟩ := h
  refine ⟨.call (record m v w) :: new, congrArg _ hj, ?_, fun d hd => ?_⟩
  · exact List.forall_mem_cons.mpr ⟨rfl, hinner⟩
  · simp only [viewAfter, Mask.mem_union, not_or] at hd
    exact (hquiet d hd.1).cons_call hd.2

theorem Grown.absorb {seen v' : TaskView} {j₀ j : Journal} {place : Place} {task : TaskId}
    {result : Option TaskId} {mode : RepeatMode} (h : Grown v j₀ w.journal)
    (hbelow : Grown seen w.journal j) (haffects : v'.affects = v.affects ∪ seen.affects) :
    Grown v' j₀ (.visit place task result mode :: j) := by
  obtain ⟨new, hj, hinner, hquiet⟩ := h
  obtain ⟨new', rfl, hinner', hquiet'⟩ := hbelow
  refine ⟨.visit place task result mode :: (new' ++ new), by simp [hj], ?_, fun d hd => ?_⟩
  · exact List.forall_mem_cons.mpr ⟨rfl, List.forall_mem_append.mpr ⟨hinner', hinner⟩⟩
  · simp only [haffects, Mask.mem_union, not_or] at hd
    exact ((hquiet' d hd.2).append (hquiet d hd.1)).cons_other rfl

/-- Along its course a visit stays admitted, and it reports its calls. -/
theorem Course.admitted (hids : ∀ m ∈ rules, m.id ∈ ids)
    (h : Course maxSteps rules w₀ v₀ copied v w)
    (hv : Admitted setup c ids outer v₀ w₀.journal) :
    Admitted setup c ids outer v w.journal ∧ Grown v w₀.journal w.journal := by
  induction h generalizing outer with
  | enter => exact ⟨hv, [], rfl, nofun, nofun⟩
  | call _ hm hfresh _ ih =>
      obtain ⟨hadmitted, hgrown⟩ := ih hv
      exact ⟨hadmitted.call (hids _ hm) hfresh, hgrown.call _⟩
  | keep _ hdescends _ _ ih ihBelow | splice _ hdescends _ _ _ _ ih ihBelow =>
      obtain ⟨hadmitted, hgrown⟩ := ih hv
      obtain ⟨hbelow, hgrownBelow⟩ := ihBelow (hadmitted.child hdescends.fresh _)
      exact ⟨hadmitted.absorb hbelow rfl rfl, hgrown.absorb hgrownBelow rfl⟩
  | spend _ _ ih => exact ih hv

/-- A visit that was broken off has a lawful journal, too. -/
theorem Aborted.lawful (hids : ∀ m ∈ rules, m.id ∈ ids)
    (h : Aborted maxSteps rules w₀ v₀ stop w)
    (hv : Admitted setup c ids outer v₀ w₀.journal) : w.journal.Lawful setup := by
  induction h generalizing outer with
  | limit hcourse | missing hcourse => exact (hcourse.admitted hids hv).1.lawful
  | exhausted hcourse => exact ⟨trivial, (hcourse.admitted hids hv).1.lawful⟩
  | raised hcourse hm hfresh =>
      have hadmitted := (hcourse.admitted hids hv).1
      exact ⟨hadmitted.grounded (hids _ hm) (notMem_of_fresh hfresh), hadmitted.lawful⟩
  | inside hcourse hdescends _ ih =>
      exact ih ((hcourse.admitted hids hv).1.child hdescends.fresh _)
  | unwritten hcourse hdescends hbelow =>
      have hadmitted := (hcourse.admitted hids hv).1
      exact ⟨trivial, (hbelow.admitted hids (hadmitted.child hdescends.fresh _)).1.lawful⟩

end Visit

namespace Sweep

/-! ## Sweeps -/

variable {s : Sweep} {w w' : Workspace σ} {step : Step σ} {c d : Category} {j : Journal}

/-- Outside of what is pending everything is settled. -/
def Tracks (setup : Setup σ) (s : Sweep) (j : Journal) : Prop :=
  ∀ d, d ∉ s.pending → j.Settled setup d

/-- The journal ends with the pass that the sweep is in, and all unrest of that pass is known. -/
def OnPass (setup : Setup σ) (s : Sweep) (j : Journal) : Prop :=
  ∀ c, Category.ofIndex? s.position = some c → ∃ pass earlier : Journal, j = pass ++ earlier ∧
    Pass c ((setup.registry.rules c).take s.nextRule) pass ∧ ∀ d, d ∉ s.affected → Quiet pass d

/-- The journal ends with the step, which goes on with the pass that the sweep is in, and all unrest
of that pass is known. -/
def InStep (setup : Setup σ) (s : Sweep) (step : Step σ) (j : Journal) : Prop :=
  ∃ gate, ∃ inner pass earlier : Journal,
    j = inner ++ .step step.category s.nextRule (step.members.map Member.id) gate ::
      (pass ++ earlier) ∧
    (∀ e ∈ inner, e.isInner = true) ∧
    Pass step.category ((setup.registry.rules step.category).take s.nextRule) pass ∧
    ∀ d, d ∉ s.affected → Quiet (inner ++ pass) d

end Sweep

/-- What the journal has to do with where the optimization stands. -/
structure Situation.Accounts (setup : Setup σ) (a : Situation σ) : Prop where
  lawful : a.work.journal.Lawful setup
  tracks : a.phase ≠ .stopped → a.sweep.Tracks setup a.work.journal
  passes : match a.phase with
    | .between | .turning => a.sweep.OnPass setup a.work.journal
    | .listing step _ | .visiting step _ _ => a.sweep.InStep setup step a.work.journal
    | .stopped => True

namespace Sweep

variable {s : Sweep} {w w' : Workspace σ} {step : Step σ} {c d : Category} {j : Journal}
  {a b : Situation σ}

theorem Tracks.cons {e : Entry} (h : s.Tracks setup j) (hother : e.settled? = none)
    (hcall : e.call? = none) : s.Tracks setup (e :: j) :=
  fun d hd => (h d hd).cons_other hother hcall

/-- A pass over a category begins. -/
theorem onPass_of_nextRule (h : s.nextRule = 0) : s.OnPass setup j := by
  intro c _
  refine ⟨[], j, rfl, ?_, fun d _ => nofun⟩
  rw [h]
  exact .start

theorem Stepping.length_take (h : s.Stepping setup step) :
    ((setup.registry.rules step.category).take s.nextRule).length = s.nextRule := by
  have hlt := h.nextRule_lt
  rw [← List.length_map Member.id, map_id_members] at hlt
  rw [List.length_take, Nat.min_eq_left (Nat.le_of_lt hlt)]

/-- A step begins where the rules before it end, in a pass that did not unsettle what its rule
relies on. -/
theorem begun {next : Member σ} (hlaw : w.journal.Lawful setup)
    (htracks : s.Tracks setup w.journal) (hpass : s.OnPass setup w.journal)
    (hhere : Category.ofIndex? s.position = some c)
    (hrule : (members setup c)[s.nextRule]? = some next)
    (hclean : c.simultaneous = false →
      s.affected.intersects (next.rule.descriptor.dependsFrom ∩ c.mask) = false) :
    (s.stepBegun (stepAt setup c next) w).journal.Lawful setup ∧
      s.Tracks setup (s.stepBegun (stepAt setup c next) w).journal ∧
      s.InStep setup (stepAt setup c next) (s.stepBegun (stepAt setup c next) w).journal := by
  obtain ⟨pass, earlier, hj, hpass, hquiet⟩ := hpass c hhere
  refine ⟨⟨?_, hlaw⟩, htracks.cons rfl rfl, ?_⟩
  · change Unspoilt ..
    rw [category_stepAt]
    intro hsim id hid hdepends
    refine ⟨pass, earlier, hj, hpass, hquiet c ?_⟩
    obtain rfl : id = next.id := by simpa [stepAt, hsim] using hid
    have hnext := (mem_members.mp (List.mem_of_getElem? hrule)).2
    refine Mask.notMem_of_not_intersects (hclean hsim) ?_
    simpa using hnext ▸ hdepends
  · refine ⟨(stepAt setup c next).gate, [], pass, earlier, congrArg _ hj, ?_, ?_, hquiet⟩
    · exact List.forall_mem_nil _
    · rw [category_stepAt]
      exact hpass

/-- Behind the step the pass has come through its rules. -/
theorem InStep.behind (hstep : s.Stepping setup step) (h : s.InStep setup step j) :
    (s.behind step).OnPass setup j := by
  intro c hhere
  obtain rfl : step.category = c := Option.some.inj (hstep.here.symm.trans hhere)
  obtain ⟨gate, inner, pass, earlier, rfl, hinner, hpass, hquiet⟩ := h
  refine ⟨inner ++ .step step.category s.nextRule (step.members.map Member.id) gate :: pass,
    earlier, by simp, ?_, fun d hd => ?_⟩
  · have hdone := congrArg (List.map Member.id) hstep.take_append
    rw [List.map_append, List.map_take, List.map_take, map_id_members] at hdone
    have hbegun := Pass.step hpass (step.members.map Member.id) gate
    rw [hstep.length_take, hdone] at hbegun
    refine hbegun.append_inner ?_ hinner
    rw [← hdone]
    exact List.append_ne_nil_of_right_ne_nil _ (by simpa using hstep.members_ne_nil)
  · intro r hr
    refine hquiet d hd r ?_
    simpa using hr

theorem InStep.within (h : s.InStep setup step j) :
    j.Within step.category (step.members.map Member.id) := by
  obtain ⟨gate, inner, pass, earlier, rfl, hinner, _⟩ := h
  exact ⟨s.nextRule, gate, inner, pass ++ earlier, rfl, hinner⟩

/-- The step goes on. -/
theorem InStep.grow {s' : Sweep} (h : s.InStep setup step j) (new : Journal)
    (hnew : ∀ e ∈ new, e.isInner = true) (hnext : s'.nextRule = s.nextRule)
    (hquiet : ∀ d, d ∉ s'.affected → d ∉ s.affected ∧ Quiet new d) :
    s'.InStep setup step (new ++ j) := by
  obtain ⟨gate, inner, pass, earlier, rfl, hinner, hpass, hknown⟩ := h
  refine ⟨gate, new ++ inner, pass, earlier, by simp [hnext], ?_, hnext ▸ hpass, fun d hd => ?_⟩
  · exact List.forall_mem_append.mpr ⟨hnew, hinner⟩
  · rw [List.append_assoc]
    exact (hquiet d hd).2.append (hknown d (hquiet d hd).1)

/-- A restart forgets the pass, and nothing else. -/
theorem accounts_restart (hlaw : w.journal.Lawful setup) (htracks : s.Tracks setup w.journal)
    (cause : RestartCause) :
    Situation.Accounts setup ⟨.between, s.restart, w.note (.restart cause)⟩ where
  lawful := ⟨trivial, hlaw⟩
  tracks _ := Tracks.cons (s := s) htracks rfl rfl
  passes := onPass_of_nextRule rfl

/-- In a step that is not dirty an entry may be visited. -/
theorem admitted_ofEntry (hstep : s.Stepping setup step) (hclean : ¬ s.Dirty step)
    (hlaw : j.Lawful setup) (htracks : s.Tracks setup j) (hin : s.InStep setup step j)
    (list : List (Option TaskId)) (task : TaskId) :
    Visit.Admitted setup step.category (step.members.map Member.id) s.pending
      (.ofEntry list step.gate task) j where
  registered := by
    rw [← map_id_members]
    exact List.map_subset _ hstep.members_subset
  gated id hid d hd hlt := by
    obtain ⟨m, hm, rfl⟩ := List.mem_map.mp hid
    have hrule := (mem_members.mp (hstep.members_subset hm)).2
    exact Step.mem_gate.mpr ⟨m, hm, hlt, hrule ▸ hd⟩
  apart d hd := Mask.notMem_of_not_intersects (Bool.eq_false_iff.mpr hclean) hd
  within := hin.within
  lawful := hlaw
  settled d hd _ := htracks d hd

/-- What came of the visit of an entry. -/
theorem accounts_of_entryOutcome {before after : List (Option TaskId)} {task : TaskId}
    {seen : TaskView} (hstep : s.Stepping setup step) (hclean : ¬ s.Dirty step)
    (hlaw : w.journal.Lawful setup) (htracks : s.Tracks setup w.journal)
    (hin : s.InStep setup step w.journal)
    (h : entryOutcome setup step before after task w = (.ok seen, w')) (e : Entry)
    (he : e = listEntry before.length task seen) :
    Journal.Lawful setup (e :: w'.journal) ∧
      (s.report seen.affects).Tracks setup (e :: w'.journal) ∧
      (s.report seen.affects).InStep setup step (e :: w'.journal) := by
  obtain ⟨copied, hcourse⟩ := (Visit.ensures_visit _ _ _ _ _ _).of_outcome h
  have hids : ∀ m ∈ step.members, m.id ∈ step.members.map Member.id :=
    fun m hm => List.mem_map_of_mem hm
  obtain ⟨hadmitted, new, hj, hinner, hquiet⟩ := hcourse.admitted hids
    (admitted_ofEntry hstep hclean hlaw htracks hin _ _)
  subst he
  refine ⟨⟨trivial, hadmitted.lawful⟩, ?_, ?_⟩
  · refine Tracks.cons (fun d hd => ?_) rfl rfl
    simp only [Sweep.report, Mask.mem_union, not_or] at hd
    exact hadmitted.settled d hd.1 hd.2.2
  · rw [hj]
    refine hin.grow (_ :: new) (List.forall_mem_cons.mpr ⟨rfl, hinner⟩) rfl fun d hd => ?_
    simp only [Sweep.report, Mask.mem_union, not_or] at hd
    exact ⟨hd.1, (hquiet d hd.2).cons_other rfl⟩

theorem Move.accounts (hstands : a.Stands setup) (ha : a.Accounts setup) (h : Move setup a b) :
    b.Accounts setup := by
  obtain ⟨hlaw, htracks, hpasses⟩ := ha
  have htracks := htracks h.phase_ne_stopped
  have hstopped : ∀ {s : Sweep} {j : Journal}, Phase.stopped (σ := σ) ≠ .stopped →
      s.Tracks setup j := fun h => absurd rfl h
  cases h with
  | spend => exact ⟨hlaw, fun _ => htracks, hpasses⟩
  | exhausted => exact ⟨⟨trivial, hlaw⟩, hstopped, trivial⟩
  | rewind | advance => exact ⟨hlaw, fun _ => htracks, onPass_of_nextRule rfl⟩
  | @settle s w c hhere hpending hdone =>
      refine ⟨⟨trivial, hlaw⟩, fun _ d hd => ?_, onPass_of_nextRule rfl⟩
      simp only [Sweep.settle, Sweep.advance, Mask.mem_union, Mask.mem_sdiff, Category.mem_mask,
        not_or, not_and, Decidable.not_not] at hd
      by_cases hdc : d = c
      · subst hdc
        obtain ⟨pass, earlier, hj, hpass, hquiet⟩ := hpasses d hhere
        have hall : (setup.registry.rules d).length ≤ s.nextRule := by
          rw [← map_id_members, List.length_map]
          exact List.getElem?_eq_none_iff.mp hdone
        rw [List.take_of_length_le hall] at hpass
        have hsettled := settled_cons_of_pass earlier hpass (hquiet d hd.2)
        rw [← hj] at hsettled
        exact hsettled
      · exact (htracks d fun hpending => hdc (hd.1 hpending)).cons_settled hdc
  | restart | cutList => exact accounts_restart hlaw htracks _
  | cut =>
      refine accounts_restart hlaw ?_ _
      exact htracks
  | begin hhere _ hrule hclean =>
      obtain ⟨hlawful, hbegun, hin⟩ := begun hlaw htracks hpasses hhere hrule hclean
      exact ⟨hlawful, fun _ => hbegun, hin⟩
  | beginLogged hhere _ hrule hclean =>
      obtain ⟨hlawful, hbegun, hin⟩ := begun hlaw htracks hpasses hhere hrule hclean
      refine ⟨⟨trivial, hlawful⟩, fun _ => hbegun.cons rfl rfl, ?_⟩
      exact hin.grow [_] (by simp [Entry.isInner]) rfl fun d hd => ⟨hd, by simp [Quiet]⟩
  | unlogged hhere _ hrule hclean =>
      exact ⟨(begun hlaw htracks hpasses hhere hrule hclean).1, hstopped, trivial⟩
  | @call s w step m rest hclean =>
      have hm := List.mem_map_of_mem (f := Member.id) (hstands.2 (List.mem_cons_self ..))
      have hadmitted := admitted_ofEntry hstands.1 hclean hlaw htracks hpasses [] ⟨0⟩
      refine ⟨⟨hadmitted.grounded hm fun _ _ => Mask.notMem_empty, hlaw⟩, fun _ d hd => ?_, ?_⟩
      · simp only [Sweep.report, Mask.mem_union, not_or] at hd
        exact (htracks d hd.1).cons_call hd.2.2
      · refine hpasses.grow [_] (by simp [Entry.isInner]) rfl fun d hd => ?_
        simp only [Sweep.report, Mask.mem_union, not_or] at hd
        exact ⟨hd.1, by simpa [Quiet] using hd.2⟩
  | raise hclean =>
      have hm := List.mem_map_of_mem (f := Member.id) (hstands.2 (List.mem_cons_self ..))
      have hadmitted := admitted_ofEntry hstands.1 hclean hlaw htracks hpasses [] ⟨0⟩
      exact ⟨⟨hadmitted.grounded hm fun _ _ => Mask.notMem_empty, hlaw⟩, hstopped, trivial⟩
  | skip | descend | hole => exact ⟨hlaw, fun _ => htracks, hpasses⟩
  | finishList => exact ⟨hlaw, fun _ => htracks, InStep.behind hstands.1 hpasses⟩
  | finish =>
      have hbehind := InStep.behind hstands.1 hpasses
      exact ⟨hlaw, fun _ => htracks, hbehind⟩
  | visit hclean houtcome | revisit hclean houtcome =>
      obtain ⟨hlawful, hreported, hin⟩ :=
        accounts_of_entryOutcome hstands.1 hclean hlaw htracks hpasses houtcome _ rfl
      exact ⟨hlawful, fun _ => hreported, hin⟩
  | unrepeated hclean houtcome =>
      have hlawful :=
        (accounts_of_entryOutcome hstands.1 hclean hlaw htracks hpasses houtcome _ rfl).1
      exact ⟨⟨trivial, hlawful⟩, hstopped, trivial⟩
  | abort hclean houtcome =>
      have haborted : Visit.Aborted setup.maxSteps _ _ _ _ _ :=
        (Visit.ensures_visit _ _ _ _ _ _).of_outcome houtcome
      have hlawful := haborted.lawful (fun m hm => List.mem_map_of_mem hm)
        (admitted_ofEntry hstands.1 hclean hlaw htracks hpasses _ _)
      exact ⟨hlawful, hstopped, trivial⟩

end Sweep

/-! ## The whole optimization -/

theorem Setup.accounts_start (setup : Setup σ) (user : σ) (graph : Graph)
    (list : List (Option TaskId)) : (start user graph list).Accounts setup where
  lawful := trivial
  tracks _ _ hd := absurd Mask.mem_full hd
  passes := Sweep.onPass_of_nextRule rfl

/-- **No report is lost.** When an optimization is done, every category has a completed pass that
began after the last call that reported it, whatever the rules do and remember. -/
theorem Setup.settled_of_optimize_eq_ok (setup : Setup σ) (user : σ) (graph : Graph)
    (list : List (Option TaskId)) {stats : OptimizeStats}
    (hok : (setup.optimize user graph list).result = .ok stats) (c : Category) :
    (setup.optimize user graph list).journal.Settled setup c := by
  rcases setup.optimize_invariant user graph list (setup.accounts_start user graph list)
      (fun _ _ => Sweep.Move.accounts) with
    ⟨s, w, haccounts, hempty, heq⟩ | ⟨s, w, stop, _, _, heq⟩
  · rw [heq]
    exact haccounts.tracks nofun c (Mask.notMem_of_isEmpty hempty)
  · rw [heq] at hok
    cases hok

/-! ### A rule that raises an alarm once

The rule comes late. Below the root of the tree, at the first leaf, it reports the first category, so
the sweep has to go through that category again. -/

/-- A rule that reports the first category when it is called for a sub-task for the first time. -/
def Rule.alarming : Rule Bool where
  name := "alarm"
  descriptor := { Descriptor.ofCategory .linear with forTask := true }
  runTask c := { call :=
    if c.user = false ∧ c.view.parent.isSome then
      { c with
        user := true
        view := { c.view with affects := c.view.affects ∪ Category.common.mask } }
    else c }

/-- The rule with another one in the first category that does nothing. -/
def alarmingSetup : Setup Bool where
  rules id := if id = ⟨1⟩ then .alarming
    else { name := "idle", descriptor := { Descriptor.ofCategory .common with forTask := true } }
  registry := ⟨fun c => if c = .common then [⟨0⟩] else if c = .linear then [⟨1⟩] else []⟩
  maxSteps := 64
  logSteps := false
  visitLimit := 8

/-- A node above two leaves. -/
def alarmingGraph : Graph :=
  let leaf : Node := .ofKind ⟨0, "leaf", none, {}⟩
  ⟨#[leaf, leaf, { Node.ofKind ⟨0, "group", none, {}⟩ with
    subTasks := [some ⟨0⟩, none, some ⟨1⟩] }]⟩

theorem Setup.settled_of_optimize_eq_ok_alarming :
    let o := alarmingSetup.optimize false alarmingGraph [some ⟨2⟩]
    (∃ v, .call ⟨⟨1⟩, .task v, Category.common.mask, false⟩ ∈ o.journal ∧ v.task = some ⟨0⟩ ∧
      v.parent = some ⟨2⟩) ∧ o.journal.Settled alarmingSetup .common := by
  intro o
  let v := (TaskView.ofEntry [some ⟨2⟩] ∅ ⟨2⟩).ofChild ⟨0⟩
  refine ⟨⟨v, by decide +kernel, rfl, rfl⟩, ?_⟩
  have hresult : o.result.toOption.isSome = true := by decide +kernel
  cases hok : o.result with
  | ok stats =>
      exact alarmingSetup.settled_of_optimize_eq_ok false alarmingGraph [some ⟨2⟩] hok .common
  | error stop =>
      rw [hok] at hresult
      cases hresult

/-- **Rules are called on settled ground.** Whatever becomes of an optimization, no rule was called
while an earlier category that a rule of its step relies on was unsettled. A rule outside of the
simultaneous categories that relies on its own category was only started in a pass that had not
unsettled this category. -/
theorem Setup.optimize_on_settled_ground (setup : Setup σ) (user : σ) (graph : Graph)
    (list : List (Option TaskId)) :
    let journal := (setup.optimize user graph list).journal
    (∀ later r earlier, journal = later ++ .call r :: earlier → Grounded setup r earlier) ∧
      ∀ later c first ids gate earlier, journal = later ++ .step c first ids gate :: earlier →
        Unspoilt setup c first ids earlier := by
  intro journal
  have hlawful : (setup.optimize user graph list).journal.Lawful setup := by
    rcases setup.optimize_invariant user graph list (setup.accounts_start user graph list)
        (fun _ _ => Sweep.Move.accounts) with
      ⟨s, w, haccounts, _, heq⟩ | ⟨s, w, stop, haccounts, _, heq⟩
    · rw [heq]
      exact haccounts.lawful
    · rw [heq]
      exact haccounts.lawful
  constructor
  · intro later r earlier hj
    rw [show (setup.optimize user graph list).journal = _ from hj] at hlawful
    exact hlawful.allowed
  · intro later c first ids gate earlier hj
    rw [show (setup.optimize user graph list).journal = _ from hj] at hlawful
    exact hlawful.allowed

end RenderPlan
