/-
# RenderPlan.Proofs.Optimize.Conduct -- what a step did between its mark and the next one

A pass (`Journal.Pass`) shows of each of its steps that it began. The mark of the step says no more
than that; what the step did is in the events behind the mark. If the next mark is that of another
step, or of the settled category, the step was carried out (`Journal.CarriedOut`): each of its list
rules was called once, in order, and then all entries of the list, as the list rules had left it,
were visited from left to right. A step that was cut short is followed by a restart, and a restart
is no event of a pass.

So the steps of a pass that settled a category were all carried out (`Setup.pass_carried_out`).
-/
import RenderPlan.Proofs.Optimize.Lineage
import RenderPlan.Proofs.Optimize.Passes

namespace RenderPlan

variable {σ : Type} {setup : Setup σ} {origin : Situation σ}

namespace Entry

/-- The rule that was called for the list, if the event is such a call. -/
def listCall? : Entry → Option RuleId
  | .call ⟨id, .list _, _, _⟩ => some id
  | _ => none

/-- The event is the mark of a step, or of the end of a pass. -/
def isMark : Entry → Bool
  | .step .. | .settled _ => true
  | _ => false

/-- The event happened within the visit of an entry. -/
def isBelow (e : Entry) : Bool := e.isInner && e.listCall?.isNone && e.entryVisit?.isNone

variable {e : Entry}

theorem isInner_of_isBelow (h : e.isBelow = true) : e.isInner = true := by
  simp only [isBelow, Bool.and_eq_true] at h
  exact h.1.1

theorem isMark_eq_false_of_isBelow (h : e.isBelow = true) : e.isMark = false := by
  cases e with
  | step | settled => cases h
  | _ => rfl

end Entry

namespace Journal

/-- The rules that were called for the list, the first call first. -/
def listCalls (j : Journal) : List RuleId := j.reverse.filterMap Entry.listCall?

/-- The tasks that were visited as entries of the list, the first visit first. -/
def visitedEntries (j : Journal) : List TaskId := j.entryVisits.reverse.map EntryVisit.task

variable {j new : Journal} {e : Entry}

theorem listCalls_append : (new ++ j).listCalls = j.listCalls ++ new.listCalls := by
  simp [listCalls]

theorem visitedEntries_append :
    (new ++ j).visitedEntries = j.visitedEntries ++ new.visitedEntries := by
  simp [visitedEntries, entryVisits]

theorem listCalls_eq_nil (h : ∀ e ∈ new, e.isBelow = true) : new.listCalls = [] := by
  refine List.filterMap_eq_nil_iff.mpr fun e he => ?_
  have hbelow := h e (List.mem_reverse.mp he)
  simp only [Entry.isBelow, Bool.and_eq_true, Option.isNone_iff_eq_none] at hbelow
  exact hbelow.1.2

theorem visitedEntries_eq_nil (h : ∀ e ∈ new, e.isBelow = true) : new.visitedEntries = [] := by
  have hnone : new.entryVisits = [] := by
    refine List.filterMap_eq_nil_iff.mpr fun e he => ?_
    have hbelow := h e he
    simp only [Entry.isBelow, Bool.and_eq_true, Option.isNone_iff_eq_none] at hbelow
    exact hbelow.2
  rw [visitedEntries, hnone]
  rfl

/-! ## Steps that were carried out -/

/-- The list rules of a step were all called: each one once, in order, since the step began. -/
structure Listed (setup : Setup σ) (origin : Situation σ) (step : Step σ) (s : Sweep)
    (w : Workspace σ) (called earlier : Journal) : Prop where
  reached : Sweep.Path setup origin ⟨.listing step [], s, w⟩
  begun : w.journal = called ++
    .step step.category s.nextRule (step.members.map Member.id) step.gate :: earlier
  inner : ∀ e ∈ called, e.isInner = true
  calls : called.listCalls =
    (step.members.filter fun m => m.rule.descriptor.forList).map Member.id
  unvisited : called.visitedEntries = []

/-- The step with this mark was carried out, and these are the events in it: first its list rules
were called, and then, if it is a step for entries at all, each entry that the list had at that
moment was visited at least once, from left to right. -/
def CarriedOut (setup : Setup σ) (origin : Situation σ) (mark : Entry)
    (inner earlier : Journal) : Prop :=
  ∃ step s w, ∃ called visits : Journal,
    mark = .step step.category s.nextRule (step.members.map Member.id) step.gate ∧
    inner = visits ++ called ∧ Listed setup origin step s w called earlier ∧
    visits.listCalls = [] ∧
    if step.forEntries then (s.list.filterMap id).Sublist visits.visitedEntries else visits = []

/-- If the last mark in the journal is that of a step, the step was carried out. -/
def LastCarriedOut (setup : Setup σ) (origin : Situation σ) (j : Journal) : Prop :=
  ∀ c first ids gate earlier, j.dropWhile Entry.isInner = .step c first ids gate :: earlier →
    CarriedOut setup origin (.step c first ids gate) (j.takeWhile Entry.isInner) earlier

/-- Whenever the mark of a step or of the end of a pass came to the journal, the step before was
carried out. -/
def Conducted (setup : Setup σ) (origin : Situation σ) : Journal → Prop
  | [] => True
  | e :: earlier =>
      (e.isMark = true → LastCarriedOut setup origin earlier) ∧ Conducted setup origin earlier

theorem Conducted.lastCarriedOut {later earlier : Journal}
    (h : Conducted setup origin (later ++ e :: earlier)) (he : e.isMark = true) :
    LastCarriedOut setup origin earlier := by
  induction later with
  | nil => exact h.1 he
  | cons _ later ih => exact ih h.2

theorem Conducted.append (h : Conducted setup origin j) (hnew : ∀ e ∈ new, e.isMark = false) :
    Conducted setup origin (new ++ j) := by
  induction new with
  | nil => exact h
  | cons e new ih =>
      obtain ⟨he, hrest⟩ := List.forall_mem_cons.mp hnew
      refine ⟨fun hmark => ?_, ih hrest⟩
      rw [he] at hmark
      cases hmark

/-- Behind an event that belongs to no step and begins none, there is nothing to be carried out. -/
theorem lastCarriedOut_cons (hinner : e.isInner = false)
    (hother : ∀ c first ids gate, e ≠ .step c first ids gate) :
    LastCarriedOut setup origin (e :: j) := by
  intro c first ids gate earlier hstep
  rw [List.dropWhile_cons_of_neg (by simp [hinner])] at hstep
  exact absurd (List.cons.inj hstep).1 (hother c first ids gate)

theorem lastCarriedOut_of_step {inner earlier : Journal} {c : Category} {first : Nat}
    {ids : List RuleId} {gate : Mask} (hinner : ∀ e ∈ inner, e.isInner = true) :
    LastCarriedOut setup origin (inner ++ .step c first ids gate :: earlier) ↔
      CarriedOut setup origin (.step c first ids gate) inner earlier := by
  have hmark : ¬ (Entry.step c first ids gate).isInner = true := nofun
  unfold LastCarriedOut
  rw [List.dropWhile_append_of_pos hinner, List.takeWhile_append_of_pos hinner,
    List.dropWhile_cons_of_neg hmark, List.takeWhile_cons_of_neg hmark, List.append_nil]
  constructor
  · exact fun h => h c first ids gate earlier rfl
  · rintro h _ _ _ _ _ ⟨⟩
    exact h

theorem Listed.carriedOut {step : Step σ} {s : Sweep} {w : Workspace σ}
    {called visits earlier : Journal} (h : Listed setup origin step s w called earlier)
    (hinner : ∀ e ∈ visits, e.isInner = true) (hcalls : visits.listCalls = [])
    (hentries : if step.forEntries then (s.list.filterMap id).Sublist visits.visitedEntries
      else visits = []) :
    LastCarriedOut setup origin (visits ++ w.journal) := by
  rw [h.begun, ← List.append_assoc, lastCarriedOut_of_step]
  · exact ⟨step, s, w, called, visits, rfl, rfl, h, hcalls, hentries⟩
  · exact List.forall_mem_append.mpr ⟨hinner, h.inner⟩

end Journal

open Journal

namespace Visit

variable {maxSteps : Nat} {rules : List (Member σ)} {w₀ w : Workspace σ} {v₀ v : TaskView}
  {copied : Bool} {stop : Stop}

/-- Within the visit of an entry no rule is called for the list, and no other entry is visited. -/
theorem Course.stays_below (h : Course maxSteps rules w₀ v₀ copied v w) :
    ∃ new : Journal, w.journal = new ++ w₀.journal ∧ ∀ e ∈ new, e.isBelow = true := by
  induction h with
  | enter => exact ⟨[], rfl, nofun⟩
  | call _ _ _ _ ih =>
      obtain ⟨new, hj, hnew⟩ := ih
      exact ⟨_ :: new, congrArg _ hj, List.forall_mem_cons.mpr ⟨rfl, hnew⟩⟩
  | keep _ _ _ _ ih ihBelow | splice _ _ _ _ _ _ ih ihBelow =>
      obtain ⟨new, hj, hnew⟩ := ih
      obtain ⟨new', hj', hnew'⟩ := ihBelow
      have hboth := hj'.trans (congrArg _ hj)
      rw [← List.append_assoc] at hboth
      exact ⟨_ :: (new' ++ new), congrArg _ hboth,
        List.forall_mem_cons.mpr ⟨rfl, List.forall_mem_append.mpr ⟨hnew', hnew⟩⟩⟩
  | spend _ _ ih => exact ih

theorem Course.conducted (h : Course maxSteps rules w₀ v₀ copied v w)
    (hw : w₀.journal.Conducted setup origin) : w.journal.Conducted setup origin := by
  obtain ⟨new, hj, hnew⟩ := h.stays_below
  rw [hj]
  exact hw.append fun e he => Entry.isMark_eq_false_of_isBelow (hnew e he)

/-- A visit that was broken off made no mark. -/
theorem Aborted.conducted (h : Aborted maxSteps rules w₀ v₀ stop w)
    (hw : w₀.journal.Conducted setup origin) : w.journal.Conducted setup origin := by
  induction h with
  | limit hcourse | missing hcourse => exact hcourse.conducted hw
  | exhausted hcourse | raised hcourse => exact ⟨nofun, hcourse.conducted hw⟩
  | inside hcourse _ _ ih => exact ih (hcourse.conducted hw)
  | unwritten hcourse _ hbelow => exact ⟨nofun, hbelow.conducted (hcourse.conducted hw)⟩

end Visit

namespace Sweep

variable {a b : Situation σ} {s : Sweep} {w w' : Workspace σ} {step : Step σ} {m : Member σ}
  {rest : List (Member σ)} {after : List (Option TaskId)} {j new : Journal}

/-- In this step the rules before these ones are done with the list, and nothing else happened. -/
def Listing (step : Step σ) (rest : List (Member σ)) (s : Sweep) (j : Journal) : Prop :=
  ∃ done, ∃ called earlier : Journal, step.members = done ++ rest ∧
    j = called ++
      .step step.category s.nextRule (step.members.map Member.id) step.gate :: earlier ∧
    (∀ e ∈ called, e.isInner = true) ∧
    called.listCalls = (done.filter fun m => m.rule.descriptor.forList).map Member.id ∧
    called.visitedEntries = []

/-- In this step all rules are done with the list, and the entries of the list that were not visited
since are among these. -/
def Visiting (setup : Setup σ) (origin : Situation σ) (step : Step σ)
    (after : List (Option TaskId)) (j : Journal) : Prop :=
  ∃ s w, ∃ called visits earlier : Journal, Listed setup origin step s w called earlier ∧
    step.forEntries = true ∧ j = visits ++ w.journal ∧ (∀ e ∈ visits, e.isInner = true) ∧
    visits.listCalls = [] ∧ (s.list.filterMap id).Sublist (visits.visitedEntries ++ after.filterMap id)

/-- What a step has done so far, and what the steps before it did. -/
structure Conducts (setup : Setup σ) (origin a : Situation σ) : Prop where
  reached : Path setup origin a
  before : a.work.journal.Conducted setup origin
  now : match a.phase with
    | .between | .turning => a.work.journal.LastCarriedOut setup origin
    | .listing step rest => Listing step rest a.sweep a.work.journal
    | .visiting step _ after => Visiting setup origin step after a.work.journal
    | .stopped => True

theorem Listing.call (h : Listing step (m :: rest) s j) (hlist : m.rule.descriptor.forList = true)
    (gate : Mask) (w : Workspace σ) :
    Listing step rest s (.call (record gate m s w) :: j) := by
  obtain ⟨done, called, earlier, hmembers, rfl, hinner, hcalls, hvisits⟩ := h
  refine ⟨done ++ [m], [.call (record gate m s w)] ++ called, earlier, by simpa using hmembers,
    rfl, ?_, ?_, ?_⟩
  · exact List.forall_mem_cons.mpr ⟨rfl, hinner⟩
  · rw [listCalls_append, hcalls]
    simp [hlist, listCalls, Entry.listCall?, record]
  · rw [visitedEntries_append, hvisits]
    rfl

theorem Listing.skip (h : Listing step (m :: rest) s j)
    (hother : m.rule.descriptor.forList = false) : Listing step rest s j := by
  obtain ⟨done, called, earlier, hmembers, hj, hinner, hcalls, hvisits⟩ := h
  refine ⟨done ++ [m], called, earlier, by simpa using hmembers, hj, hinner, ?_, hvisits⟩
  simpa [hother] using hcalls

theorem Listing.listed (h : Listing step [] s w.journal)
    (hreached : Path setup origin ⟨.listing step [], s, w⟩) :
    ∃ called earlier, Listed setup origin step s w called earlier := by
  obtain ⟨done, called, earlier, hmembers, hj, hinner, hcalls, hvisits⟩ := h
  rw [List.append_nil] at hmembers
  exact ⟨called, earlier, hreached, hj, hinner, hmembers ▸ hcalls, hvisits⟩

/-- The visit of an entry. What came of it may be left to be visited once more. -/
theorem Visiting.visit {before : List (Option TaskId)} {task : TaskId} {seen : TaskView}
    {after' : List (Option TaskId)} (h : Visiting setup origin step (some task :: after) w.journal)
    (houtcome : entryOutcome setup step before after task w = (.ok seen, w'))
    (hafter : (after.filterMap id).Sublist (after'.filterMap id)) :
    Visiting setup origin step after' (listEntry before.length task seen :: w'.journal) := by
  obtain ⟨s, w₁, called, visits, earlier, hlisted, hentries, hj, hinner, hcalls, hsub⟩ := h
  obtain ⟨copied, hcourse⟩ := (Visit.ensures_visit _ _ _ _ _ _).of_outcome houtcome
  obtain ⟨new, hnew, hbelow⟩ := hcourse.stays_below
  refine ⟨s, w₁, called, ([listEntry before.length task seen] ++ new) ++ visits, earlier, hlisted,
    hentries, ?_, ?_, ?_, ?_⟩
  · rw [hnew, hj]
    simp
  · refine List.forall_mem_append.mpr ⟨List.forall_mem_append.mpr ⟨?_, ?_⟩, hinner⟩
    · exact List.forall_mem_singleton.mpr rfl
    · exact fun e he => Entry.isInner_of_isBelow (hbelow e he)
  · rw [listCalls_append, listCalls_append, hcalls, listCalls_eq_nil hbelow]
    rfl
  · rw [visitedEntries_append, visitedEntries_append, visitedEntries_eq_nil hbelow]
    have hmore : (visits.visitedEntries ++ task :: after.filterMap id).Sublist
        (visits.visitedEntries ++ task :: after'.filterMap id) := (hafter.cons_cons task).append_left _
    simpa [visitedEntries, entryVisits, Entry.entryVisit?, listEntry] using hsub.trans hmore

theorem Visiting.finish (h : Visiting setup origin step [] j) : j.LastCarriedOut setup origin := by
  obtain ⟨s, w, called, visits, earlier, hlisted, hentries, rfl, hinner, hcalls, hsub⟩ := h
  rw [List.filterMap_nil, List.append_nil] at hsub
  exact hlisted.carriedOut hinner hcalls (by rwa [if_pos hentries])

/-- A mark comes to the journal at the end of a turn, when the step before is carried out. -/
theorem Move.conducted (ha : Conducts setup origin a) (h : Move setup a b) :
    b.work.journal.Conducted setup origin := by
  obtain ⟨-, hbefore, hnow⟩ := ha
  cases h with
  | spend | rewind | advance | skip | descend | finishList | hole | finish => exact hbefore
  | exhausted | restart | call | raise | cutList | cut => exact ⟨nofun, hbefore⟩
  | settle | begin | unlogged => exact ⟨fun _ => hnow, hbefore⟩
  | beginLogged => exact ⟨nofun, fun _ => hnow, hbefore⟩
  | visit _ houtcome | revisit _ houtcome =>
      obtain ⟨copied, hcourse⟩ := (Visit.ensures_visit _ _ _ _ _ _).of_outcome houtcome
      exact ⟨nofun, hcourse.conducted hbefore⟩
  | unrepeated _ houtcome =>
      obtain ⟨copied, hcourse⟩ := (Visit.ensures_visit _ _ _ _ _ _).of_outcome houtcome
      exact ⟨nofun, nofun, hcourse.conducted hbefore⟩
  | abort _ houtcome =>
      have haborted : Visit.Aborted setup.maxSteps _ _ _ _ _ :=
        (Visit.ensures_visit _ _ _ _ _ _).of_outcome houtcome
      exact haborted.conducted hbefore

theorem Move.conducts (ha : Conducts setup origin a) (h : Move setup a b) :
    Conducts setup origin b := by
  refine ⟨ha.reached.tail h, h.conducted ha, ?_⟩
  obtain ⟨hreached, -, hnow⟩ := ha
  cases h with
  | spend | rewind | advance | hole => exact hnow
  | settle | restart | cutList | cut => exact lastCarriedOut_cons rfl nofun
  | exhausted | unlogged | raise | unrepeated | abort => trivial
  | begin => exact ⟨[], [], _, rfl, rfl, nofun, rfl, rfl⟩
  | beginLogged => exact ⟨[], [.dump _], _, rfl, rfl, by simp [Entry.isInner], rfl, rfl⟩
  | @call _ w step _ _ _ hlist =>
      have hcalled := Listing.call hnow hlist step.gate w
      exact hcalled
  | skip _ hother => exact Listing.skip hnow hother
  | descend _ hentries =>
      obtain ⟨called, earlier, hlisted⟩ := Listing.listed hnow hreached
      exact ⟨_, _, called, [], earlier, hlisted, hentries, rfl, nofun, rfl, List.Sublist.refl _⟩
  | finishList _ hother =>
      obtain ⟨called, earlier, hlisted⟩ := Listing.listed hnow hreached
      exact hlisted.carriedOut (List.forall_mem_nil _) rfl (by simp [hother])
  | visit _ houtcome => exact Visiting.visit hnow houtcome (List.Sublist.refl _)
  | revisit _ houtcome => exact Visiting.visit hnow houtcome (List.sublist_cons_self ..)
  | finish => exact Visiting.finish hnow

end Sweep

/-! ## The whole optimization -/

namespace Journal

variable {j : Journal} {c : Category} {done : List RuleId}

/-- A pass goes on within a step, or from one step to the next. A restart is neither. -/
theorem Pass.isInner_or_isMark (h : Pass c done j) :
    ∀ e ∈ j, e.isInner = true ∨ e.isMark = true := by
  induction h with
  | start => nofun
  | step _ rules gate ih => exact List.forall_mem_cons.mpr ⟨Or.inr rfl, ih⟩
  | inner _ _ he ih => exact List.forall_mem_cons.mpr ⟨Or.inl he, ih⟩

/-- Behind each event of a pass there is a next mark, at the latest the one that ends the pass. -/
theorem exists_next_mark {after : Journal} (h : ∀ e ∈ after, e.isInner = true ∨ e.isMark = true)
    {last : Entry} (hlast : last.isMark = true) :
    ∃ rest inner next, last :: after = rest ++ next :: inner ∧ next.isMark = true ∧
      ∀ e ∈ inner, e.isInner = true := by
  induction after generalizing last with
  | nil => exact ⟨[], [], last, rfl, hlast, nofun⟩
  | cons e after ih =>
      obtain ⟨he, hrest⟩ := List.forall_mem_cons.mp h
      rcases he with hinner | hmark
      · obtain ⟨rest, inner, next, heq, hnext, hall⟩ := ih hrest hlast
        cases rest with
        | nil =>
            obtain ⟨rfl, rfl⟩ := List.cons.inj heq
            exact ⟨[], e :: after, _, rfl, hnext, List.forall_mem_cons.mpr ⟨hinner, hall⟩⟩
        | cons _ rest =>
            obtain ⟨rfl, rfl⟩ := List.cons.inj heq
            exact ⟨last :: e :: rest, inner, next, rfl, hnext, hall⟩
      · obtain ⟨rest, inner, next, heq, hnext, hall⟩ := ih hrest hmark
        exact ⟨last :: rest, inner, next, congrArg _ heq, hnext, hall⟩

end Journal

namespace Setup

/-- **A step that is followed by another one was carried out.** Wherever an optimization made the
mark of a step, and then that of another step or of a settled category, with nothing but what
happened in the step between them, the list rules of the step were called, each one once, and after
them all entries of the list were visited. -/
theorem carried_out (setup : Setup σ) (user : σ) (graph : Graph) (list : List (Option TaskId))
    {later inner earlier : Journal} {next : Entry} {c : Category} {first : Nat}
    {ids : List RuleId} {gate : Mask}
    (hj : (setup.optimize user graph list).journal =
      later ++ next :: (inner ++ .step c first ids gate :: earlier))
    (hnext : next.isMark = true) (hinner : ∀ e ∈ inner, e.isInner = true) :
    CarriedOut setup (start user graph list) (.step c first ids gate) inner earlier := by
  have hstart : Sweep.Conducts setup (start user graph list) (start user graph list) :=
    ⟨.refl, trivial, nofun⟩
  have hconducted : (setup.optimize user graph list).journal.Conducted setup
      (start user graph list) := by
    rcases setup.optimize_invariant user graph list hstart (fun _ _ _ => Sweep.Move.conducts) with
      ⟨s, w, hconducts, _, heq⟩ | ⟨s, w, stop, hconducts, _, heq⟩
    all_goals
      rw [heq]
      exact hconducts.before
  rw [hj] at hconducted
  exact (lastCarriedOut_of_step hinner).mp (hconducted.lastCarriedOut hnext)

/-- **The steps of a pass were carried out.** Take a pass that settled its category, and a step in
it: up to the next mark it was carried out. -/
theorem pass_carried_out (setup : Setup σ) (user : σ) (graph : Graph)
    (list : List (Option TaskId)) {later pass earlier after before : Journal} {c d : Category}
    {done : List RuleId} {first : Nat} {ids : List RuleId} {gate : Mask}
    (hj : (setup.optimize user graph list).journal = later ++ .settled c :: (pass ++ earlier))
    (hpass : Pass c done pass) (hstep : pass = after ++ .step d first ids gate :: before) :
    ∃ rest inner next, .settled c :: after = rest ++ next :: inner ∧ next.isMark = true ∧
      (∀ e ∈ inner, e.isInner = true) ∧
      CarriedOut setup (start user graph list) (.step d first ids gate) inner
        (before ++ earlier) := by
  have hafter : ∀ e ∈ after, e.isInner = true ∨ e.isMark = true := by
    intro e he
    refine hpass.isInner_or_isMark e ?_
    rw [hstep]
    exact List.mem_append_left _ he
  obtain ⟨rest, inner, next, heq, hnext, hinner⟩ :=
    exists_next_mark hafter (show (Entry.settled c).isMark = true from rfl)
  have hwhole : (setup.optimize user graph list).journal =
      (later ++ rest) ++ next :: (inner ++ .step d first ids gate :: (before ++ earlier)) :=
    calc (setup.optimize user graph list).journal
        = later ++ ((.settled c :: after) ++ .step d first ids gate :: (before ++ earlier)) := by
          rw [hj, hstep]
          simp
      _ = _ := by
          rw [heq]
          simp
  exact ⟨rest, inner, next, heq, hnext, hinner,
    setup.carried_out user graph list hwhole hnext hinner⟩

end Setup

end RenderPlan
