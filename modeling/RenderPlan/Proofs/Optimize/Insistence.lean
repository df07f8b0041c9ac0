/-
# RenderPlan.Proofs.Optimize.Insistence -- rules that insist on repeats are applied exhaustively

A rule is insistent if it asks for a repeat of the whole branch whenever it changes its task. The
request travels upwards with the change: a visit takes over the whole request of a sub-task that
asks for the level above, and a sub-task that comes back changed always does. So a task that comes
back changed comes back with the request to visit its place once more, however deep below it the
change was made (`Visit.Course.insists`).

A place that is to be visited once more is not passed. That leaves two ways to pass one: the last
visit left the task as it was, or it removed the task (`Visit.Tour.rests`, `Sweep.Move.rests`). Where
the gate is dirty a changed task may stand in its place without another visit, but then the visit or
the step ends there, and nothing is passed.
-/
import RenderPlan.Proofs.Optimize.Limit
import RenderPlan.Proofs.Optimize.Splicing

namespace RenderPlan

variable {σ : Type}

/-- The rule asks for a repeat of the whole branch whenever it changes its task. -/
def Rule.Insistent (r : Rule σ) : Prop :=
  ∀ c : TaskCall σ, (r.runTask c).fault = none → (r.runTask c).call.view.task ≠ c.view.task →
    (r.runTask c).call.view.mode.contains .branch = true

/-! ## Requests -/

namespace RepeatMode

variable {a b c : RepeatMode}

theorem contains_iff : a.contains b = true ↔
    ∀ i : Nat, b.bits.toBitVec.getLsbD i = true → a.bits.toBitVec.getLsbD i = true := by
  rw [contains, decide_eq_true_eq, ← UInt8.toBitVec_inj, UInt8.toBitVec_and]
  constructor
  · intro h i hi
    rw [← h, BitVec.getLsbD_and, Bool.and_eq_true] at hi
    exact hi.1
  · intro h
    refine BitVec.eq_of_getLsbD_eq fun i _ => ?_
    rw [BitVec.getLsbD_and, Bool.and_eq_right_iff_imp]
    exact h i

theorem contains_trans (hab : a.contains b = true) (hbc : b.contains c = true) :
    a.contains c = true := by
  rw [contains_iff] at *
  exact fun i hi => hab i (hbc i hi)

theorem contains_union (h : a.contains c = true ∨ b.contains c = true) :
    (a ∪ b).contains c = true := by
  have hbits : (a ∪ b).bits.toBitVec = a.bits.toBitVec ||| b.bits.toBitVec := UInt8.toBitVec_or ..
  rw [contains_iff] at *
  rw [contains_iff] at h
  intro i hi
  rw [hbits, BitVec.getLsbD_or, Bool.or_eq_true]
  exact h.imp (· i hi) (· i hi)

end RepeatMode

namespace TaskView

variable {seen : TaskView} {task : TaskId}

/-- If the task came back changed, the whole branch is to be repeated. -/
def Insists (before : Option TaskId) (seen : TaskView) : Prop :=
  seen.task ≠ before → seen.mode.contains .branch = true

/-- The task came back as it was, or it was removed. -/
def Rests (task : TaskId) (seen : TaskView) : Prop := seen.task = some task ∨ seen.task = none

theorem Insists.last (h : seen.Insists (some task)) (hother : seen.task ≠ some task) :
    seen.mode.contains .last = true :=
  RepeatMode.contains_trans (h hother) (by decide)

theorem Insists.parent (h : seen.Insists (some task)) (hother : seen.task ≠ some task) :
    seen.mode.contains .parent = true :=
  RepeatMode.contains_trans (h hother) (by decide)

/-- If the place is not to be visited once more, the task rests. -/
theorem Insists.rests (h : seen.Insists (some task))
    (honce : seen.mode.contains .last = false) : seen.Rests task := by
  by_contra hrests
  have hother : seen.task ≠ some task := fun hsame => hrests (Or.inl hsame)
  rw [h.last hother] at honce
  cases honce

end TaskView

/-- If the event is a visit that changed the task, the whole branch is to be repeated. -/
def Entry.Insists : Entry → Prop
  | .visit _ task result mode => result ≠ some task → mode.contains .branch = true
  | _ => True

namespace Visit

open Work SlotVisit

/-! ## Visits -/

section Course

variable {maxSteps : Nat} {rules : List (Member σ)} {w₀ w : Workspace σ} {v₀ v : TaskView}
  {copied : Bool} {stop : Stop} (hrules : ∀ m ∈ rules, m.rule.Insistent)

include hrules

/-- **A change travels upwards with the request to repeat.** -/
theorem Course.insists (h : Course maxSteps rules w₀ v₀ copied v w) :
    v.Insists v₀.task := by
  induction h with
  | enter => exact fun hother => absurd rfl hother
  | @call _ _ _ v w m _ hmember _ hreturns ih =>
      intro hother
      apply RepeatMode.contains_union
      by_cases hsame : (answer m v w).call.view.task = v.task
      · exact Or.inl (ih fun heq => hother (hsame.trans heq))
      · exact Or.inr (hrules m hmember ⟨w.user, w.graph, v⟩ hreturns hsame)
  | @keep _ _ _ v _ _ _ _ _ seen _ _ _ _ _ ih _ =>
      intro hother
      have hbranch := ih hother
      unfold absorb
      dsimp only
      split
      · exact RepeatMode.contains_union (Or.inl hbranch)
      · exact hbranch
  | @splice _ _ _ _ _ _ _ _ _ seen _ _ _ _ _ hchanged _ _ _ ihBelow =>
      intro _
      unfold absorb
      rw [TaskView.Insists.parent ihBelow hchanged, if_pos rfl]
      exact RepeatMode.contains_union (Or.inr (ihBelow hchanged))
  | spend _ _ ih => exact ih

/-- Every visit in the journal keeps to it, at any depth. -/
theorem Course.journal_insists (h : Course maxSteps rules w₀ v₀ copied v w)
    (hw : ∀ e ∈ w₀.journal, e.Insists) : ∀ e ∈ w.journal, e.Insists := by
  induction h with
  | enter => exact hw
  | call _ _ _ _ ih => exact List.forall_mem_cons.mpr ⟨trivial, ih hw⟩
  | keep _ _ hbelow _ ih ihBelow | splice _ _ hbelow _ _ _ ih ihBelow =>
      exact List.forall_mem_cons.mpr ⟨hbelow.insists hrules, ihBelow (ih hw)⟩
  | spend _ _ ih => exact ih hw

theorem Aborted.journal_insists (h : Aborted maxSteps rules w₀ v₀ stop w)
    (hw : ∀ e ∈ w₀.journal, e.Insists) : ∀ e ∈ w.journal, e.Insists := by
  induction h with
  | limit hcourse | missing hcourse => exact hcourse.journal_insists hrules hw
  | raised hcourse | exhausted hcourse =>
      have hbefore := hcourse.journal_insists hrules hw
      exact List.forall_mem_cons.mpr ⟨trivial, hbefore⟩
  | inside hcourse _ _ ih => exact ih (hcourse.journal_insists hrules hw)
  | unwritten hcourse _ hbelow =>
      have hbefore := hcourse.journal_insists hrules hw
      exact List.forall_mem_cons.mpr
        ⟨hbelow.insists hrules, hbelow.journal_insists hrules hbefore⟩

theorem insists_of_outcome {deep : Bool} {limit : Nat} {seen : TaskView} {w' : Workspace σ}
    (h : (visit maxSteps rules deep limit v).outcome w = (.ok seen, w')) :
    seen.Insists v.task := by
  obtain ⟨copied, hcourse⟩ := (ensures_visit maxSteps rules deep limit w v).of_outcome h
  exact hcourse.insists hrules

end Course

section Tour

variable {maxSteps : Nat} {visitChild : TaskView → Work σ TaskView} {v₀ : TaskView}
  {w₀ w w' : Workspace σ} {visits : List (SlotVisit σ)} {p q : SlotPoint}

/-- A tour has passed no slot before the sub-task in it rested. -/
structure Passes (visits : List (SlotVisit σ)) (p : SlotPoint) (w : Workspace σ) : Prop where
  rests : ∀ i < p.slot, ∀ u, latest? visits i = some u → u.seen.Rests u.child
  ahead : ∀ i, p.slot < i → latest? visits i = none
  /-- The present slot may have been visited, too. What came back stands in it. -/
  here : ∀ u, latest? visits p.slot = some u → ∀ task n, p.view.task = some task →
    w.graph.get? task = some n → n.subTasks[p.slot]? = some u.seen.task

theorem Passes.hole (h : Passes visits p w) {task : TaskId} {n : Node}
    (htask : p.view.task = some task) (hn : w.graph.get? task = some n)
    (hhole : n.subTasks[p.slot]? = some none) :
    Passes visits ⟨p.copied, p.slot + 1, p.view⟩ w where
  rests i hi u hu := by
    rcases Nat.lt_succ_iff_lt_or_eq.mp hi with hlt | rfl
    · exact h.rests i hlt u hu
    · -- the last visit of this slot removed the sub-task
      rw [h.here u hu task n htask hn] at hhole
      exact Or.inr (Option.some.inj hhole)
  ahead i hi := h.ahead i (Nat.lt_of_succ_lt hi)
  here u hu := by
    rw [h.ahead (p.slot + 1) (Nat.lt_succ_self _)] at hu
    cases hu

/-- A sub-task that rests lets the tour pass. -/
theorem Passes.pass (h : Passes visits p w) {u : SlotVisit σ} (hu : u.slot = p.slot)
    (hrests : u.seen.Rests u.child) (hq : q.slot = p.slot + 1) : Passes (u :: visits) q w' := by
  have hahead : ∀ i, q.slot ≤ i → latest? (u :: visits) i = none := by
    intro i hi
    rw [latest?_cons, if_neg (by omega)]
    exact h.ahead i (by omega)
  refine ⟨?_, fun i hi => hahead i (Nat.le_of_lt hi), fun b hb => ?_⟩
  · intro i hi b hb
    rw [latest?_cons] at hb
    split at hb
    · obtain rfl := Option.some.inj hb
      exact hrests
    · exact h.rests i (by omega) b hb
  · rw [hahead q.slot (Nat.le_refl _)] at hb
    cases hb

/-- A sub-task that is to be visited once more stays in its slot. -/
theorem Passes.stay (h : Passes visits p w) {u : SlotVisit σ} (hu : u.slot = p.slot)
    (hq : q.slot = p.slot) (hhere : ∀ task n, q.view.task = some task →
      w'.graph.get? task = some n → n.subTasks[q.slot]? = some u.seen.task) :
    Passes (u :: visits) q w' := by
  refine ⟨?_, ?_, ?_⟩
  · intro i hi b hb
    rw [latest?_cons, if_neg (by omega)] at hb
    exact h.rests i (by omega) b hb
  · intro i hi
    rw [latest?_cons, if_neg (by omega)]
    exact h.ahead i (by omega)
  · intro b hb
    rw [latest?_cons, if_pos (hu.trans hq.symm)] at hb
    obtain rfl := Option.some.inj hb
    exact hhere

/-- **No slot is passed before its sub-task rests.** -/
theorem Tour.passes
    (hinsists : ∀ v w seen w', (visitChild v).outcome w = (.ok seen, w') → seen.Insists v.task)
    (h : Tour maxSteps visitChild v₀ w₀ visits p w) : Passes visits p w := by
  induction h with
  | enter => exact ⟨nofun, fun _ _ => rfl, nofun⟩
  | hole _ htask hn hhole ih => exact ih.hole htask hn hhole
  | @visit visits p w task child seen w' q w'' _ _ houtcome hback ih =>
      have hchild : seen.Insists (some child) := hinsists _ _ _ _ houtcome
      cases (ensures_takeBack maxSteps p task child seen w').of_outcome hback with
      | keep hsame => exact ih.pass rfl (Or.inl hsame) rfl
      | splice _ _ _ honce => exact ih.pass rfl (hchild.rests honce) rfl
      | @again n _ hn hbound =>
          refine ih.stay rfl rfl ?_
          rintro _ m ⟨rfl⟩ hm
          obtain rfl := Option.some.inj (hm.symm.trans (get?_splice p.copied p.slot seen.task hn))
          exact List.getElem?_set_self hbound

/-- The last visit of a slot that was passed returned the sub-task or removed it, and the slot holds
what it returned, if the rules change no node that exists. -/
theorem Tour.exhausts {members : List (Member σ)} {deep : Bool} {limit : Nat}
    (hinsistent : ∀ m ∈ members, m.rule.Insistent)
    (h : Tour maxSteps (Visit.visit maxSteps members deep limit) v₀ w₀ visits p w) :
    (∀ i < p.slot, ∀ u, latest? visits i = some u →
      u.seen.task = some u.child ∨ u.seen.task = none) ∧
    ((∀ m ∈ members, m.rule.Additive) → ∀ task n, p.view.task = some task →
      w.graph.get? task = some n → ∀ (i : Nat) u, latest? visits i = some u →
        n.subTasks[i]? = some u.seen.task) := by
  refine ⟨(h.passes fun v w seen w' => insists_of_outcome hinsistent).rests, ?_⟩
  intro hadds task n htask hn i u hu
  rcases h.exists_given with ⟨rfl, _⟩ | ⟨parent, given, hparent, hgiven⟩
  · cases hu
  have hchild : ∀ v (w : Workspace σ), w.graph.Extends
      ((Visit.visit maxSteps members deep limit v).outcome w).2.graph :=
    fun v w => visit_only_adds hadds deep limit w v
  have hsplicing := (h.handed hchild hparent hgiven).splicing
  rw [h.slot_eq hchild hparent hgiven htask hn]
  exact hsplicing.processed i u hu

end Tour

end Visit

namespace Sweep

/-! ## Entries -/

variable {setup : Setup σ} {a b : Situation σ} {s : Sweep} {w : Workspace σ} {step : Step σ}
  {before before' after : List (Option TaskId)} {task : TaskId}

/-- **No entry is passed before it rests.** -/
theorem Move.rests (hrules : ∀ m ∈ step.members, m.rule.Insistent)
    (h : Move setup ⟨.visiting step before (some task :: after), s, w⟩ b)
    (hb : b.phase = .visiting step before' after) :
    ∃ seen w', entryOutcome setup step before after task w = (.ok seen, w') ∧
      seen.Rests task ∧ before' = seen.task.toList.map some ++ before := by
  cases h with
  | @visit _ _ _ _ _ _ seen w' _ houtcome hdone =>
      cases hb
      refine ⟨seen, w', houtcome, ?_, rfl⟩
      have hinsists : seen.Insists (some task) := Visit.insists_of_outcome hrules houtcome
      by_contra hrests
      have hother : seen.task ≠ some task := fun hsame => hrests (Or.inl hsame)
      obtain ⟨new, hnew⟩ := Option.ne_none_iff_exists'.mp fun hnone => hrests (Or.inr hnone)
      refine hdone ⟨new, hnew, ?_, hinsists.last hother⟩
      rintro rfl
      exact hother hnew
  | revisit | cut | abort | unrepeated => simp at hb

theorem Move.journal_insists
    (hrules : ∀ c, ∀ id ∈ setup.registry.rules c, (setup.rules id).Insistent)
    (hstands : a.Stands setup) (h : Move setup a b) (ha : ∀ e ∈ a.work.journal, e.Insists) :
    ∀ e ∈ b.work.journal, e.Insists := by
  have hentry : ∀ {step : Step σ} {before after : List (Option TaskId)} {task : TaskId}
      {seen : TaskView} {w w' : Workspace σ}, a.sweep.Stepping setup step →
      entryOutcome setup step before after task w = (.ok seen, w') →
      (∀ e ∈ w.journal, e.Insists) →
      ∀ e ∈ (w'.note (listEntry before.length task seen)).journal, e.Insists := by
    intro step before after task seen w w' hstep houtcome hw
    have hmembers := hstep.forall_members hrules
    obtain ⟨copied, hcourse⟩ := (Visit.ensures_visit _ _ _ _ _ _).of_outcome houtcome
    have hlast : seen.Insists (some task) := hcourse.insists hmembers
    exact List.forall_mem_cons.mpr ⟨hlast, hcourse.journal_insists hmembers hw⟩
  cases h with
  | visit _ houtcome | revisit _ houtcome => exact hentry hstands.1 houtcome ha
  | unrepeated _ houtcome =>
      exact List.forall_mem_cons.mpr ⟨trivial, hentry hstands.1 houtcome ha⟩
  | abort _ houtcome =>
      have haborted : Visit.Aborted _ _ _ _ _ _ :=
        (Visit.ensures_visit _ _ _ _ _ _).of_outcome houtcome
      exact haborted.journal_insists (hstands.1.forall_members hrules) ha
  | exhausted | settle | restart | begin | unlogged | call | raise | cutList | cut =>
      exact List.forall_mem_cons.mpr ⟨trivial, ha⟩
  | beginLogged =>
      exact List.forall_mem_cons.mpr ⟨trivial, List.forall_mem_cons.mpr ⟨trivial, ha⟩⟩
  | spend | rewind | advance | skip | descend | finishList | hole | finish => exact ha

end Sweep

theorem Rule.insistent_tidying : Rule.tidying.Insistent := by
  intro c _ hother
  have hbranch : RepeatMode.branch.contains .branch = true := by decide
  dsimp only [Rule.tidying] at hother ⊢
  split at hother
  · exact hbranch
  · exact hbranch
  · exact absurd rfl hother
  · exact absurd rfl hother

namespace Setup

open Sweep SlotVisit

/-- **Insistent rules are applied exhaustively.** Let every registered rule ask for a repeat of the
whole branch whenever it changes its task. However the optimization ends, every visit that it made,
at any depth, comes with the request to repeat the place if the task came back changed.

The situations that moves lead to are those that the optimization goes through on the way to its end.
Wherever it passes an entry of the list there, the last visit of the entry returned the task that is
kept, or removed it.

Wherever slots are visited, they are visited in a tour. Wherever a tour has passed a slot of a node,
the last visit of that slot returned the sub-task that it was made for, or removed it; and if the
rules change no node that exists, what it returned is what the slot holds. -/
theorem optimize_exhausts (setup : Setup σ)
    (hrules : ∀ c, ∀ id ∈ setup.registry.rules c, (setup.rules id).Insistent)
    (user : σ) (graph : Graph) (list : List (Option TaskId)) :
    (∀ place task result mode,
      .visit place task result mode ∈ (setup.optimize user graph list).journal →
      result ≠ some task → mode.contains .last = true ∧ mode.contains .parent = true) ∧
    (∃ last : Situation σ, last.Final ∧ setup.optimize user graph list = last.remains ∧
      ∀ a, Path setup (start user graph list) a → Path setup a last) ∧
    (∀ step before before' after task s w b,
      Path setup (start user graph list) ⟨.visiting step before (some task :: after), s, w⟩ →
      Move setup ⟨.visiting step before (some task :: after), s, w⟩ b →
      b.phase = .visiting step before' after →
      ∃ seen w', entryOutcome setup step before after task w = (.ok seen, w') ∧
        (seen.task = some task ∧ before' = some task :: before ∨
          seen.task = none ∧ before' = before)) ∧
    (∀ (members : List (Member σ)) deep limit v₀ w₀ v w goesOn, v₀.isStale = false →
      (Visit.visitSlots setup.maxSteps (Visit.visit setup.maxSteps members deep limit) limit false 0
        v₀).outcome w₀ = (.ok (v, goesOn), w) →
      ∃ visits p, Visit.Tour setup.maxSteps (Visit.visit setup.maxSteps members deep limit) v₀ w₀
        visits p w ∧ p.view = v ∧ Visit.TourEnds p w goesOn) ∧
    ∀ c, ∀ members ⊆ Sweep.members setup c, ∀ deep limit v₀ w₀ visits p w,
      Visit.Tour setup.maxSteps (Visit.visit setup.maxSteps members deep limit) v₀ w₀ visits p w →
      (∀ i < p.slot, ∀ u, latest? visits i = some u →
        u.seen.task = some u.child ∨ u.seen.task = none) ∧
      ((∀ m ∈ members, m.rule.Additive) → ∀ task n, p.view.task = some task →
        w.graph.get? task = some n → ∀ (i : Nat) u, latest? visits i = some u →
          n.subTasks[i]? = some u.seen.task) := by
  have hkept : ∀ a b, a.Stands setup → (∀ e ∈ a.work.journal, e.Insists) → Move setup a b →
      ∀ e ∈ b.work.journal, e.Insists :=
    fun _ _ hstands hbefore hmove => hmove.journal_insists hrules hstands hbefore
  refine ⟨?_, ?_, ?_, fun _ _ _ _ _ _ _ _ hfresh => Visit.exists_tour .enter hfresh, ?_⟩
  · intro place task result mode hvisit hother
    have hbranch : mode.contains .branch = true := by
      rcases setup.optimize_invariant user graph list nofun hkept with
        ⟨s, w, hinsists, _, heq⟩ | ⟨s, w, stop, hinsists, _, heq⟩
      all_goals
        rw [heq] at hvisit
        exact hinsists _ hvisit hother
    exact ⟨RepeatMode.contains_trans hbranch (by decide),
      RepeatMode.contains_trans hbranch (by decide)⟩
  · obtain ⟨last, hpath, hfinal, heq⟩ := exists_final setup user graph list
    exact ⟨last, hfinal, heq, fun a ha => ha.to_final hpath hfinal⟩
  · intro step before before' after task s w b ha hmove hb
    have hstands := (ha.invariant (stands_start setup user graph list) nofun hkept).1
    obtain ⟨seen, w', houtcome, hrests, hbefore⟩ :=
      hmove.rests (hstands.1.forall_members hrules) hb
    refine ⟨seen, w', houtcome, hrests.imp (fun hsame => ⟨hsame, ?_⟩) fun hnone => ⟨hnone, ?_⟩⟩
    · rw [hbefore, hsame]
      rfl
    · rw [hbefore, hnone]
      rfl
  · intro c members hmembers deep limit v₀ w₀ visits p w htour
    refine htour.exhausts fun m hm => ?_
    obtain ⟨hid, hrule⟩ := mem_members.mp (hmembers hm)
    exact hrule ▸ hrules c m.id hid

/-! ### Tidying a list

The first entry is unwrapped twice, then a hole is taken out. The second entry is a box, which
changes because its blank sub-task is removed; no rule changes the box itself. -/

def untidyList : List (Option TaskId) := [some ⟨2⟩, none, some ⟨4⟩, some ⟨3⟩]

def tidyingStep : Step Unit := ⟨.convert, [⟨⟨0⟩, .tidying⟩]⟩

/-- The view of an entry of this list that comes back. -/
def tidied (list : List (Option TaskId)) (new : TaskId) (mode : RepeatMode) : TaskView :=
  ⟨list, Category.common.mask, some new, none, ∅, mode⟩

theorem entryOutcome_of_fst_eq {setup : Setup σ} {step : Step σ}
    {before after : List (Option TaskId)} {task : TaskId} {w : Workspace σ} (seen : TaskView)
    (h : (entryOutcome setup step before after task w).1 = .ok seen) :
    entryOutcome setup step before after task w =
      (.ok seen, (entryOutcome setup step before after task w).2) :=
  Prod.ext h rfl

/-- The copy of the box is visited and passed. -/
theorem exists_move_tidying : ∃ s w s' w',
    Path tidyingSetup (start () untidyGraph untidyList)
      ⟨.visiting tidyingStep [some ⟨0⟩] [some ⟨7⟩, some ⟨3⟩], s, w⟩ ∧
    Move tidyingSetup ⟨.visiting tidyingStep [some ⟨0⟩] [some ⟨7⟩, some ⟨3⟩], s, w⟩
      ⟨.visiting tidyingStep [some ⟨7⟩, some ⟨0⟩] [some ⟨3⟩], s', w'⟩ := by
  refine ⟨?s, ?w, ?s', ?w', ?path, ?move⟩
  case path =>
    -- the categories before the one of the rule are settled at once
    refine .head (.spend (by decide) (by decide)) ?_
    refine .head (.settle (c := .common) rfl (by decide) rfl) ?_
    refine .head (.spend (by decide) (by decide)) ?_
    refine .head (.settle (c := .preSpecialize) rfl (by decide) rfl) ?_
    refine .head (.spend (by decide) (by decide)) ?_
    refine .head (.settle (c := .specialize) rfl (by decide) rfl) ?_
    refine .head (.spend (by decide) (by decide)) ?_
    refine .head (.settle (c := .postSpecialize) rfl (by decide) rfl) ?_
    refine .head (.spend (by decide) (by decide)) ?_
    refine .head (.begin (c := .convert) rfl (by decide) rfl (by decide) rfl) ?_
    refine .head (.skip (by unfold Dirty; decide) rfl) ?_
    refine .head (.descend (by unfold Dirty; decide) rfl) ?_
    refine .head (.revisit (by unfold Dirty; decide)
      (entryOutcome_of_fst_eq (tidied untidyList ⟨1⟩ .branch) (by decide +kernel))
      ⟨⟨1⟩, rfl, by decide, by decide⟩ rfl (by decide +kernel)) ?_
    refine .head (.revisit (by unfold Dirty; decide)
      (entryOutcome_of_fst_eq (tidied (some ⟨1⟩ :: untidyList.tail) ⟨0⟩ .branch)
        (by decide +kernel))
      ⟨⟨0⟩, rfl, by decide, by decide⟩ rfl (by decide +kernel)) ?_
    refine .head (.visit (by unfold Dirty; decide)
      (entryOutcome_of_fst_eq (tidied (some ⟨0⟩ :: untidyList.tail) ⟨0⟩ .none)
        (by decide +kernel))
      (fun hrepeats => by obtain ⟨_, ⟨⟩, hother, _⟩ := hrepeats; exact hother rfl)) ?_
    refine .head (.hole (by unfold Dirty; decide)) ?_
    refine .head (.revisit (by unfold Dirty; decide)
      (entryOutcome_of_fst_eq (tidied [some ⟨0⟩, some ⟨4⟩, some ⟨3⟩] ⟨7⟩ .branch)
        (by decide +kernel))
      ⟨⟨7⟩, rfl, by decide, by decide⟩ rfl (by decide +kernel)) ?_
    exact .refl
  case move =>
    refine @Move.visit _ _ _ _ _ _ _ _ (tidied [some ⟨0⟩, some ⟨7⟩, some ⟨3⟩] ⟨7⟩ .none) _ ?_
      (entryOutcome_of_fst_eq _ ?_) ?_
    · unfold Dirty
      decide
    · decide +kernel
    · rintro ⟨_, ⟨⟩, hother, _⟩
      exact hother rfl

theorem optimize_exhausts_tidying :
    let o := tidyingSetup.optimize () untidyGraph untidyList
    let rules := Sweep.members tidyingSetup .convert
    let v := TaskView.ofEntry [some ⟨6⟩] Category.common.mask ⟨6⟩
    let w : Workspace Unit := ⟨(), untidyGraph, 0, []⟩
    let v' : TaskView :=
      { v with task := some ⟨7⟩, affects := Category.common.mask, mode := .branch }
    let w' := ((Visit.visitSlots 64 (Visit.visit 64 rules true 8) 8 false 0 v).outcome w).2
    o.result = .ok ⟨12, 0⟩ ∧ .visit (.entry 1) ⟨4⟩ (some ⟨7⟩) .branch ∈ o.journal ∧
      .visit (.entry 1) ⟨7⟩ (some ⟨7⟩) .none ∈ o.journal ∧
      (∀ place task result mode, .visit place task result mode ∈ o.journal → result ≠ some task →
        mode.contains .last = true ∧ mode.contains .parent = true) ∧
      (∃ last : Situation Unit, o = last.remains ∧ ∃ s w seen w',
        Path tidyingSetup (start () untidyGraph untidyList)
          ⟨.visiting tidyingStep [some ⟨0⟩] [some ⟨7⟩, some ⟨3⟩], s, w⟩ ∧
        Path tidyingSetup ⟨.visiting tidyingStep [some ⟨0⟩] [some ⟨7⟩, some ⟨3⟩], s, w⟩ last ∧
        entryOutcome tidyingSetup tidyingStep [some ⟨0⟩] [some ⟨3⟩] ⟨7⟩ w = (.ok seen, w') ∧
        seen.task = some ⟨7⟩) ∧
      w'.graph.slots ⟨7⟩ = [some ⟨0⟩, none, some ⟨8⟩, some ⟨5⟩, some ⟨0⟩] ∧
      ∃ visits p, Visit.Tour 64 (Visit.visit 64 rules true 8) v w visits p w' ∧ p.view = v' ∧
        (∀ i < p.slot, ∀ u, latest? visits i = some u →
          u.seen.task = some u.child ∨ u.seen.task = none) ∧
        ∀ (i : Nat) u, latest? visits i = some u →
          (w'.graph.slots ⟨7⟩)[i]? = some u.seen.task := by
  intro o rules v w v' w'
  obtain ⟨hvisits, ⟨last, _, hremains, hthrough⟩, hentries, htours, hslots⟩ :=
    optimize_exhausts tidyingSetup (fun _ _ _ => Rule.insistent_tidying) () untidyGraph untidyList
  refine ⟨by decide +kernel, by decide +kernel, by decide +kernel, hvisits, ?_,
    by decide +kernel, ?_⟩
  · obtain ⟨s, w, s', w', hpath, hmove⟩ := exists_move_tidying
    obtain ⟨seen, w'', houtcome, hrests⟩ := hentries _ _ _ _ _ s w _ hpath hmove rfl
    refine ⟨last, hremains, s, w, seen, w'', hpath, hthrough _ hpath, houtcome, ?_⟩
    rcases hrests with ⟨hsame, _⟩ | ⟨_, hbefore⟩
    · exact hsame
    · cases hbefore
  · have hcut : ((Visit.visitSlots 64 (Visit.visit 64 rules true 8) 8 false 0 v).outcome w).1 =
        .ok (v', false) := by decide +kernel
    obtain ⟨visits, p, htour, hview, _⟩ :=
      htours rules true 8 v w v' w' false (by decide) (Prod.ext hcut rfl)
    obtain ⟨hrests, hheld⟩ := hslots .convert rules (List.Subset.refl _) true 8 v w visits p w' htour
    refine ⟨visits, p, htour, hview, hrests, fun i u hu => ?_⟩
    obtain ⟨n, hn⟩ : ∃ n, w'.graph.get? ⟨7⟩ = some n :=
      Option.isSome_iff_exists.mp (by decide +kernel)
    have hadditive : ∀ m ∈ rules, m.rule.Additive := by
      intro m hm
      obtain rfl := List.mem_singleton.mp hm
      exact Rule.additive_tidying
    rw [Graph.slots, hn]
    exact hheld hadditive ⟨7⟩ n (by rw [hview]) hn i u hu

end Setup

end RenderPlan
