/-
# RenderPlan.Proofs.Optimize.Termination -- when optimizations return

The budget bounds the turns of a sweep and the repeated visits. Within the budget, every move leaves
less to do: fewer steps of the budget, fewer phases of the turn, or fewer rules and entries of the
step (`Sweep.Move.left_lt`). But the budget does not bound how deep the visits below one entry nest.
So an optimization has two ways to go, if its rules change no existing node: it comes to an end
after finitely many calls of rules, or it comes to an entry whose visit goes down for ever, and then
it runs into every limit on visits (`Setup.returns_iff_not_descends`).

The second one does happen under rules that keep every contract (`Setup.endless_wrapping`). It does
not happen if the rules that come before the sub-tasks put nothing new below a task
(`Setup.returns_of_digs`).
-/
import RenderPlan.Proofs.Optimize.Digging
import RenderPlan.Proofs.Optimize.Faults

namespace RenderPlan

variable {σ : Type}

/-! ## Moves -/

/-- The phases that are left of a turn. -/
def Phase.rank : Phase σ → Nat
  | .turning => 3
  | .listing .. => 2
  | .visiting .. => 1
  | .between | .stopped => 0

/-- The rules or the entries that are left in a phase. -/
def Phase.size : Phase σ → Nat
  | .listing _ rest => rest.length
  | .visiting _ _ after => after.length
  | .between | .turning | .stopped => 0

/-- What is left to do: steps of the budget, phases of the turn, rules or entries of the step. -/
def Situation.left (maxSteps : Nat) (a : Situation σ) : Nat × Nat × Nat :=
  (maxSteps - a.work.steps, a.phase.rank, a.phase.size)

namespace Sweep

open Prod (Lex)

variable {setup : Setup σ} {a b : Situation σ} {s : Sweep} {w : Workspace σ}

/-- Every move leaves less to do. -/
theorem Move.left_lt (h : Move setup a b) (hb : b.phase ≠ .stopped)
    (ha : a.work.steps ≤ setup.maxSteps) :
    Lex (· < ·) (Lex (· < ·) (· < ·)) (b.left setup.maxSteps) (a.left setup.maxSteps) := by
  have hsteps := h.steps_le hb
  have hbound := hsteps.2 ha
  -- a step of the budget counts more than what is left of the turn
  suffices hturn : a.work.steps = b.work.steps →
      Lex (· < ·) (· < ·) (b.phase.rank, b.phase.size) (a.phase.rank, a.phase.size) by
    rcases Nat.lt_or_eq_of_le hsteps.1 with hspent | heq
    · exact .left _ _ (by omega)
    · have hleft : setup.maxSteps - b.work.steps = setup.maxSteps - a.work.steps := by omega
      unfold Situation.left
      rw [hleft]
      exact .right _ (hturn heq)
  intro hsame
  cases h with
  | spend => exact absurd hsame (Nat.ne_of_lt (Nat.lt_succ_self _))
  | revisit _ houtcome =>
      have hvisit := (entryOutcome_steps_le houtcome).1
      exact absurd hsame (Nat.ne_of_lt (Nat.lt_succ_of_le hvisit))
  | rewind | advance | settle | restart | begin | beginLogged | descend | finishList | cutList
  | finish | cut => exact .left _ _ (by simp [Phase.rank])
  | call | skip | hole | visit => exact .right _ (Nat.lt_succ_self _)
  | exhausted | unlogged | raise | unrepeated | abort => exact absurd rfl hb

/-- Only the visit of an entry runs into the limit on visits. -/
theorem Move.entry_of_visitLimit (h : Move setup a b) (ha : a.sweep.stopped = none)
    (hb : b.sweep.stopped = some .visitLimit) :
    ∃ step before after task s w w', a = ⟨.visiting step before (some task :: after), s, w⟩ ∧
      ¬ s.Dirty step ∧
      entryOutcome setup step before after task w = (.error .visitLimit, w') := by
  have hend := (h.isSome_stopped_iff ha).mp (Option.isSome_of_eq_some hb)
  cases h with
  | @abort s w step before after task stop w' hclean houtcome =>
      obtain rfl : stop = .visitLimit := Option.some.inj hb
      exact ⟨step, before, after, task, s, w, w', rfl, hclean, houtcome⟩
  | exhausted | unlogged | raise | unrepeated => cases hb
  | _ => cases hend

end Sweep

/-! ## The whole optimization -/

namespace Setup

open Sweep

/-- The optimization comes to an entry of the list, and this is where its visit begins. -/
def ComesTo (setup : Setup σ) (user : σ) (graph : Graph) (list : List (Option TaskId))
    (step : Step σ) (x : Entrance σ) : Prop :=
  ∃ limit before after task s, Path (setup.withLimit limit) (start user graph list)
      ⟨.visiting step before (some task :: after), s, x.work⟩ ∧ ¬ s.Dirty step ∧
    x.view = .ofEntry (before.reverse ++ some task :: after) step.gate task

variable {setup : Setup σ} {user : σ} {graph : Graph} {list : List (Option TaskId)}

/-- If all the visits of entries return, there is a limit under which the optimization goes on to
its end. -/
theorem exists_path_final
    (hvisits : ∀ step x, setup.ComesTo user graph list step x →
      Visit.Halts setup.maxSteps step.members step.forTask x)
    {limit : Nat} {a : Situation σ} (h : Path (setup.withLimit limit) (start user graph list) a)
    (ha : a.sweep.stopped ≠ some .visitLimit) :
    ∃ limit b, Path (setup.withLimit limit) (start user graph list) b ∧ b.Final ∧
      b.sweep.stopped ≠ some .visitLimit := by
  by_cases hfinal : a.Final
  · exact ⟨limit, a, h, hfinal, ha⟩
  have hbegins := begins_start (setup.withLimit limit) user graph list
  have hphase : a.phase ≠ .stopped := fun hphase => hfinal (Or.inl hphase)
  have hgoes := hbegins.stopped_eq_none h hphase
  have hsteps : a.work.steps ≤ setup.maxSteps := (h.steps_le hphase).2 hbegins.steps
  -- under a larger limit, the next move is not the end that the limit puts to a visit
  have hnext : ∃ limit' b, limit ≤ limit' ∧ Move (setup.withLimit limit') a b ∧
      b.sweep.stopped ≠ some .visitLimit := by
    obtain ⟨b, hmove⟩ := exists_move h hfinal
    by_cases hb : b.sweep.stopped = some .visitLimit
    · obtain ⟨step, before, after, task, s, w, w', rfl, hclean, houtcome⟩ :=
        hmove.entry_of_visitLimit hgoes hb
      let x : Entrance σ := ⟨.ofEntry (before.reverse ++ some task :: after) step.gate task, w⟩
      obtain ⟨more, hends⟩ := hvisits step x ⟨limit, before, after, task, s, h, hclean, rfl⟩
      have hle : limit ≤ max limit more := Nat.le_max_left limit more
      obtain ⟨b, hmove⟩ := exists_move (h.withLimit hle hbegins ha) hfinal
      refine ⟨max limit more, b, hle, hmove, ?_⟩
      intro hb
      obtain ⟨_, _, _, _, _, _, _, heq, _, houtcome⟩ := hmove.entry_of_visitLimit hgoes hb
      cases heq
      have hvisit := Visit.refines_visit setup.maxSteps step.members step.forTask
        (Nat.le_max_right limit more) x.view
      exact hvisit.ends hends (congrArg Prod.fst houtcome)
    · exact ⟨limit, b, Nat.le_refl limit, hmove, hb⟩
  obtain ⟨limit', b, hle, hmove, hb⟩ := hnext
  have hlonger := (h.withLimit hle hbegins ha).tail hmove
  by_cases hstopped : b.phase = .stopped
  · exact ⟨limit', b, hlonger, Or.inl hstopped, hb⟩
  · exact exists_path_final hvisits hlonger hb
termination_by a.left setup.maxSteps
decreasing_by exact hmove.left_lt hstopped hsteps

/-- What holds of all registered rules holds of the rules of the step. -/
theorem ComesTo.forall_members {P : Rule σ → Prop} {step : Step σ} {x : Entrance σ}
    (h : setup.ComesTo user graph list step x)
    (hrules : ∀ c, ∀ id ∈ setup.registry.rules c, P (setup.rules id)) :
    ∀ m ∈ step.members, P m.rule := by
  obtain ⟨limit, _, _, _, _, hpath, _⟩ := h
  have hstands := hpath.invariant (I := fun _ => True) (stands_start _ user graph list) trivial
    fun _ _ _ _ _ => trivial
  exact hstands.1.1.forall_members hrules

/-- Where the visit of an entry begins, the budget is kept. -/
theorem ComesTo.steps_le {step : Step σ} {x : Entrance σ}
    (h : setup.ComesTo user graph list step x) : x.work.steps ≤ setup.maxSteps := by
  obtain ⟨limit, before, after, task, s, hpath, _⟩ := h
  exact (hpath.steps_le nofun).2 (Nat.zero_le _)

/-- It begins at a well-formed tree, if the rules keep the contract. -/
theorem ComesTo.sound
    (hrules : ∀ c, ∀ id ∈ setup.registry.rules c, (setup.rules id).Regrafts)
    (hcheck : graph.check (list.filterMap id) = .ok ()) {step : Step σ} {x : Entrance σ}
    (h : setup.ComesTo user graph list step x) : x.Sound setup.maxSteps := by
  refine ⟨?_, h.steps_le⟩
  obtain ⟨limit, before, after, task, s, hpath, _, hview⟩ := h
  rw [Graph.check_eq_ok_iff, Graph.wellFormed_filterMap] at hcheck
  obtain ⟨_, hsound⟩ := hpath.invariant (stands_start _ user graph list)
    (fun _ => hcheck) fun _ _ => Move.sound hrules
  have htask : x.work.graph.SoundAt task := hsound nofun task (by simp [Situation.list])
  rw [hview]
  simpa [TaskView.ofEntry, Graph.wellFormed_iff] using htask

/-! ### How optimizations end -/

/-- The optimization comes to an end: above some limit on visits it does not depend on the limit any
more, so it makes the same finitely many calls of rules and leaves the same list and graph behind.
It is completed within the budget, or the budget was used up, or there was a fault. -/
def Ends (setup : Setup σ) (user : σ) (graph : Graph) (list : List (Option TaskId)) : Prop :=
  ∃ limit o, (∀ more ≥ limit, (setup.withLimit more).optimize user graph list = o) ∧
    ((∃ stats, o.result = .ok stats ∧ stats.steps ≤ setup.maxSteps) ∨
      o.result = .error .exhausted ∨ ∃ f, o.result = .error (.fault f))

/-- The optimization returns: it comes to an end, and not by a fault. -/
def Returns (setup : Setup σ) (user : σ) (graph : Graph) (list : List (Option TaskId)) : Prop :=
  ∃ limit o, (∀ more ≥ limit, (setup.withLimit more).optimize user graph list = o) ∧
    ((∃ stats, o.result = .ok stats ∧ stats.steps ≤ setup.maxSteps) ∨
      o.result = .error .exhausted)

/-- An optimization that does not end at the limit on visits has kept the budget, used it up, or met
a fault. -/
theorem result_cases (hlimit : (setup.optimize user graph list).result ≠ .error .visitLimit) :
    (∃ stats, (setup.optimize user graph list).result = .ok stats ∧
      stats.steps ≤ setup.maxSteps) ∨
      (setup.optimize user graph list).result = .error .exhausted ∨
      ∃ f, (setup.optimize user graph list).result = .error (.fault f) := by
  obtain ⟨b, hpath, _, heq⟩ := exists_final setup user graph list
  have hstopped := Path.isSome_stopped_iff hpath rfl nofun
  rw [heq, Situation.remains] at hlimit ⊢
  rcases hstop : b.sweep.stopped with _ | ⟨_ | f | _⟩
  · left
    rw [hstop] at hstopped
    have hphase : b.phase ≠ .stopped := fun hphase => by cases hstopped.mpr hphase
    exact ⟨_, rfl, (hpath.steps_le hphase).2 (Nat.zero_le _)⟩
  · exact Or.inr (Or.inl rfl)
  · exact Or.inr (Or.inr ⟨f, rfl⟩)
  · rw [hstop] at hlimit
    exact absurd rfl hlimit

/-- Where there are no faults, to come to an end is to return. -/
theorem ends_iff_returns (hfault : ∀ limit f,
      ((setup.withLimit limit).optimize user graph list).result ≠ .error (.fault f)) :
    setup.Ends user graph list ↔ setup.Returns user graph list := by
  constructor
  · rintro ⟨limit, o, hsame, hok | hexhausted | ⟨f, hf⟩⟩
    · exact ⟨limit, o, hsame, Or.inl hok⟩
    · exact ⟨limit, o, hsame, Or.inr hexhausted⟩
    · rw [← hsame limit (Nat.le_refl limit)] at hf
      exact absurd hf (hfault limit f)
  · rintro ⟨limit, o, hsame, hok | hexhausted⟩
    · exact ⟨limit, o, hsame, Or.inl hok⟩
    · exact ⟨limit, o, hsame, Or.inr (Or.inl hexhausted)⟩

/-- If all the visits of entries return, the optimization comes to an end. -/
theorem ends_of_halts
    (hvisits : ∀ step x, setup.ComesTo user graph list step x →
      Visit.Halts setup.maxSteps step.members step.forTask x) : setup.Ends user graph list := by
  have hbegins : Path (setup.withLimit 0) (start user graph list) (start user graph list) := .refl
  obtain ⟨limit, b, hpath, hfinal, hb⟩ := exists_path_final hvisits hbegins fun heq => by cases heq
  have hlimit : ((setup.withLimit limit).optimize user graph list).result ≠ .error .visitLimit := by
    rw [optimize_of_path hpath hfinal, Situation.remains]
    split
    · intro heq
      cases heq
    · next stop hstop =>
        rintro ⟨rfl⟩
        exact hb hstop
  exact ⟨limit, _, fun more hle => optimize_withLimit hle hlimit, result_cases hlimit⟩

/-- If the visit of an entry returns under no limit, the optimization runs into every limit. -/
theorem ComesTo.result_eq_visitLimit {step : Step σ} {x : Entrance σ}
    (h : setup.ComesTo user graph list step x)
    (hlost : ¬ Visit.Halts setup.maxSteps step.members step.forTask x) (limit : Nat) :
    ((setup.withLimit limit).optimize user graph list).result = .error .visitLimit := by
  by_contra hreturns
  obtain ⟨limit', before, after, task, s, hpath, hclean, hview⟩ := h
  -- under the larger limit it comes to the entry as well, and the visit is the end of it
  have hbegins := begins_start (setup.withLimit limit') user graph list
  have hgoes : s.stopped = none := hbegins.stopped_eq_none hpath nofun
  have hpath := hpath.withLimit (Nat.le_max_right limit limit') hbegins (by rw [hgoes]; nofun)
  obtain ⟨w', houtcome⟩ : ∃ w', entryOutcome (setup.withLimit (max limit limit')) step before after
      task x.work = (.error .visitLimit, w') := by
    have hends : ¬ (Visit.visit setup.maxSteps step.members step.forTask (max limit limit')
        x.view).Ends x.work := fun hends => hlost ⟨_, hends⟩
    rw [hview] at hends
    exact ⟨_, Prod.ext (Classical.not_not.mp hends) rfl⟩
  have hend := optimize_of_path (hpath.tail (.abort hclean houtcome)) (Or.inl rfl)
  rw [optimize_withLimit (Nat.le_max_left limit limit') hreturns] at hend
  rw [hend] at hreturns
  exact hreturns rfl

/-- The optimization comes to an end exactly if no visit of an entry goes down for ever. -/
theorem ends_iff_not_descends
    (hadds : ∀ c, ∀ id ∈ setup.registry.rules c, (setup.rules id).Additive) :
    setup.Ends user graph list ↔
      ¬ ∃ step x, setup.ComesTo user graph list step x ∧ step.forTask = true ∧
        Visit.DescendsForever setup.maxSteps step.members x := by
  constructor
  · rintro ⟨limit, o, hsame, hresult⟩ ⟨step, x, hx, hdeep, hdescends⟩
    have hlost : ¬ Visit.Halts setup.maxSteps step.members step.forTask x := by
      rw [hdeep]
      exact hdescends.not_halts
    have hlimit := hx.result_eq_visitLimit hlost limit
    rw [hsame limit (Nat.le_refl limit)] at hlimit
    rw [hlimit] at hresult
    rcases hresult with ⟨_, hok, _⟩ | hexhausted | ⟨f, hf⟩
    · cases hok
    · cases hexhausted
    · cases hf
  · intro hnone
    apply ends_of_halts
    intro step x hx
    by_contra hlost
    cases hdeep : step.forTask with
    | false =>
        rw [hdeep] at hlost
        exact hlost (Visit.halts_of_shallow _ _ x)
    | true =>
        rw [hdeep] at hlost
        have hdescends :=
          Visit.descendsForever_of_not_halts (hx.forall_members hadds) hx.steps_le hlost
        exact hnone ⟨step, x, hx, hdeep, hdescends⟩

/-- **Exactly the optimizations return that do not go down for ever.** Let the rules change no
existing node. Whatever else they do and report, and whatever the list and the budget are, the
optimization comes to an end, unless it comes to an entry whose visit leads to the visit of a
sub-task, that one to another one below it, and so on without end.

If the rules also keep the contract of well-formed trees, and give up at no call that shows them
well-formed trees, and the trees of the list pass the check, then that end is no fault: either the
optimization is completed within the budget, or the budget was used up. -/
theorem returns_iff_not_descends (setup : Setup σ) (user : σ) (graph : Graph)
    (list : List (Option TaskId))
    (hadds : ∀ c, ∀ id ∈ setup.registry.rules c, (setup.rules id).Additive) :
    (setup.Ends user graph list ↔
      ¬ ∃ step x, setup.ComesTo user graph list step x ∧ step.forTask = true ∧
        Visit.DescendsForever setup.maxSteps step.members x) ∧
    ((∀ c, ∀ id ∈ setup.registry.rules c, (setup.rules id).Regrafts ∧ (setup.rules id).Steady) →
      graph.check (list.filterMap id) = .ok () →
      (setup.Ends user graph list ↔ setup.Returns user graph list)) := by
  refine ⟨ends_iff_not_descends hadds, ?_⟩
  intro hrules hcheck
  apply ends_iff_returns
  intro limit f
  exact (setup.withLimit limit).optimize_ne_fault user (fun c id hid => (hrules c id hid).1)
    (fun c id hid => (hrules c id hid).2) hcheck f

/-- Where a wrapper is taken away no visit goes down for ever, and the optimization returns. -/
theorem returns_iff_not_descends_unwrapping :
    (¬ ∃ step x, unwrappingSetup.ComesTo () wrappedGraph [some ⟨2⟩, none, some ⟨1⟩] step x ∧
      step.forTask = true ∧ Visit.DescendsForever unwrappingSetup.maxSteps step.members x) ∧
    unwrappingSetup.Returns () wrappedGraph [some ⟨2⟩, none, some ⟨1⟩] := by
  have hcheck : wrappedGraph.check ([some ⟨2⟩, none, some ⟨1⟩].filterMap id) = .ok () :=
    Graph.check_eq_ok_iff.mpr (Graph.wellFormed_of_older (by decide) (by decide))
  have hresult : ((unwrappingSetup.withLimit 8).optimize () wrappedGraph
      [some ⟨2⟩, none, some ⟨1⟩]).result = .ok ⟨11, 0⟩ := by decide +kernel
  have hends : unwrappingSetup.Ends () wrappedGraph [some ⟨2⟩, none, some ⟨1⟩] :=
    ⟨8, _, fun more hle => optimize_withLimit hle (by rw [hresult]; nofun),
      Or.inl ⟨⟨11, 0⟩, hresult, by decide⟩⟩
  obtain ⟨hdescends, hreturns⟩ := returns_iff_not_descends unwrappingSetup () wrappedGraph
    [some ⟨2⟩, none, some ⟨1⟩] fun _ _ _ => Rule.additive_unwrapping
  refine ⟨hdescends.mp hends, (hreturns ?_ hcheck).mp hends⟩
  exact fun _ _ _ => ⟨Rule.regrafts_unwrapping, Rule.steady_unwrapping⟩

/-- **Optimizations return if the rules dig.** Let the rules that apply at any depth before the
sub-tasks also put nothing below a task that did not hang below it. Then every optimization of a
list that passes the check returns, with any budget. -/
theorem returns_of_digs (setup : Setup σ) (user : σ) {graph : Graph} {list : List (Option TaskId)}
    (hadds : ∀ c, ∀ id ∈ setup.registry.rules c, (setup.rules id).Additive)
    (hrules : ∀ c, ∀ id ∈ setup.registry.rules c, (setup.rules id).Regrafts)
    (hsteady : ∀ c, ∀ id ∈ setup.registry.rules c, (setup.rules id).Steady)
    (hdigs : ∀ c, ∀ id ∈ setup.registry.rules c, (setup.rules id).Digs)
    (hcheck : graph.check (list.filterMap id) = .ok ()) : setup.Returns user graph list := by
  apply (ends_iff_returns fun limit =>
    (setup.withLimit limit).optimize_ne_fault user hrules hsteady hcheck).mp
  apply ends_of_halts
  intro step x hx
  cases step.forTask with
  | false => exact Visit.halts_of_shallow _ _ x
  | true =>
      exact Visit.halts_of_digs (hx.forall_members hadds) (hx.forall_members hrules)
        (hx.forall_members hdigs) (hx.sound hrules hcheck)

theorem returns_unwrapping {graph : Graph} {list : List (Option TaskId)}
    (hcheck : graph.check (list.filterMap id) = .ok ()) :
    unwrappingSetup.Returns () graph list :=
  returns_of_digs unwrappingSetup () (fun _ _ _ => Rule.additive_unwrapping)
    (fun _ _ _ => Rule.regrafts_unwrapping) (fun _ _ _ => Rule.steady_unwrapping)
    (fun _ _ _ => Rule.digs_unwrapping) hcheck

/-! ### Wrapping

The rule says which category it unsettles, and no rule relies on an earlier one. Each call ends and
keeps the contract. But the visit goes on below what the rule answered, and there it comes to the
same task again. -/

end Setup

/-- A new node above a task. -/
def Node.above (task : TaskId) : Node :=
  { Node.ofKind ⟨0, "wrap", none, {}⟩ with subTasks := [some task] }

/-- A rule that puts a new node above every task. -/
def Rule.wrapping : Rule Unit where
  name := "wrap"
  descriptor :=
    { Descriptor.ofCategory .common with forTask := true, affects := Category.common.mask }
  runTask c := { call := match c.view.task with
    | some task =>
      { c with
        graph := c.graph.insert (.above task)
        view := { c.view with task := some c.graph.nextId } }
    | none => c }

theorem Rule.additive_wrapping : Rule.wrapping.Additive where
  list _ := .refl _
  task c := by
    dsimp only [Rule.wrapping]
    split
    · exact .insert _ _
    · exact .refl _

theorem Rule.regrafts_wrapping : Rule.wrapping.Regrafts where
  list c hgiven _ := .refl hgiven
  task c hgiven _ := by
    dsimp only [Rule.wrapping]
    split
    · next task htask =>
        apply Graph.regrafts_insert hgiven
        intro a ha
        simpa [htask, Node.above] using ha
    · exact .refl hgiven

theorem Rule.grows_wrapping : Rule.wrapping.Grows := by
  intro c htask
  obtain ⟨task, htask⟩ := Option.isSome_iff_exists.mp htask
  refine ⟨rfl, c.graph.nextId, .above task, task, ?_⟩
  simp [Rule.wrapping, htask, Graph.get?_insert_nextId, Node.above]

theorem Rule.steady_wrapping : Rule.wrapping.Steady where
  list _ _ := rfl
  task _ _ := rfl

/-- The rule alone. -/
def wrappingSetup : Setup Unit where
  rules _ := .wrapping
  registry := ⟨fun c => if c = .common then [⟨0⟩] else []⟩
  maxSteps := 8
  logSteps := false
  visitLimit := 8

/-- A task without sub-tasks. -/
def imageGraph : Graph := ⟨#[Node.ofKind ⟨0, "image", none, {}⟩]⟩

namespace Setup

open Sweep

/-- The step of the rule. -/
def wrappingStep : Step Unit := stepAt wrappingSetup .common ⟨⟨0⟩, .wrapping⟩

/-- The visit of the only entry begins in the first turn. -/
theorem comesTo_wrapping : ∃ w, wrappingSetup.ComesTo () imageGraph [some ⟨0⟩] wrappingStep
    ⟨.ofEntry [some ⟨0⟩] wrappingStep.gate ⟨0⟩, w⟩ := by
  let setup := wrappingSetup.withLimit 0
  let s : Sweep := { Sweep.start [some ⟨0⟩] with turns := 1 }
  let w : Workspace Unit := ⟨(), imageGraph, 1, []⟩
  let begun := s.stepBegun wrappingStep w
  have hclean : ¬ s.Dirty wrappingStep := by
    unfold Sweep.Dirty
    decide
  have hspend : Move setup (start () imageGraph [some ⟨0⟩]) ⟨.turning, s, w⟩ :=
    .spend rfl (by decide)
  have hbegin : Move setup ⟨.turning, s, w⟩
      ⟨.listing wrappingStep wrappingStep.members, s, begun⟩ :=
    .begin rfl Mask.mem_full rfl (fun _ => by decide) rfl
  have hskip : Move setup ⟨.listing wrappingStep wrappingStep.members, s, begun⟩
      ⟨.listing wrappingStep [], s, begun⟩ := .skip hclean rfl
  have hdescend : Move setup ⟨.listing wrappingStep [], s, begun⟩
      ⟨.visiting wrappingStep [] [some ⟨0⟩], s, begun⟩ := .descend hclean rfl
  have hpath : Path setup (start () imageGraph [some ⟨0⟩])
      ⟨.visiting wrappingStep [] [some ⟨0⟩], s, begun⟩ :=
    (((Relation.ReflTransGen.single hspend).tail hbegin).tail hskip).tail hdescend
  exact ⟨_, 0, [], [], ⟨0⟩, s, hpath, hclean, rfl⟩

/-- **A rule that keeps every contract can make the visits go down for ever.** Whatever limit is put
to the visits, the optimization runs into it, with a budget of eight steps. -/
theorem endless_wrapping :
    Rule.wrapping.Additive ∧ Rule.wrapping.Regrafts ∧ Rule.wrapping.Steady ∧
      imageGraph.check [⟨0⟩] = .ok () ∧
      ∀ limit, ((wrappingSetup.withLimit limit).optimize () imageGraph [some ⟨0⟩]).result =
        .error .visitLimit := by
  refine ⟨Rule.additive_wrapping, Rule.regrafts_wrapping, Rule.steady_wrapping, ?_, ?_⟩
  · exact Graph.check_eq_ok_iff.mpr (Graph.wellFormed_of_older (by decide) (by decide))
  · intro limit
    obtain ⟨w, hcomes⟩ := comesTo_wrapping
    apply hcomes.result_eq_visitLimit
    apply Visit.DescendsForever.not_halts
    exact Visit.descendsForever_of_grows Rule.grows_wrapping rfl rfl rfl rfl

end Setup

end RenderPlan
