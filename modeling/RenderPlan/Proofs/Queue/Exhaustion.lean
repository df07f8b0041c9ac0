/-
# RenderPlan.Proofs.Queue.Exhaustion -- workers that are left to themselves fall asleep

Each step in which a worker looks for work, answers or reports leaves fewer such steps to do
(`Step.left_lt`), and as long as some worker of a running queue is not asleep there is such a step
(`exists_labors`). So, whatever order the workers take, they come to rest, and what holds then is
inevitable (`Reached.inevitable`).

Sleepers that wake for no reason are left out. A pool whose workers do nothing but wake and fall asleep
again does not come to rest.
-/
import RenderPlan.Proofs.Queue.Completion

namespace RenderPlan

/-! ## What is inevitable -/

/-- Sooner or later this holds, whatever steps are taken: it holds already, or some step can be taken
and after each of them it is inevitable. -/
inductive Inevitable {S : Type} (step : S → S → Prop) (P : S → Prop) : S → Prop where
  | now {s} (h : P s) : Inevitable step P s
  | later {s} (moves : ∃ t, step s t) (next : ∀ t, step s t → Inevitable step P t) :
      Inevitable step P s

/-- A measure that falls with each step, and an invariant that leaves a step to take until it
holds. -/
theorem Inevitable.of_measure {S : Type} {step : S → S → Prop} {P I : S → Prop} {s : S}
    (measure : S → Nat) (hless : ∀ s t, step s t → measure t < measure s)
    (hkeeps : ∀ s t, I s → step s t → I t) (hmoves : ∀ s, I s → P s ∨ ∃ t, step s t) (hs : I s) :
    Inevitable step P s := by
  generalize hm : measure s = m
  induction m using Nat.strong_induction_on generalizing s with
  | _ m ih =>
    rcases hmoves s hs with hP | hstep
    · exact .now hP
    · exact .later hstep fun t ht => ih _ (hm ▸ hless s t ht) (hkeeps s t hs ht) rfl

/-! ## The steps that are left -/

/-- A worker looks for work, answers or reports. -/
def Action.IsLabor {α π : Type} : Action α π → Prop
  | check _ | run _ _ | report _ => True
  | _ => False

theorem Action.IsLabor.isOf {α π : Type} {a : Action α π} (h : a.IsLabor) : ∃ w, a.IsOf w := by
  cases a with
  | check w => exact ⟨w, rfl⟩
  | run w ok => exact ⟨w, rfl⟩
  | report w => exact ⟨w, rfl⟩
  | _ => exact h.elim

namespace Pool

variable {α π : Type} {p q pool : Pool α π} {a : Action α π} {as before after : List (Action α π)}
  {n w : Nat} {x : Worker (Payload α) π}

/-- The steps that a worker has before it until it sleeps. Its report may wake all `n` workers. -/
def share (n : Nat) : Activity (Payload α) π → Nat
  | .running _ => n + 2
  | .ran _ _ => n + 1
  | .awake => 1
  | .asleep | .gone => 0

/-- The steps that these workers have before them. -/
def shares (n : Nat) : List (Worker (Payload α) π) → Nat
  | [] => 0
  | x :: ws => share n x.activity + shares n ws

/-- More steps than this the workers cannot take. -/
def left (p : Pool α π) : Nat :=
  p.pendingCount * (p.threadCount + 3) + shares p.threadCount p.workers

theorem shares_middle (n : Nat) (xs ys : List (Worker (Payload α) π)) (x : Worker (Payload α) π) :
    shares n (xs ++ x :: ys) = share n x.activity + (shares n xs + shares n ys) := by
  induction xs with
  | nil => exact (congrArg (_ + ·) (Nat.zero_add _)).symm
  | cons y xs ih =>
      rw [List.cons_append, shares, shares, ih]
      omega

/-- The share of the worker is exchanged, and the others keep theirs. -/
theorem shares_setActivity (n : Nat) (hw : p.workers[w]? = some x) (b : Activity (Payload α) π) :
    shares n (p.setActivity w b).workers + share n x.activity =
      shares n p.workers + share n b := by
  obtain ⟨xs, ys, hp, hq⟩ := workers_setActivity hw b
  rw [hp, hq, shares_middle, shares_middle]
  dsimp only
  omega

/-- Waking costs each worker one step at most. -/
theorem shares_woken_le (n : Nat) (ws : List (Worker (Payload α) π)) :
    shares n (ws.map fun x => { x with activity := x.activity.woken }) ≤ shares n ws + ws.length := by
  induction ws with
  | nil => exact Nat.le_refl _
  | cons x ws ih =>
      have hx : share n x.activity.woken ≤ share n x.activity + 1 := by
        cases x.activity <;> simp [Activity.woken, share]
      rw [List.map_cons, shares, shares, List.length_cons]
      dsimp only
      omega

/-- Waking costs nothing to a worker that is awake. -/
theorem shares_wakeAll_lt (n : Nat) (hw : p.workers[w]? = some x) (hx : x.activity = .awake) :
    shares n p.wakeAll.workers < shares n p.workers + p.threadCount := by
  obtain ⟨xs, ys, hp, -⟩ := workers_setActivity hw .awake
  have hxs := shares_woken_le n xs
  have hys := shares_woken_le n ys
  rw [wakeAll, threadCount, hp, List.map_append, List.map_cons, shares_middle, shares_middle, hx,
    List.length_append, List.length_cons]
  show share n .awake + _ < _
  omega

/-- Answering gives up one step. -/
theorem shares_answer {lane : Option Lane} {job : PendingJob (Payload α) π} (n : Nat) (ok : Bool)
    (hw : p.workers[w]? = some ⟨lane, .running job⟩) :
    shares n (p.answer w job ok).workers + 1 = shares n p.workers := by
  unfold answer
  cases job.payload with
  | work _ =>
      have hset := shares_setActivity n hw (.ran job ok)
      dsimp only [share] at hset ⊢
      omega
  | barrier =>
      have hset := shares_setActivity (p := p.release job.id (.completed job.sound)) n
        (by rw [workers_release]; exact hw) (.ran job true)
      rw [workers_release] at hset
      dsimp only [share] at hset ⊢
      omega

/-- Reporting gives up one step at least, also where it wakes the sleepers. -/
theorem shares_done_lt {lane : Option Lane} {job : PendingJob (Payload α) π} {ok : Bool}
    (hw : p.workers[w]? = some ⟨lane, .ran job ok⟩) :
    shares p.threadCount (p.done w job ok).workers < shares p.threadCount p.workers := by
  have hset := shares_setActivity p.threadCount hw .awake
  have hself := workers_setActivity_self hw .awake
  have hcount : (p.setActivity w .awake).threadCount = p.threadCount := by
    rw [threadCount, setActivity, List.length_modify]
    rfl
  have hpos : 0 < p.threadCount := Nat.zero_lt_of_lt (List.getElem?_eq_some_iff.mp hw).1
  dsimp only [share] at hset
  unfold done
  split
  · have hwoken := shares_wakeAll_lt p.threadCount hself rfl
    rw [hcount] at hwoken
    show shares _ (p.setActivity w .awake).wakeAll.workers < _
    omega
  · show shares _ (p.setActivity w .awake).workers < _
    omega

/-- **Each step of the workers leaves fewer steps.** -/
theorem Step.left_lt (hs : p.Step a q) (ha : a.IsLabor) : q.left < p.left := by
  have hcount : q.threadCount = p.threadCount := hs.length_workers
  unfold left
  rw [hcount]
  cases hs with
  | submit hsub _ _ | refuse hsub _ =>
      obtain ⟨w, hw⟩ := ha.isOf
      rw [hw.submission?_eq_none] at hsub
      cases hsub
  | @take w lane job before after hw hr hpending hbefore hready =>
      have hset := shares_setActivity p.threadCount hw (.running job)
      have hless : p.pendingCount = (p.start w job (before ++ after)).pendingCount + 1 := by
        rw [pendingCount, hpending]
        exact (List.length_append ..).trans (congrArg (· + 1) (List.length_append ..).symm)
      rw [hless, Nat.add_one_mul]
      dsimp only [share] at hset
      show _ + shares _ (p.setActivity w (.running job)).workers < _
      omega
  | sleep hw _ _ =>
      have hset := shares_setActivity p.threadCount hw .asleep
      dsimp only [share] at hset
      exact Nat.add_lt_add_left (by omega) _
  | leave hw _ =>
      have hset := shares_setActivity p.threadCount hw .gone
      dsimp only [share] at hset
      exact Nat.add_lt_add_left (by omega) _
  | @answer w lane job ok hw =>
      have hshares := shares_answer p.threadCount ok hw
      rw [pendingCount, queue_answer]
      exact Nat.add_lt_add_left (by omega) _
  | @report w lane job ok hw =>
      refine Nat.add_lt_add_of_le_of_lt (Nat.mul_le_mul_right _ ?_) (shares_done_lt hw)
      rw [pendingCount, (done_fields p w job ok).1, Queue.complete, List.length_map]
      exact List.length_filter_le _ _
  | wake _ | close | join _ _ | clear | abandon _ => exact ha.elim

/-! ## What jobs answer -/

section Answers

variable {allowed : α → PendingJob (Payload α) π → Bool → Prop}

/-- The job may answer this. What a barrier answers does not count. -/
def MayAnswer (allowed : α → PendingJob (Payload α) π → Bool → Prop)
    (job : PendingJob (Payload α) π) (answer : Bool) : Prop :=
  ∀ a, job.payload = .work a → allowed a job answer

/-- If the worker has an answer that it has not reported, it is one that the job may give. -/
def Admissible (allowed : α → PendingJob (Payload α) π → Bool → Prop)
    (b : Activity (Payload α) π) : Prop :=
  ∀ job answer, b = .ran job answer → MayAnswer allowed job answer

/-- All that has answered, reported or not, answered what it may. -/
structure Obeys (allowed : α → PendingJob (Payload α) π → Bool → Prop) (p : Pool α π) : Prop where
  ended : ∀ w job answer, .ended w job answer ∈ p.history → MayAnswer allowed job answer
  ran : ∀ x ∈ p.workers, Admissible allowed x.activity

/-- Some worker does its work. A job that answers then answers what it may. -/
def Labors (allowed : α → PendingJob (Payload α) π → Bool → Prop) (p q : Pool α π) : Prop :=
  ∃ a, a.IsLabor ∧ p.Step a q ∧
    ∀ w ok, a = .run w ok → ∀ job, p.running? w = some job → MayAnswer allowed job ok

theorem running?_eq_some_iff {job : PendingJob (Payload α) π} :
    p.running? w = some job ↔ ∃ lane, p.workers[w]? = some ⟨lane, .running job⟩ := by
  unfold running?
  grind

theorem Obeys.labors (h : p.Obeys allowed) (hlabors : p.Labors allowed q) : q.Obeys allowed := by
  obtain ⟨a, ha, hs, hmay⟩ := hlabors
  cases hs with
  | submit hsub _ _ | refuse hsub _ =>
      obtain ⟨w, hw⟩ := ha.isOf
      rw [hw.submission?_eq_none] at hsub
      cases hsub
  | take _ _ _ _ _ =>
      refine ⟨fun v j answer he => h.ended v j answer ?_, ?_⟩
      · exact (List.mem_cons.mp he).resolve_left nofun
      · exact forall_setActivity (p := { p with queue := _ }) h.ran _ nofun
  | sleep _ _ _ | leave _ _ => exact ⟨h.ended, forall_setActivity h.ran _ nofun⟩
  | @answer w lane job ok hw =>
      refine ⟨by rw [history_answer]; exact h.ended, ?_⟩
      have hjob : MayAnswer allowed job ok := hmay w ok rfl job (running?_eq_some_iff.mpr ⟨_, hw⟩)
      unfold answer
      cases hpayload : job.payload with
      | work a =>
          refine forall_setActivity h.ran _ ?_
          rintro _ _ ⟨⟩
          exact hjob
      | barrier =>
          refine forall_setActivity (by rw [workers_release]; exact h.ran) _ ?_
          rintro _ _ ⟨⟩ a ha
          rw [hpayload] at ha
          cases ha
  | @report w lane job ok hw =>
      obtain ⟨-, -, hhistory⟩ := done_fields p w job ok
      refine ⟨fun v j answer he => ?_, ?_⟩
      · rw [hhistory] at he
        rcases List.mem_cons.mp he with heq | he
        · cases heq
          exact h.ran _ (List.mem_of_getElem? hw) _ _ rfl
        · exact h.ended v j answer he
      · have hset := forall_setActivity (P := Admissible allowed) h.ran w (b := .awake) nofun
        unfold done
        split
        · exact forall_wakeAll (p := (Pool.setActivity { p with queue := _ } w .awake).log _)
            hset nofun
        · exact hset
  | wake _ | close | join _ _ | clear | abandon _ => exact ha.elim

/-! ## Workers come to rest -/

/-- As long as a worker of a running queue is not asleep, some worker has something to do. -/
theorem exists_labors (hstaffed : p.Staffed) (hr : p.queue.running = true)
    (hsome : ∀ a job, ∃ ok, allowed a job ok) :
    (∀ x ∈ p.workers, x.activity = .asleep) ∨ ∃ q, p.Labors allowed q := by
  refine or_iff_not_imp_left.mpr fun hawake => ?_
  obtain ⟨x, hx, hactivity⟩ : ∃ x ∈ p.workers, x.activity ≠ .asleep := by
    push Not at hawake
    exact hawake
  obtain ⟨w, hw⟩ := List.getElem?_of_mem hx
  have hpresent := hstaffed.present hr x hx
  obtain ⟨lane, activity⟩ := x
  cases activity with
  | awake =>
      have hstep : p.step? (.check w) = some (p.check w lane) := by rw [step?, hw]
      exact ⟨_, .check w, trivial, .of_step? hstep, fun _ _ h => by cases h⟩
  | asleep => exact absurd rfl hactivity
  | running job =>
      obtain ⟨ok, hok⟩ : ∃ ok, MayAnswer allowed job ok := by
        cases hpayload : job.payload with
        | work a =>
            obtain ⟨ok, hok⟩ := hsome a job
            refine ⟨ok, fun a' ha' => ?_⟩
            rw [hpayload] at ha'
            cases ha'
            exact hok
        | barrier =>
            refine ⟨true, fun a ha => ?_⟩
            rw [hpayload] at ha
            cases ha
      refine ⟨_, .run w ok, trivial, .answer hw, ?_⟩
      rintro _ _ ⟨⟩ job' hjob'
      obtain ⟨_, hw'⟩ := running?_eq_some_iff.mp hjob'
      cases hw.symm.trans hw'
      exact hok
  | ran job ok => exact ⟨_, .report w, trivial, .report hw, fun _ _ h => by cases h⟩
  | gone => cases hpresent

/-- Steps of the workers can be taken in every pool that is reached. -/
theorem Reached.snoc (h : pool.Reached as p) (hs : p.Step a q) (ha : a.IsLabor) :
    pool.Reached (as ++ [a]) q := by
  obtain ⟨w, hw⟩ := ha.isOf
  refine h.extend ?_ ?_
  · rw [Action.idsOf_append, Action.idsOf_cons, hw.ids_eq_nil]
    exact (List.append_nil _).symm ▸ h.distinct
  · rw [run?, hs.step?_eq]
    rfl

/-- **Workers that are left to themselves come to rest.** What holds then is inevitable. -/
theorem Reached.inevitable {P : Pool α π → Prop} (h : pool.Reached as p)
    (hrunning : p.queue.running = true) (hobeys : p.Obeys allowed)
    (hsome : ∀ a job, ∃ ok, allowed a job ok)
    (hP : ∀ bs q, (∀ b ∈ bs, b.IsLabor) → pool.Reached (as ++ bs) q → q.queue.running = true →
      q.Obeys allowed → q.Resting → P q) :
    Inevitable (Labors allowed) P p := by
  refine .of_measure left (I := fun q => ∃ bs, (∀ b ∈ bs, b.IsLabor) ∧ pool.Reached (as ++ bs) q ∧
      q.queue.running = true ∧ q.Obeys allowed) ?_ ?_ ?_ ?_
  · rintro s t ⟨a, ha, hs, -⟩
    exact hs.left_lt ha
  · rintro s t ⟨bs, hbs, hreached, hr, hs⟩ hlabors
    have ht := hs.labors hlabors
    obtain ⟨a, ha, hstep, -⟩ := hlabors
    refine ⟨bs ++ [a], List.forall_mem_append.mpr ⟨hbs, List.forall_mem_singleton.mpr ha⟩, ?_, ?_,
      ht⟩
    · rw [← List.append_assoc]
      exact hreached.snoc hstep ha
    · have hopen : a ≠ .close := by
        rintro rfl
        exact ha.elim
      rw [hstep.running_eq hopen]
      exact hr
  · rintro s ⟨bs, hbs, hreached, hr, hs⟩
    refine (exists_labors hreached.staffed hr hsome).imp_left fun hasleep => ?_
    exact hP bs s hbs hreached hr hs (hreached.leads.resting_of_asleep hasleep)
  · exact ⟨[], List.forall_mem_nil _, by rwa [List.append_nil], hrunning, hobeys⟩

end Answers

end Pool

end RenderPlan
