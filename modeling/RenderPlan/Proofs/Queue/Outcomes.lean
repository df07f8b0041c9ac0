/-
# RenderPlan.Proofs.Queue.Outcomes -- where the outcomes of batches come from

A batch is answered by its barrier, and by nothing else: an outcome that tells of success or failure
is what the barrier was told when it began, and a barrier that ran has left an outcome. A batch is
given up only by a call of `stop` or `clear`.
-/
import RenderPlan.Proofs.Queue.Ledger

namespace RenderPlan.Pool

variable {α π : Type} {p q pool : Pool α π} {a : Action α π}

/-! ## One step -/

/-- The first outcome of a batch stays. -/
theorem outcome?_release (p : Pool α π) (barrier : JobId) (o : BatchOutcome) (id : JobId) :
    (p.release barrier o).outcome? id =
      if id = barrier then some ((p.outcome? barrier).getD o) else p.outcome? id := by
  unfold release
  by_cases hid : id = barrier
  · subst hid
    rw [if_pos rfl]
    cases hout : p.outcome? id with
    | some o' => exact hout
    | none =>
        rw [Option.isSome_none, if_neg Bool.false_ne_true]
        simp only [outcome?, List.lookup_cons_self, Option.getD_none]
  · rw [if_neg hid]
    split
    · rfl
    · simp only [outcome?, List.lookup_cons, beq_eq_false_iff_ne.mpr hid]

theorem outcome?_release_cases (p : Pool α π) (barrier : JobId) (o : BatchOutcome) (id : JobId) :
    (p.release barrier o).outcome? id = p.outcome? id ∨
      barrier = id ∧ (p.release barrier o).outcome? id = some o := by
  rw [outcome?_release]
  split
  · next hid =>
      subst hid
      cases p.outcome? id with
      | none => exact Or.inr ⟨rfl, rfl⟩
      | some o' => exact Or.inl rfl
  · exact Or.inl rfl

/-- An outcome is new only when the barrier runs, or when a job is abandoned. -/
theorem Step.outcome?_cases (hs : p.Step a q) (id : JobId) :
    q.outcome? id = p.outcome? id ∨
      (∃ (w : Nat) (lane : Option Lane) (job : PendingJob (Payload α) π),
        p.workers[w]? = some ⟨lane, .running job⟩ ∧ job.id = id ∧
          q.outcome? id = some (.completed job.sound)) ∨
      ((∃ call, a = .abandon call) ∧ q.outcome? id = some .abandoned) := by
  cases hs with
  | @answer w lane job ok hw =>
      unfold Pool.answer
      cases job.payload with
      | work _ => exact Or.inl rfl
      | barrier =>
          refine (outcome?_release_cases p job.id (.completed job.sound) id).imp_right ?_
          exact fun hnew => Or.inl ⟨w, lane, job, hw, hnew⟩
  | @report w lane job ok hw =>
      unfold Pool.done
      split <;> exact Or.inl rfl
  | @abandon call job jobs hcall =>
      unfold Pool.abandonJob
      cases job.payload with
      | work _ => exact Or.inl rfl
      | barrier =>
          let r := Pool.log { p with shutdowns := p.shutdowns.set call (.abandoning jobs) }
            (.abandoned job)
          refine (outcome?_release_cases r job.id .abandoned id).imp_right ?_
          exact fun hnew => Or.inr ⟨⟨call, rfl⟩, hnew.2⟩
  | _ => exact Or.inl rfl

theorem Step.isSome_outcome? (hs : p.Step a q) {id : JobId} (h : (p.outcome? id).isSome) :
    (q.outcome? id).isSome := by
  rcases hs.outcome?_cases id with hsame | ⟨_, _, _, _, _, hnew⟩ | ⟨_, hnew⟩
  · rwa [hsame]
  · rw [hnew]
    rfl
  · rw [hnew]
    rfl

/-- A report is of a job that has run. -/
theorem Step.ended_cases (hs : p.Step a q) {w : Nat} {job : PendingJob (Payload α) π}
    {answer : Bool} (h : .ended w job answer ∈ q.history) :
    .ended w job answer ∈ p.history ∨
      ∃ lane, p.workers[w]? = some ⟨lane, .ran job answer⟩ := by
  cases hs with
  | take _ _ _ _ _ =>
      rcases List.mem_cons.mp h with heq | h
      · cases heq
      · exact Or.inl h
  | answer _ =>
      rw [history_answer] at h
      exact Or.inl h
  | @report w' lane job' ok hw =>
      rw [(done_fields p w' job' ok).2.2] at h
      rcases List.mem_cons.mp h with heq | h
      · cases heq
        exact Or.inr ⟨lane, hw⟩
      · exact Or.inl h
  | abandon _ =>
      rw [(abandonJob_fields _ _).2.2] at h
      rcases List.mem_cons.mp h with heq | h
      · cases heq
      · exact Or.inl h
  | _ => exact Or.inl h

/-! ## Runs -/

/-- A batch that was answered was answered by its barrier, and a barrier that has run has answered
its batch. -/
structure Answered (p : Pool α π) : Prop where
  completed : ∀ {id ok}, p.outcome? id = some (.completed ok) →
    ∃ w, ∃ job : PendingJob (Payload α) π, .began w job ∈ p.history ∧ job.id = id ∧ job.sound = ok
  ran : ∀ x ∈ p.workers, ∀ job answer, x.activity = .ran job answer → job.payload = .barrier →
    (p.outcome? job.id).isSome
  ended : ∀ {w job answer}, .ended w job answer ∈ p.history → job.payload = .barrier →
    (p.outcome? job.id).isSome

theorem Step.answered (hs : p.Step a q) (hc : Coherent p.held p.history) (h : p.Answered) :
    q.Answered where
  completed := by
    intro id ok hout
    have hsuffix := hs.change.history_suffix
    rcases hs.outcome?_cases id with hsame | ⟨w, lane, job, hw, hid, hnew⟩ | ⟨_, hnew⟩
    · obtain ⟨w, job, hbegan, hjob⟩ := h.completed (hsame ▸ hout)
      exact ⟨w, job, hsuffix.subset hbegan, hjob⟩
    · rw [hnew] at hout
      cases hout
      -- the barrier that runs is in a worker's hands, so it began
      have hheld : job ∈ p.held :=
        List.mem_filterMap.mpr ⟨_, List.mem_of_getElem? hw, rfl⟩
      obtain ⟨w', hbegan⟩ := hc.held_began job hheld
      exact ⟨w', job, hsuffix.subset hbegan, hid, rfl⟩
    · rw [hnew] at hout
      cases hout
  ran := by
    refine hs.forall_activity (P := fun b => ∀ job answer, b = .ran job answer →
      job.payload = .barrier → (q.outcome? job.id).isSome) ?_ nofun nofun (fun _ => nofun)
      (fun _ _ => nofun) ?_
    · intro x hx job answer hran hbarrier
      exact hs.isSome_outcome? (h.ran x hx job answer hran hbarrier)
    · rintro w lane job ok hw rfl answer _ _ ⟨rfl, rfl⟩ hbarrier
      -- running the barrier released the batch, if nothing did before
      have hout := outcome?_release p job.id (.completed job.sound) job.id
      rw [if_pos rfl] at hout
      simp only [Pool.answer, hbarrier]
      exact Option.isSome_of_eq_some hout
  ended := by
    intro w job answer hended hbarrier
    apply hs.isSome_outcome?
    rcases hs.ended_cases hended with hold | ⟨lane, hw⟩
    · exact h.ended hold hbarrier
    · exact h.ran _ (List.mem_of_getElem? hw) job answer rfl hbarrier

theorem Leads.answered {as : List (Action α π)} (h : pool.Leads as p) : p.Answered := by
  have hboth : Coherent p.held p.history ∧ p.Answered := by
    refine h.invariant (I := fun r => Coherent r.held r.history ∧ r.Answered) ?_ ?_
    · intro ls _
      rw [held_ofLanes]
      refine ⟨.empty, nofun, ?_, nofun⟩
      intro x hx job answer hran
      obtain ⟨lane, _, rfl⟩ := List.mem_map.mp hx
      cases hran
    · intro r a s _ hs hr
      exact ⟨hs.change.coherent hr.1, hs.answered hr.1 hr.2⟩
  exact hboth.2

theorem Reached.answered {as : List (Action α π)} (h : pool.Reached as p) : p.Answered :=
  h.leads.answered

/-- Where nobody abandons jobs, no batch is given up. -/
theorem Reached.exists_completed {as : List (Action α π)} (h : pool.Reached as p)
    (has : ∀ a ∈ as, ∀ call, a ≠ .abandon call) {id : JobId} {o : BatchOutcome}
    (hout : p.outcome? id = some o) : ∃ ok, o = .completed ok := by
  have hnever : p.outcome? id ≠ some .abandoned := by
    refine h.invariant (I := fun r => r.outcome? id ≠ some .abandoned) (fun _ _ => nofun) ?_
    intro r a s ha _ hs hr
    rcases hs.outcome?_cases id with hsame | ⟨_, _, _, _, _, hnew⟩ | ⟨⟨call, hcall⟩, _⟩
    · rwa [hsame]
    · rw [hnew]
      nofun
    · exact absurd hcall (has a ha call)
  cases o with
  | completed ok => exact ⟨ok, rfl⟩
  | abandoned => exact absurd hout hnever

end RenderPlan.Pool
