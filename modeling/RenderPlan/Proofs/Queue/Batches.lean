/-
# RenderPlan.Proofs.Queue.Batches -- batches keep to themselves

A batch whose dependencies stay inside it sees nothing of the rest of the pool. That follows from one
property of the history (`Honours`): when a job of the batch begins, its dependencies have ended, and
it is sound exactly if none of them failed.

From it, by induction on the history, a job failed exactly if it, or a job that a chain of
dependencies leads to, said no (`Honours.failed_iff`). And if the answers of jobs are functions of
what they are told, then a failure in one history is a failure in every other one
(`Honours.sound_eq`). Neither mentions workers, other batches, or an order beyond that of
dependencies.
-/
import RenderPlan.Proofs.Queue.Dispatch
import RenderPlan.Proofs.Queue.Outcomes
import Mathlib.Logic.Relation

namespace RenderPlan

open Relation (TransGen ReflTransGen)

variable {α β π : Type}

/-! ## Chains of dependencies -/

/-- A job of the batch waits directly for another one. -/
def DependsIn (batch : List (Job β)) (i d : JobId) : Prop := ∃ j ∈ batch, j.id = i ∧ d ∈ j.deps

/-- The dependencies of the batch stay inside it. -/
def Closed (batch : List (Job β)) : Prop := ∀ j ∈ batch, ∀ d ∈ j.deps, d ∈ batch.map Job.id

instance (batch : List (Job β)) : Decidable (Closed batch) :=
  inferInstanceAs (Decidable (∀ j ∈ batch, ∀ d ∈ j.deps, d ∈ batch.map Job.id))

/-- The history of a pool keeps what the batch asks for. -/
structure Honours (batch : List (Job β)) (h : List (JobEvent α π)) : Prop where
  closed : Closed batch
  nodup : (endedIds h).Nodup
  ended_began : ∀ {w job answer earlier}, .ended w job answer :: earlier <:+ h →
    ∃ w', .began w' job ∈ earlier
  began : ∀ {w job earlier}, .began w job :: earlier <:+ h → ∀ j ∈ batch, job.id = j.id →
    (∀ d ∈ j.deps, d ∈ endedIds earlier) ∧
      (job.sound = true ↔ ∀ d ∈ j.deps, d ∉ failedIds earlier)

/-- The jobs of the batch answer by this function of whether they are sound. -/
def AnswersBy (batch : List (Job β)) (f : JobId → Bool → Bool) (h : List (JobEvent α π)) : Prop :=
  ∀ w job answer, .ended w job answer ∈ h → job.id ∈ batch.map Job.id →
    answer = f job.id job.sound

namespace Honours

variable {batch : List (Job β)} {h earlier : List (JobEvent α π)} {w : Nat}
  {job : PendingJob α π} {i d : JobId}

/-- What a history keeps, it has kept at every time before. -/
theorem suffix (H : Honours batch h) (hs : earlier <:+ h) : Honours batch earlier where
  closed := H.closed
  nodup := H.nodup.sublist (endedIds_suffix hs).sublist
  ended_began hs' := H.ended_began (hs'.trans hs)
  began hs' := H.began (hs'.trans hs)

/-- What has ended began before. -/
theorem exists_began (H : Honours batch h) (hended : i ∈ endedIds h) :
    ∃ w job answer w' earlier, .ended w job answer ∈ h ∧ job.id = i ∧
      .began w' job :: earlier <:+ h := by
  obtain ⟨w, job, answer, he, hid⟩ := mem_endedIds.mp hended
  obtain ⟨before, hbefore⟩ := exists_suffix_of_mem he
  obtain ⟨w', hbegan⟩ := H.ended_began hbefore
  obtain ⟨earlier, hearlier⟩ := exists_suffix_of_mem hbegan
  exact ⟨w, job, answer, w', earlier, he, hid, hearlier.trans (suffix_of_cons_suffix hbefore)⟩

/-- When a job begins, everything that a chain of dependencies leads to has ended. -/
theorem ended_of_transGen (H : Honours batch h) (hs : .began w job :: earlier <:+ h)
    (hd : TransGen (DependsIn batch) job.id d) : d ∈ endedIds earlier := by
  induction hd with
  | single hdep =>
      obtain ⟨j, hj, hid, hdeps⟩ := hdep
      exact (H.began hs j hj hid.symm).1 _ hdeps
  | tail _ hdep ih =>
      -- the job in the middle has ended, so it began before, and then the last one had ended
      obtain ⟨j, hj, rfl, hdeps⟩ := hdep
      have Hearlier := H.suffix (suffix_of_cons_suffix hs)
      obtain ⟨_, job', _, _, before, _, hid, hbegan⟩ := Hearlier.exists_began ih
      have hended := (Hearlier.began hbegan j hj hid).1 _ hdeps
      exact (endedIds_suffix (suffix_of_cons_suffix hbegan)).subset hended

/-- Jobs end in an order that dependencies allow: none ends before one that it waits for. -/
theorem pairwise_endedIds (H : Honours batch h) :
    (endedIds h).Pairwise fun late early => ¬ TransGen (DependsIn batch) early late := by
  induction h with
  | nil => exact List.Pairwise.nil
  | cons x h ih =>
      have hrest := ih (H.suffix (List.suffix_cons x h))
      cases x with
      | began w job => exact hrest
      | abandoned job => exact hrest
      | ended w job answer =>
          refine List.pairwise_cons.mpr ⟨fun early hearly hchain => ?_, hrest⟩
          -- otherwise this job would have ended before
          obtain ⟨_, k, _, _, earlier, _, rfl, hbegan⟩ :=
            (H.suffix (List.suffix_cons _ h)).exists_began hearly
          have hended : job.id ∈ endedIds earlier :=
            H.ended_of_transGen (hbegan.trans (List.suffix_cons _ h)) hchain
          have hnodup : (job.id :: endedIds h).Nodup := H.nodup
          have hmem := (endedIds_suffix (suffix_of_cons_suffix hbegan)).subset hended
          exact (List.nodup_cons.mp hnodup).1 hmem

/-- Where failures come down to jobs that said no, a job is unsound exactly if a chain of
dependencies leads to one of those. -/
theorem sound_eq_false_iff_of (H : Honours batch h) (hs : .began w job :: earlier <:+ h)
    (hj : job.id ∈ batch.map Job.id)
    (hfailed : ∀ i ∈ batch.map Job.id, i ∈ endedIds earlier → (i ∈ failedIds earlier ↔
      ∃ d, ReflTransGen (DependsIn batch) i d ∧ d ∈ brokenIds earlier)) :
    job.sound = false ↔ ∃ d, TransGen (DependsIn batch) job.id d ∧ d ∈ brokenIds earlier := by
  obtain ⟨j, hj, hid⟩ := List.mem_map.mp hj
  constructor
  · intro hunsound
    obtain ⟨hdeps, hsound⟩ := H.began hs j hj hid.symm
    rw [hunsound] at hsound
    have hsome : ¬ ∀ d ∈ j.deps, d ∉ failedIds earlier := fun hall => by cases hsound.mpr hall
    push Not at hsome
    obtain ⟨i, hi, hf⟩ := hsome
    obtain ⟨d, hid', hd⟩ := (hfailed i (H.closed j hj i hi) (hdeps i hi)).mp hf
    exact ⟨d, TransGen.head' ⟨j, hj, hid, hi⟩ hid', hd⟩
  · rintro ⟨d, hchain, hd⟩
    obtain ⟨i, ⟨j', hj', hid', hi⟩, hreach⟩ := TransGen.head'_iff.mp hchain
    obtain ⟨hdeps, hsound⟩ := H.began hs j' hj' hid'.symm
    rw [← Bool.not_eq_true, hsound]
    intro hall
    exact hall i hi ((hfailed i (H.closed j' hj' i hi) (hdeps i hi)).mpr ⟨d, hreach, hd⟩)

/-- **Failures come down to jobs that said no.** A job of the batch that has ended has failed exactly
if it, or a job that a chain of dependencies leads to, said no. The induction is on the history: what
the job waited for had ended before it began. -/
theorem failed_iff (H : Honours batch h) (hi : i ∈ batch.map Job.id) (hended : i ∈ endedIds h) :
    i ∈ failedIds h ↔ ∃ d, ReflTransGen (DependsIn batch) i d ∧ d ∈ brokenIds h := by
  obtain ⟨n, hn⟩ : ∃ n, h.length = n := ⟨_, rfl⟩
  induction n using Nat.strongRecOn generalizing h i with
  | _ n ih =>
    obtain ⟨w, job, answer, w', earlier, he, rfl, hbegan⟩ := H.exists_began hended
    -- the history before the job began is shorter, and tells of all that it waited for
    have hearlier : earlier <:+ h := suffix_of_cons_suffix hbegan
    have hlt : earlier.length < n := hn ▸ hbegan.length_le
    have hsound := H.sound_eq_false_iff_of hbegan hi fun i hi hended =>
      ih _ hlt (H.suffix hearlier) hi hended rfl
    rw [mem_failedIds_iff H.nodup he, Bool.and_eq_false_iff, hsound, or_comm]
    constructor
    · rintro (hno | ⟨d, hchain, hd⟩)
      · exact ⟨job.id, .refl, (mem_brokenIds_iff H.nodup he).mpr hno⟩
      · exact ⟨d, hchain.to_reflTransGen, (hearlier.filterMap _).subset hd⟩
    · rintro ⟨d, hreach, hd⟩
      rcases Relation.reflTransGen_iff_eq_or_transGen.mp hreach with rfl | hchain
      · exact Or.inl ((mem_brokenIds_iff H.nodup he).mp hd)
      · have hdearlier := H.ended_of_transGen hbegan hchain
        exact Or.inr ⟨d, hchain, (mem_brokenIds_of_suffix H.nodup hearlier hdearlier).mpr hd⟩

/-- A job of the batch is unsound exactly if a chain of dependencies leads to a job that said no. -/
theorem sound_eq_false_iff (H : Honours batch h) (hs : .began w job :: earlier <:+ h)
    (hj : job.id ∈ batch.map Job.id) :
    job.sound = false ↔ ∃ d, TransGen (DependsIn batch) job.id d ∧ d ∈ brokenIds earlier :=
  H.sound_eq_false_iff_of hs hj fun _ hi hended =>
    (H.suffix (suffix_of_cons_suffix hs)).failed_iff hi hended

/-! ## Two histories of one batch -/

variable {h' : List (JobEvent α π)} {f : JobId → Bool → Bool}

/-- **A job is told the same in both histories.** -/
theorem sound_eq (H : Honours batch h) (H' : Honours batch h') (hf : AnswersBy batch f h)
    (hf' : AnswersBy batch f h') {w' : Nat} {job' : PendingJob α π}
    {earlier' : List (JobEvent α π)} (hs : .began w job :: earlier <:+ h)
    (hs' : .began w' job' :: earlier' <:+ h') (hj : job.id ∈ batch.map Job.id)
    (hid : job.id = job'.id) : job.sound = job'.sound := by
  obtain ⟨n, hn⟩ : ∃ n, earlier.length = n := ⟨_, rfl⟩
  induction n using Nat.strongRecOn generalizing w job earlier w' job' earlier' with
  | _ n ih =>
    obtain ⟨j, hmem, hjid⟩ := List.mem_map.mp hj
    obtain ⟨hdeps, hsound⟩ := H.began hs j hmem hjid.symm
    obtain ⟨hdeps', hsound'⟩ := H'.began hs' j hmem (hid ▸ hjid.symm)
    have hse : earlier <:+ h := suffix_of_cons_suffix hs
    have hse' : earlier' <:+ h' := suffix_of_cons_suffix hs'
    -- a dependency was told the same, so it answered the same
    have hsame : ∀ d ∈ j.deps, d ∈ failedIds earlier ↔ d ∈ failedIds earlier' := by
      intro d hd
      have hdbatch : d ∈ batch.map Job.id := H.closed j hmem d hd
      obtain ⟨v, k, answer, _, before, he, rfl, hb⟩ := (H.suffix hse).exists_began (hdeps d hd)
      obtain ⟨v', k', answer', _, before', he', hkid, hb'⟩ :=
        (H'.suffix hse').exists_began (hdeps' _ hd)
      have hlt : before.length < n := hn ▸ hb.length_le
      have hk : k.sound = k'.sound :=
        ih _ hlt (hb.trans hse) (hb'.trans hse') hdbatch hkid.symm rfl
      have hanswer : answer = answer' := by
        rw [hf v k answer (hse.subset he) hdbatch,
          hf' v' k' answer' (hse'.subset he') (hkid ▸ hdbatch), hk, hkid]
      rw [mem_failedIds_iff (H.suffix hse).nodup he, ← hkid,
        mem_failedIds_iff (H'.suffix hse').nodup he', hk, hanswer]
    rw [Bool.eq_iff_iff, hsound, hsound']
    exact forall₂_congr fun d hd => not_congr (hsame d hd)

/-- A job that has ended in both histories said the same. -/
theorem broken_iff (H : Honours batch h) (H' : Honours batch h') (hf : AnswersBy batch f h)
    (hf' : AnswersBy batch f h') (hi : i ∈ batch.map Job.id) (hended : i ∈ endedIds h)
    (hended' : i ∈ endedIds h') : i ∈ brokenIds h ↔ i ∈ brokenIds h' := by
  obtain ⟨w, job, answer, _, _, he, rfl, hb⟩ := H.exists_began hended
  obtain ⟨w', job', answer', _, _, he', hid, hb'⟩ := H'.exists_began hended'
  have hsound := H.sound_eq H' hf hf' hb hb' hi hid.symm
  rw [mem_brokenIds_iff H.nodup he, ← hid, mem_brokenIds_iff H'.nodup he',
    hf w job answer he hi, hf' w' job' answer' he' (hid ▸ hi), hsound, hid]

end Honours

/-- A closed batch cannot be left along dependencies. -/
theorem Closed.mem_of_reflTransGen {batch : List (Job β)} (hclosed : Closed batch) {i d : JobId}
    (hi : i ∈ batch.map Job.id) (hreach : ReflTransGen (DependsIn batch) i d) :
    d ∈ batch.map Job.id := by
  induction hreach with
  | refl => exact hi
  | tail _ hdep _ =>
      obtain ⟨j, hj, _, hd⟩ := hdep
      exact hclosed j hj _ hd

namespace Pool

variable {p q pool : Pool α π}

/-! ## Batches of a pool -/

theorem ids_runBatch (batch : List (Job α)) (barrier : JobId) :
    (batch.map workJob ++ [barrierJob barrier batch]).map Job.id = batch.map Job.id ++ [barrier] := by
  rw [List.map_append, List.map_map]
  rfl

namespace Reached

variable {before after : List (Action α π)} {batch : List (Job α)} {params : π} {barrier : JobId}
  {w : Nat} {job : PendingJob (Payload α) π} {earlier : List (JobEvent (Payload α) π)}

/-- Whatever else goes on in a pool, it keeps what a closed batch asks for. -/
theorem honours (h : pool.Reached (before ++ .runBatch batch params barrier :: after) q)
    (hclosed : Closed batch) : Honours batch q.history where
  closed := hclosed
  nodup := h.nodup_ids.of_append_right
  ended_began := h.coherent.ended_began
  began hs j hj hid := by
    refine h.began_iff_of_inside rfl (j := workJob j)
      (List.mem_append_left _ (List.mem_map_of_mem hj)) ?_ hs hid
    intro d hd
    rw [ids_runBatch]
    exact List.mem_append_left _ (hclosed j hj d hd)

/-- The barrier begins behind the whole batch, and is sound if nothing in it failed. -/
theorem barrier_began (h : pool.Reached (before ++ .runBatch batch params barrier :: after) q)
    (hs : .began w job :: earlier <:+ q.history) (hid : job.id = barrier) :
    (∀ j ∈ batch, j.id ∈ endedIds earlier) ∧
      (job.sound = true ↔ ∀ j ∈ batch, j.id ∉ failedIds earlier) := by
  obtain ⟨hended, hsound⟩ := h.began_iff_of_inside rfl (j := barrierJob barrier batch)
    (List.mem_append_right _ (List.mem_singleton_self _))
    (fun d hd => by rw [ids_runBatch]; exact List.mem_append_left _ hd) hs hid
  refine ⟨fun j hj => hended _ (List.mem_map_of_mem hj), hsound.trans ?_⟩
  exact List.forall_mem_map

/-- An answered batch has ended, and the answer tells whether a job of it said no. -/
theorem completed_iff (h : pool.Reached (before ++ .runBatch batch params barrier :: after) q)
    (hclosed : Closed batch) {ok : Bool} (hout : q.outcome? barrier = some (.completed ok)) :
    (∀ j ∈ batch, j.id ∈ endedIds q.history) ∧
      (ok = true ↔ ∀ j ∈ batch, j.id ∉ brokenIds q.history) := by
  obtain ⟨w, job, hbegan, hid, rfl⟩ := h.answered.completed hout
  obtain ⟨earlier, hs⟩ := exists_suffix_of_mem hbegan
  obtain ⟨hended, hsound⟩ := h.barrier_began hs hid
  have hse : earlier <:+ q.history := suffix_of_cons_suffix hs
  have H := h.honours hclosed
  refine ⟨fun j hj => (endedIds_suffix hse).subset (hended j hj), hsound.trans ?_⟩
  constructor
  · intro hall j hj hbroken
    refine hall j hj (failedIds_of_brokenIds ?_)
    exact (mem_brokenIds_of_suffix H.nodup hse (hended j hj)).mpr hbroken
  · -- a failure comes down to a job of the batch that said no
    intro hall j hj hfailed
    have hjid : j.id ∈ batch.map Job.id := List.mem_map_of_mem hj
    obtain ⟨d, hreach, hbroken⟩ := ((H.suffix hse).failed_iff hjid (hended j hj)).mp hfailed
    obtain ⟨k, hk, rfl⟩ := List.mem_map.mp (hclosed.mem_of_reflTransGen hjid hreach)
    exact hall k hk ((hse.filterMap _).subset hbroken)

end Reached

end Pool

/-- Nobody stops or clears the queue, and a batch that somebody waits for keeps its dependencies
inside. -/
def Action.IsCalm : Action α π → Prop
  | enqueue _ _ => True
  | runBatch batch _ _ => Closed batch
  | check _ => True
  | run _ _ => True
  | report _ => True
  | wake _ => True
  | _ => False

/-- If this is the report of a job of the batch, the job answered by this function of its parameters
and of whether all that it waited for succeeded. -/
def JobEvent.Follows (v : JobId → π → Bool → Bool) (batch : List (Job β)) : JobEvent α π → Prop
  | ended _ job answer => job.id ∈ batch.map Job.id → answer = v job.id job.params job.sound
  | _ => True

instance (v : JobId → π → Bool → Bool) (batch : List (Job β)) (e : JobEvent α π) :
    Decidable (e.Follows v batch) :=
  match e with
  | .ended _ _ _ => inferInstanceAs (Decidable (_ → _))
  | .began _ _ => inferInstanceAs (Decidable True)
  | .abandoned _ => inferInstanceAs (Decidable True)

/-- The jobs of the batch answer by this function. -/
def Follows (v : JobId → π → Bool → Bool) (batch : List (Job β)) (h : List (JobEvent α π)) : Prop :=
  ∀ e ∈ h, e.Follows v batch

namespace Pool

/-- The job has run, and was reported or is about to be. -/
def HasRun (p : Pool α π) (id : JobId) : Prop :=
  (∃ x ∈ p.workers, ∃ job answer, x.activity = .ran job answer ∧ job.id = id) ∨
    id ∈ endedIds p.history

/-- What a client that runs a batch can rely on. -/
structure Settles (q : Pool α π) (batch : List (Job α)) (barrier : JobId) : Prop where
  /-- A job begins behind its dependencies, and is told that something failed exactly if a job that
  it depends on, directly or through others, said no. -/
  began : ∀ j ∈ batch, ∀ w job earlier, .began w job :: earlier <:+ q.history → job.id = j.id →
    (∀ d ∈ j.deps, d ∈ endedIds earlier) ∧
      (job.sound = false ↔
        ∃ d, TransGen (DependsIn batch) j.id d ∧ d ∈ brokenIds earlier)
  /-- The barrier begins behind the batch. -/
  behind : ∀ w job earlier, .began w job :: earlier <:+ q.history → job.id = barrier →
    ∀ j ∈ batch, j.id ∈ endedIds earlier
  /-- When the barrier has run there is an answer. -/
  answered : q.HasRun barrier → (q.outcome? barrier).isSome
  /-- An answer comes when the batch has ended, and says whether one of its own jobs said no. -/
  outcome : ∀ o, q.outcome? barrier = some o → ∃ ok, o = .completed ok ∧
    (∀ j ∈ batch, j.id ∈ endedIds q.history) ∧
      (ok = true ↔ ∀ j ∈ batch, j.id ∉ brokenIds q.history)

/-- Two pools told the jobs of the batch the same, and answered the batch the same. -/
structure Agrees (q q' : Pool α π) (batch : List (Job α)) (barrier : JobId) : Prop where
  sound : ∀ j ∈ batch, ∀ w job w' job', .began w job ∈ q.history → .began w' job' ∈ q'.history →
    job.id = j.id → job'.id = j.id → job.sound = job'.sound
  outcome : ∀ o o', q.outcome? barrier = some o → q'.outcome? barrier = some o' → o = o'

variable {as as' : List (Action α π)} {pool q pool' q' : Pool α π} {batch : List (Job α)} {params : π}
  {barrier : JobId}

/-- A barrier that has run has answered its batch. -/
theorem Reached.isSome_outcome? {before after : List (Action α π)}
    (h : pool.Reached (before ++ .runBatch batch params barrier :: after) q)
    (hrun : q.HasRun barrier) : (q.outcome? barrier).isSome := by
  have hpayload : ∀ {w job}, .began w job ∈ q.history → job.id = barrier →
      job.payload = .barrier := fun hs hid =>
    (h.began_fields rfl (j := barrierJob barrier batch)
      (List.mem_append_right _ (List.mem_singleton_self _)) hs hid).1
  rcases hrun with ⟨x, hx, job, answer, hran, rfl⟩ | hended
  · have hheld : job ∈ q.held :=
      List.mem_filterMap.mpr ⟨x, hx, by rw [Worker.job?, hran]; rfl⟩
    obtain ⟨w, hs⟩ := h.coherent.held_began job hheld
    exact h.answered.ran x hx job answer hran (hpayload hs rfl)
  · obtain ⟨w, job, answer, he, rfl⟩ := mem_endedIds.mp hended
    obtain ⟨w', hs⟩ := h.coherent.began_of_ended he
    exact h.answered.ended he (hpayload hs rfl)

/-- In a pool all jobs of a batch have the parameters of the submission. -/
theorem Reached.answersBy {before after : List (Action α π)} {v : JobId → π → Bool → Bool}
    (h : pool.Reached (before ++ .runBatch batch params barrier :: after) q)
    (hv : Follows v batch q.history) :
    AnswersBy batch (fun i => v i params) q.history := by
  intro w job answer he hid
  obtain ⟨j, hj, hjid⟩ := List.mem_map.mp hid
  obtain ⟨w', hs⟩ := h.coherent.began_of_ended he
  obtain ⟨_, hparams⟩ := h.began_fields rfl (j := workJob j)
    (List.mem_append_left _ (List.mem_map_of_mem hj)) hs hjid.symm
  rw [hv _ he hid, hparams]

theorem Reached.settles (h : pool.Reached as q) (hcalm : ∀ a ∈ as, a.IsCalm)
    (hb : .runBatch batch params barrier ∈ as) : q.Settles batch barrier := by
  have hclosed : Closed batch := hcalm _ hb
  have hcompleted : ∀ o, q.outcome? barrier = some o → ∃ ok, o = .completed ok := fun o =>
    h.exists_completed fun a ha call heq => by
      have hfalse := hcalm a ha
      rwa [heq] at hfalse
  obtain ⟨before, after, rfl⟩ := List.append_of_mem hb
  have H := h.honours hclosed
  refine ⟨?_, fun w job earlier hs hid => (h.barrier_began hs hid).1, ?_, ?_⟩
  · intro j hj w job earlier hs hid
    refine ⟨(H.began hs j hj hid).1, ?_⟩
    rw [← hid]
    exact H.sound_eq_false_iff hs (hid ▸ List.mem_map_of_mem hj)
  · exact h.isSome_outcome?
  · intro o hout
    obtain ⟨ok, rfl⟩ := hcompleted o hout
    exact ⟨ok, rfl, h.completed_iff hclosed hout⟩

/-- Two runs with the same batch, whatever else they do, agree on it. -/
theorem Reached.agrees (h : pool.Reached as q) (hcalm : ∀ a ∈ as, a.IsCalm)
    (hb : .runBatch batch params barrier ∈ as) (h' : pool'.Reached as' q')
    (hcalm' : ∀ a ∈ as', a.IsCalm) (hb' : .runBatch batch params barrier ∈ as')
    {v : JobId → π → Bool → Bool} (hv : Follows v batch q.history)
    (hv' : Follows v batch q'.history) : q.Agrees q' batch barrier := by
  have hclosed : Closed batch := hcalm _ hb
  have hout := (h.settles hcalm hb).outcome
  have hout' := (h'.settles hcalm' hb').outcome
  obtain ⟨before, after, rfl⟩ := List.append_of_mem hb
  obtain ⟨before', after', rfl⟩ := List.append_of_mem hb'
  have H := h.honours hclosed
  have H' := h'.honours hclosed
  have hf := h.answersBy hv
  have hf' := h'.answersBy hv'
  refine ⟨?_, ?_⟩
  · intro j hj w job w' job' hbegan hbegan' hid hid'
    obtain ⟨earlier, hs⟩ := exists_suffix_of_mem hbegan
    obtain ⟨earlier', hs'⟩ := exists_suffix_of_mem hbegan'
    exact H.sound_eq H' hf hf' hs hs' (hid ▸ List.mem_map_of_mem hj) (hid.trans hid'.symm)
  · intro o o' ho ho'
    obtain ⟨ok, rfl, hended, hok⟩ := hout o ho
    obtain ⟨ok', rfl, hended', hok'⟩ := hout' o' ho'
    have hsame : ok = ok' := by
      rw [Bool.eq_iff_iff, hok, hok']
      refine forall₂_congr fun j hj => not_congr ?_
      exact H.broken_iff H' hf hf' (List.mem_map_of_mem hj) (hended j hj) (hended' j hj)
    rw [hsame]

/-- **Batches are isolated.** Clients run any number of closed batches on one pool, in any order of
their calls and of what the workers do. For each of the batches: a job begins behind its dependencies
and is told of exactly the failures that a chain of dependencies leads to; the barrier begins behind
the batch; and the answer is `true` if and only if no job of this batch said no. If the answers of
its jobs are a function of what they are told, then any other run with this batch, whatever else it
does, tells its jobs the same and answers it the same. -/
theorem batch_isolated (h : pool.Reached as q) (hcalm : ∀ a ∈ as, a.IsCalm)
    (hb : .runBatch batch params barrier ∈ as) :
    q.Settles batch barrier ∧
      ∀ (v : JobId → π → Bool → Bool) (pool' : Pool α π) (as' : List (Action α π))
        (q' : Pool α π), pool'.Reached as' q' → (∀ a ∈ as', a.IsCalm) →
        .runBatch batch params barrier ∈ as' → Follows v batch q.history →
        Follows v batch q'.history → q.Agrees q' batch barrier := by
  refine ⟨h.settles hcalm hb, ?_⟩
  intro v pool' as' q' h' hcalm' hb' hv hv'
  exact h.agrees hcalm hb h' hcalm' hb' hv hv'

/-! ### Two schedules of one batch

The first job says no, and the second one waits for it. Once the batch has the pool for itself, and
once another batch comes first and its job says no as well. -/

/-- A job, and another one that waits for it. -/
def couple : List (Job Unit) := [unitJob 0 none, unitJob 1 (some 0)]

/-- The batch alone, on both workers. -/
def coupleAlone : List (Action Unit Unit) :=
  [.runBatch couple () ⟨2⟩, .check 0, .run 0 false, .report 0, .check 1, .run 1 true, .report 1,
    .check 0, .run 0 true, .report 0]

/-- The first worker does the batch and the second one does another. -/
def coupleBesideOther : List (Action Unit Unit) :=
  [.runBatch [unitJob 3 none] () ⟨4⟩, .runBatch couple () ⟨2⟩, .check 1, .check 0, .run 0 false,
    .run 1 false, .report 0, .report 1, .check 0, .run 0 true, .report 0, .check 1, .run 1 true,
    .report 1, .check 0, .run 0 true]

theorem batch_isolated_couple : ∃ q q', pair.Reached coupleAlone q ∧
    pair.Reached coupleBesideOther q' ∧ q.Settles couple ⟨2⟩ ∧ q.Agrees q' couple ⟨2⟩ ∧
    q.outcome? ⟨2⟩ = some (.completed false) ∧ q'.outcome? ⟨2⟩ = some (.completed false) := by
  have hq : pair.Reached coupleAlone _ := ⟨exists_create_pair, by decide, rfl⟩
  have hq' : pair.Reached coupleBesideOther _ := ⟨exists_create_pair, by decide, rfl⟩
  have hclosed : Closed couple := by decide
  have hother : Closed [unitJob 3 none] := by decide
  have hcalm : ∀ a ∈ coupleAlone, a.IsCalm := by simp [coupleAlone, Action.IsCalm, hclosed]
  have hcalm' : ∀ a ∈ coupleBesideOther, a.IsCalm := by
    simp [coupleBesideOther, Action.IsCalm, hclosed, hother]
  obtain ⟨hsettles, hagrees⟩ := batch_isolated hq hcalm (List.mem_cons_self ..)
  refine ⟨_, _, hq, hq', hsettles, ?_, rfl, rfl⟩
  exact hagrees (fun i _ _ => decide (i ≠ ⟨0⟩)) pair _ _ hq' hcalm'
    (List.mem_cons_of_mem _ (List.mem_cons_self ..)) (by unfold Follows; decide)
    (by unfold Follows; decide)

end Pool

end RenderPlan
