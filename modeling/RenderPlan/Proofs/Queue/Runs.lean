/-
# RenderPlan.Proofs.Queue.Runs -- runs from their beginning, and one identity on its way

`Reached` asks that no identity is issued twice. Much is true of every run from a new pool (`Leads`),
or of each identity that the run issues at most once, whatever it does with the others: such an
identity is pending, then in a worker's hand, then ended, and a call of `clear` is all that can take
it out on the way (`Change.mem_ids`).

`Leads.induction` is the induction over a run from its beginning. It hands every step the actions so
far. What the steps of a run show to an observer is listed by `along`.
-/
import RenderPlan.Proofs.Queue.Identities

namespace RenderPlan

variable {α β π : Type}

/-! ## Jobs in a history -/

namespace JobEvent

/-- The job that a worker took. -/
def begun? : JobEvent α π → Option (PendingJob α π)
  | began _ job => some job
  | _ => none

/-- The job that was reported done. -/
def ended? : JobEvent α π → Option (PendingJob α π)
  | ended _ job _ => some job
  | _ => none

end JobEvent

/-- The jobs that workers took, the latest first. -/
def jobsBegun (h : List (JobEvent α π)) : List (PendingJob α π) := h.filterMap JobEvent.begun?

/-- The jobs that were reported done, the latest first. -/
def jobsEnded (h : List (JobEvent α π)) : List (PendingJob α π) := h.filterMap JobEvent.ended?

section History

variable {h : List (JobEvent α π)} {job : PendingJob α π}

theorem mem_jobsBegun : job ∈ jobsBegun h ↔ ∃ w, .began w job ∈ h := by
  simp only [jobsBegun, List.mem_filterMap]
  constructor
  · rintro ⟨e, he, hjob⟩
    cases e with
    | began w k =>
        cases hjob
        exact ⟨w, he⟩
    | ended w k answer => cases hjob
    | abandoned k => cases hjob
  · rintro ⟨w, he⟩
    exact ⟨_, he, rfl⟩

theorem mem_jobsEnded : job ∈ jobsEnded h ↔ ∃ w answer, .ended w job answer ∈ h := by
  simp only [jobsEnded, List.mem_filterMap]
  constructor
  · rintro ⟨e, he, hjob⟩
    cases e with
    | ended w k answer =>
        cases hjob
        exact ⟨w, answer, he⟩
    | began w k => cases hjob
    | abandoned k => cases hjob
  · rintro ⟨w, answer, he⟩
    exact ⟨_, he, rfl⟩

theorem map_id_jobsEnded (h : List (JobEvent α π)) :
    (jobsEnded h).map (fun j => j.id) = endedIds h := by
  rw [jobsEnded, endedIds, List.map_filterMap]
  congr 1
  funext e
  cases e <;> rfl

end History

/-- Of two members that share a value, where the value occurs once, each is the other. -/
theorem eq_of_count_map_le_one [DecidableEq β] {l : List α} {f : α → β} {x y : α}
    (hcount : (l.map f).count (f x) ≤ 1) (hx : x ∈ l) (hy : y ∈ l) (hxy : f x = f y) : x = y := by
  obtain ⟨before, after, rfl⟩ := List.append_of_mem hx
  rw [List.map_append, List.map_cons, List.count_append, List.count_cons_self] at hcount
  rcases List.mem_append.mp hy with hy | hy
  · have hpos : 0 < (before.map f).count (f x) :=
      List.count_pos_iff.mpr (hxy ▸ List.mem_map_of_mem hy)
    omega
  · rcases List.mem_cons.mp hy with rfl | hy
    · rfl
    · have hpos : 0 < (after.map f).count (f x) :=
        List.count_pos_iff.mpr (hxy ▸ List.mem_map_of_mem hy)
      omega

namespace Action

theorem idsOf_append (as bs : List (Action α π)) : idsOf (as ++ bs) = idsOf as ++ idsOf bs :=
  List.flatMap_append

theorem idsOf_cons (a : Action α π) (as : List (Action α π)) : idsOf (a :: as) = a.ids ++ idsOf as :=
  List.flatMap_cons

/-- A part of a run issues an identity no more often than the run. -/
theorem count_of_prefix {done as : List (Action α π)} {a : Action α π} {i : JobId}
    (hpre : done ++ [a] <+: as) (hi : (idsOf as).count i ≤ 1) :
    (idsOf done).count i + a.ids.count i ≤ 1 := by
  obtain ⟨rest, rfl⟩ := hpre
  rw [idsOf_append, idsOf_append, idsOf_cons, List.count_append, List.count_append,
    List.count_append] at hi
  omega

end Action

namespace Pool

variable {p q pool : Pool α π} {a : Action α π} {as bs done : List (Action α π)} {i : JobId}

/-! ## One identity in one step -/

theorem count_ids (p : Pool α π) (i : JobId) :
    p.ids.count i =
      p.pendingIds.count i + p.heldIds.count i + (endedIds p.history).count i := by
  rw [ids, List.count_append, List.count_append]

/-- Who is pending was pending before, or came just now. -/
theorem Change.mem_pendingIds (h : p.Change a q) (hi : i ∈ q.pendingIds) :
    i ∈ p.pendingIds ∨ (i ∈ a.ids ∧ p.queue.running = true) := by
  unfold pendingIds at hi ⊢
  cases h with
  | quiet hpending => exact Or.inl (hpending ▸ hi)
  | accepted ha hpending hheld hhistory hr =>
      rw [hpending, List.map_append, map_id_stamp, List.mem_append] at hi
      rw [Action.ids, Action.jobs_of_submission? ha]
      exact hi.imp_right fun hi => ⟨hi, hr⟩
  | @began w job before after _ hpending hleft =>
      rw [hleft] at hi
      rw [hpending]
      exact Or.inl (((List.sublist_cons_self job after).append_left before).map _ |>.subset hi)
  | ended _ hpending =>
      rw [hpending, map_id_complete] at hi
      exact Or.inl ((List.filter_sublist.map _).subset hi)
  | cleared hpending =>
      rw [hpending] at hi
      cases hi

/-- What is submitted to a running queue is pending. -/
theorem Step.mem_pendingIds_of_mem_ids (hs : p.Step a q) (hr : p.queue.running = true)
    (hi : i ∈ a.ids) : i ∈ q.pendingIds := by
  cases hs with
  | submit ha _ _ =>
      rw [Action.ids, Action.jobs_of_submission? ha] at hi
      show i ∈ List.map _ (_ ++ _)
      rw [List.map_append, map_id_stamp]
      exact List.mem_append_right _ hi
  | refuse ha h =>
      rw [Action.ids, Action.jobs_of_submission? ha] at hi
      rcases h with rfl | hstopped
      · cases hi
      · rw [hr] at hstopped
        cases hstopped
  | _ => cases hi

/-- What a worker has in hand it had before, or it took the job just now. -/
theorem Change.mem_heldIds (h : p.Change a q) (hi : i ∈ q.heldIds) :
    i ∈ p.heldIds ∨ (i ∈ p.pendingIds ∧ p.queue.running = true) := by
  unfold heldIds at hi ⊢
  cases h with
  | quiet _ hheld => exact Or.inl ((hheld.map _).mem_iff.mp hi)
  | accepted _ _ hheld => exact Or.inl (hheld ▸ hi)
  | began _ hpending _ hheld _ hr =>
      rcases List.mem_cons.mp ((hheld.map _).mem_iff.mp hi) with rfl | hi
      · refine Or.inr ⟨?_, hr⟩
        rw [pendingIds, hpending, List.map_append, List.map_cons]
        exact List.mem_append_right _ (List.mem_cons_self ..)
      · exact Or.inl hi
  | ended hheld => exact Or.inl ((hheld.map _).mem_iff.mpr (List.mem_cons_of_mem _ hi))
  | cleared _ hheld => exact Or.inl (hheld ▸ hi)

/-- What has ended had ended before, or was in a worker's hand. -/
theorem Change.mem_endedIds (h : p.Change a q) (hi : i ∈ endedIds q.history) :
    i ∈ endedIds p.history ∨ i ∈ p.heldIds := by
  cases h with
  | quiet _ _ hhistory =>
      rcases hhistory with hhistory | ⟨job, hhistory⟩
      · exact Or.inl (hhistory ▸ hi)
      · rw [hhistory, endedIds_abandoned] at hi
        exact Or.inl hi
  | accepted _ _ _ hhistory => exact Or.inl (hhistory ▸ hi)
  | began _ _ _ _ hhistory =>
      rw [hhistory, endedIds_began] at hi
      exact Or.inl hi
  | ended hheld _ hhistory =>
      rw [hhistory, endedIds_ended] at hi
      rcases List.mem_cons.mp hi with rfl | hi
      · exact Or.inr (List.mem_map_of_mem (hheld.mem_iff.mpr (List.mem_cons_self ..)))
      · exact Or.inl hi
  | cleared _ _ hhistory => exact Or.inl (hhistory ▸ hi)

/-- Who is pending stays so until a worker takes the job or a call of `clear` takes it out; the
report of another job does nothing to it, where no other job has the identity. -/
theorem Change.of_mem_pendingIds (h : p.Change a q) (hcount : p.ids.count i ≤ 1)
    (hi : i ∈ p.pendingIds) :
    i ∈ q.pendingIds ∨ (i ∈ q.heldIds ∧ p.queue.running = true) ∨ a = .clear := by
  cases h with
  | quiet hpending =>
      rw [pendingIds, hpending]
      exact Or.inl hi
  | accepted _ hpending =>
      rw [pendingIds, hpending, List.map_append]
      exact Or.inl (List.mem_append_left _ hi)
  | @began w job before after _ hpending hleft hheld _ hr =>
      rw [pendingIds, hpending, List.map_append, List.map_cons] at hi
      rcases List.mem_append.mp hi with hi | hi
      · rw [pendingIds, hleft, List.map_append]
        exact Or.inl (List.mem_append_left _ hi)
      · rcases List.mem_cons.mp hi with rfl | hi
        · exact Or.inr (Or.inl
            ⟨List.mem_map_of_mem (hheld.mem_iff.mpr (List.mem_cons_self ..)), hr⟩)
        · rw [pendingIds, hleft, List.map_append]
          exact Or.inl (List.mem_append_right _ hi)
  | @ended w job answer hheld hpending _ =>
      -- the job that is reported is another one
      have hne : i ≠ job.id := by
        rintro rfl
        have hpos : 0 < p.heldIds.count job.id := List.count_pos_iff.mpr
          (List.mem_map_of_mem (hheld.mem_iff.mpr (List.mem_cons_self ..)))
        have hpos' : 0 < p.pendingIds.count job.id := List.count_pos_iff.mpr hi
        rw [count_ids] at hcount
        omega
      obtain ⟨k, hk, rfl⟩ := List.mem_map.mp hi
      rw [pendingIds, hpending, map_id_complete]
      exact Or.inl (List.mem_map_of_mem (List.mem_filter.mpr ⟨hk, decide_eq_true hne⟩))
  | cleared _ _ _ ha => exact Or.inr (Or.inr ha)

/-- What a worker has in hand stays there until it is reported done. -/
theorem Change.of_mem_heldIds (h : p.Change a q) (hi : i ∈ p.heldIds) :
    i ∈ q.heldIds ∨ i ∈ endedIds q.history := by
  unfold heldIds at hi ⊢
  cases h with
  | quiet _ hheld => exact Or.inl ((hheld.map _).mem_iff.mpr hi)
  | accepted _ _ hheld => exact Or.inl (hheld ▸ hi)
  | began _ _ _ hheld => exact Or.inl ((hheld.map _).mem_iff.mpr (List.mem_cons_of_mem _ hi))
  | ended hheld _ hhistory =>
      rw [hhistory, endedIds_ended]
      rcases List.mem_cons.mp ((hheld.map _).mem_iff.mp hi) with rfl | hi
      · exact Or.inr (List.mem_cons_self ..)
      · exact Or.inl hi
  | cleared _ hheld => exact Or.inl (hheld.symm ▸ hi)

/-- An identity of its own leaves the pool in a call of `clear` only. -/
theorem Change.mem_ids (h : p.Change a q) (hcount : p.ids.count i ≤ 1) (hi : i ∈ p.ids) :
    i ∈ q.ids ∨ (i ∈ p.pendingIds ∧ a = .clear) := by
  have hin : ∀ {r : Pool α π}, i ∈ r.pendingIds ∨ i ∈ r.heldIds ∨ i ∈ endedIds r.history → i ∈ r.ids := by
    intro r hr
    rw [ids, List.append_assoc, List.mem_append, List.mem_append]
    exact hr
  rw [ids, List.append_assoc, List.mem_append, List.mem_append] at hi
  rcases hi with hi | hi | hi
  · rcases h.of_mem_pendingIds hcount hi with hq | ⟨hq, _⟩ | ha
    · exact Or.inl (hin (Or.inl hq))
    · exact Or.inl (hin (Or.inr (Or.inl hq)))
    · exact Or.inr ⟨hi, ha⟩
  · exact Or.inl (hin (Or.inr (h.of_mem_heldIds hi)))
  · exact Or.inl (hin (Or.inr (Or.inr ((endedIds_suffix h.history_suffix).subset hi))))

/-- Who began is in a worker's hand or has ended, as often as it began. -/
theorem Change.perm_jobsBegun (h : p.Change a q)
    (hp : (jobsBegun p.history).Perm (p.held ++ jobsEnded p.history)) :
    (jobsBegun q.history).Perm (q.held ++ jobsEnded q.history) := by
  cases h with
  | quiet _ hheld hhistory =>
      have hsame : jobsBegun q.history = jobsBegun p.history ∧
          jobsEnded q.history = jobsEnded p.history := by
        rcases hhistory with hh | ⟨job, hh⟩ <;> rw [hh] <;> exact ⟨rfl, rfl⟩
      rw [hsame.1, hsame.2]
      exact hp.trans (hheld.symm.append_right _)
  | accepted _ _ hheld hhistory =>
      rw [hheld, hhistory]
      exact hp
  | @began w job before after _ _ _ hheld hhistory =>
      rw [hhistory]
      exact (hp.cons job).trans (hheld.symm.append_right _)
  | @ended w job answer hheld _ hhistory =>
      rw [hhistory]
      have hmove : (q.held ++ job :: jobsEnded p.history).Perm
          (job :: q.held ++ jobsEnded p.history) := List.perm_middle
      exact hp.trans ((hheld.append_right _).trans hmove.symm)
  | cleared _ hheld hhistory =>
      rw [hheld, hhistory]
      exact hp

/-! ## From a new pool on -/

/-- These actions lead from a new pool to `p`, whatever identities they use. -/
structure Leads (pool : Pool α π) (as : List (Action α π)) (p : Pool α π) : Prop where
  created : ∃ available o, create available o = .ok pool
  run : pool.run? as = some p

theorem Reached.leads (h : pool.Reached as p) : pool.Leads as p := ⟨h.created, h.run⟩

namespace Leads

theorem snoc (h : pool.Leads as p) (hs : p.Step a q) : pool.Leads (as ++ [a]) q := by
  refine ⟨h.created, ?_⟩
  rw [run?_append, h.run]
  simp only [Option.bind_some, run?, hs.step?_eq]

/-- **Induction over a run from some action on.** The step knows the actions before it. -/
theorem induction_after {I : List (Action α π) → Pool α π → Prop} {before after : List (Action α π)}
    (h : pool.Leads (before ++ after) p) (hbefore : ∀ {r}, pool.Leads before r → I before r)
    (hstep : ∀ {done a r s}, done ++ [a] <+: before ++ after → pool.Leads done r → r.Step a s →
      I done r → I (done ++ [a]) s) : I (before ++ after) p := by
  induction after generalizing before with
  | nil =>
      rw [List.append_nil] at h ⊢
      exact hbefore h
  | cons a after ih =>
      have hsplit : before ++ a :: after = before ++ [a] ++ after := by simp
      rw [hsplit] at h hstep ⊢
      refine ih h ?_ hstep
      intro s hs
      obtain ⟨r, hr, hrs⟩ := run?_append_eq_some hs.run
      obtain ⟨s', hs', hlast⟩ := run?_cons_eq_some hrs
      obtain rfl : s' = s := Option.some.inj hlast
      have hleads : pool.Leads before r := ⟨h.created, hr⟩
      exact hstep (List.prefix_append _ _) hleads hs' (hbefore hleads)

/-- Induction over a run from the step on that follows the pool `r`. -/
theorem induction_from {I : List (Action α π) → Pool α π → Prop} {before after : List (Action α π)}
    {r : Pool α π} (h : pool.Leads (before ++ a :: after) p) (hr : pool.run? before = some r)
    (hfirst : ∀ {s}, r.Step a s → I (before ++ [a]) s)
    (hstep : ∀ {done b s t}, done ++ [b] <+: before ++ a :: after → pool.Leads done s → s.Step b t →
      I done s → I (done ++ [b]) t) : I (before ++ a :: after) p := by
  have hsplit : before ++ a :: after = before ++ [a] ++ after := by simp
  rw [hsplit] at h hstep ⊢
  refine h.induction_after ?_ hstep
  intro s hs
  obtain ⟨r', hr', hrs⟩ := run?_append_eq_some hs.run
  obtain rfl : r = r' := Option.some.inj (hr.symm.trans hr')
  obtain ⟨s', hs', hlast⟩ := run?_cons_eq_some hrs
  obtain rfl : s' = s := Option.some.inj hlast
  exact hfirst hs'

/-- **Induction over a run from its beginning.** -/
theorem induction {I : List (Action α π) → Pool α π → Prop} (h : pool.Leads as p)
    (hnew : ∀ ls, 2 ≤ ls.length → I [] (ofLanes ls))
    (hstep : ∀ {done a r s}, done ++ [a] <+: as → pool.Leads done r → r.Step a s → I done r →
      I (done ++ [a]) s) : I as p := by
  refine (induction_after h ?_ hstep : I ([] ++ as) p)
  intro r hr
  obtain ⟨_, _, hcreate⟩ := hr.created
  obtain ⟨ls, hls, rfl⟩ := create_eq_ok hcreate
  obtain rfl : ofLanes ls = r := Option.some.inj hr.run
  exact hnew ls hls

/-- What holds of a new pool and is kept by the steps holds wherever a run leads. -/
theorem invariant {I : Pool α π → Prop} (h : pool.Leads as p)
    (hnew : ∀ ls, 2 ≤ ls.length → I (ofLanes ls))
    (hstep : ∀ {r a s}, a ∈ as → r.Step a s → I r → I s) : I p := by
  refine h.induction (I := fun _ r => I r) hnew ?_
  intro done a r s hpre _ hs hr
  exact hstep (hpre.subset (List.mem_append_right _ (List.mem_singleton_self a))) hs hr

/-- A pool holds nothing that was not issued. -/
theorem count_ids_le (h : pool.Leads as p) (i : JobId) :
    p.ids.count i ≤ (Action.idsOf as).count i := by
  refine h.induction (I := fun done r => r.ids.count i ≤ (Action.idsOf done).count i) ?_ ?_
  · intro ls _
    rw [ids_ofLanes]
    exact Nat.le_refl _
  · intro done a r s _ _ hs hr
    obtain ⟨dropped, hperm⟩ := hs.change.perm_ids
    have hcount := hperm.count_eq i
    rw [List.count_append, List.count_append] at hcount
    rw [Action.idsOf_append, Action.idsOf_cons, List.count_append, List.count_append]
    omega

theorem mem_idsOf (h : pool.Leads as p) (hi : i ∈ p.ids) : i ∈ Action.idsOf as :=
  List.count_pos_iff.mp (Nat.lt_of_lt_of_le (List.count_pos_iff.mpr hi) (h.count_ids_le i))

theorem perm_jobsBegun (h : pool.Leads as p) :
    (jobsBegun p.history).Perm (p.held ++ jobsEnded p.history) := by
  refine h.invariant (I := fun r => (jobsBegun r.history).Perm (r.held ++ jobsEnded r.history))
    ?_ fun _ hs => hs.change.perm_jobsBegun
  intro ls _
  rw [held_ofLanes]
  exact .refl _

/-- A job that began is in a worker's hand or has ended. -/
theorem mem_of_began (h : pool.Leads as p) {w : Nat} {job : PendingJob (Payload α) π}
    (hw : .began w job ∈ p.history) : job.id ∈ p.heldIds ∨ job.id ∈ endedIds p.history := by
  have hjob := h.perm_jobsBegun.mem_iff.mp (mem_jobsBegun.mpr ⟨w, hw⟩)
  rw [← map_id_jobsEnded]
  exact (List.mem_append.mp hjob).imp List.mem_map_of_mem List.mem_map_of_mem

end Leads

/-- Induction over a run whose identities are distinct. -/
theorem Reached.induction {I : List (Action α π) → Pool α π → Prop} (h : pool.Reached as p)
    (hnew : ∀ ls, 2 ≤ ls.length → I [] (ofLanes ls))
    (hstep : ∀ {done a r s}, pool.Reached done r → r.Step a s → I done r → I (done ++ [a]) s) :
    I as p := by
  refine h.leads.induction hnew ?_
  intro done a r s hpre hleads hs hr
  obtain ⟨rest, rfl⟩ := hpre
  have hdistinct := h.distinct
  rw [Action.idsOf_append, Action.idsOf_append] at hdistinct
  exact hstep ⟨hleads.created, hdistinct.of_append_left.of_append_left, hleads.run⟩ hs hr

/-! ## What a run shows -/

/-- What an observer notes down who sees each pool of a run with the action that is next. -/
def along (f : Pool α π → Action α π → List β) (p : Pool α π) : List (Action α π) → List β
  | [] => []
  | a :: as => f p a ++ match p.step? a with
    | some q => q.along f as
    | none => []

variable {f : Pool α π → Action α π → List β}

theorem along_append (hrun : p.run? as = some q) :
    p.along f (as ++ bs) = p.along f as ++ q.along f bs := by
  induction as generalizing p with
  | nil =>
      obtain rfl : p = q := Option.some.inj hrun
      rfl
  | cons a as ih =>
      obtain ⟨r, hr, hq⟩ := run?_cons_eq_some hrun
      simp only [List.cons_append, along, hr.step?_eq, ih hq, List.append_assoc]

theorem along_snoc (hrun : p.run? as = some q) :
    p.along f (as ++ [a]) = p.along f as ++ f q a := by
  rw [along_append hrun, along]
  cases q.step? a <;> simp [along]

end Pool

end RenderPlan
