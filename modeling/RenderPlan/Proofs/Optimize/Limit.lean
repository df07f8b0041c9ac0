/-
# RenderPlan.Proofs.Optimize.Limit -- the limit on visits

Visits are bounded by a limit so that they are functions at all. The limit is no part of what an
optimization is meant to do, so statements about optimizations that return should not depend on it,
and they need not: where the limit is not reached, a larger one changes nothing. That holds of
visits (`Visit.refines_visit`), and of whole optimizations (`Setup.optimize_withLimit`).

For the second one it is used that an optimization is determined by where it begins
(`Sweep.Move.right_unique`): it suffices that the path of moves under the smaller limit is one under
the larger limit as well.
-/
import RenderPlan.Proofs.Optimize.Moves

namespace RenderPlan

variable {σ : Type}

/-! ## Parts of an optimization -/

namespace Work

variable {α β : Type}

/-- The part does not run into the limit on visits. -/
def Ends (m : Work σ α) (w : Workspace σ) : Prop := (m.outcome w).1 ≠ .error .visitLimit

theorem ends_pure (a : α) (w : Workspace σ) : (pure a : Work σ α).Ends w := nofun

theorem Ends.bind {m : Work σ α} {f : α → Work σ β} {w : Workspace σ} (hm : m.Ends w)
    (hf : ∀ a w', m.outcome w = (.ok a, w') → (f a).Ends w') : (m >>= f).Ends w := by
  unfold Ends at hm ⊢
  rw [outcome_bind]
  rcases houtcome : m.outcome w with ⟨stop | a, w'⟩
  · rw [houtcome] at hm
    rintro ⟨rfl⟩
    exact hm rfl
  · exact hf a w' houtcome

theorem Ends.of_bind {m : Work σ α} {f : α → Work σ β} {w : Workspace σ} (h : (m >>= f).Ends w) :
    m.Ends w ∧ ∀ a w', m.outcome w = (.ok a, w') → (f a).Ends w' := by
  unfold Ends at h ⊢
  rw [outcome_bind] at h
  rcases houtcome : m.outcome w with ⟨stop | a, w'⟩
  · rw [houtcome] at h
    refine ⟨?_, nofun⟩
    rintro ⟨rfl⟩
    exact h rfl
  · rw [houtcome] at h
    refine ⟨nofun, ?_⟩
    rintro _ _ ⟨⟩
    exact h

/-- The second part does what the first one does wherever the first one does not run into the limit.
-/
def Refines (m m' : Work σ α) : Prop := ∀ w, m.Ends w → m'.outcome w = m.outcome w

theorem Refines.refl (m : Work σ α) : m.Refines m := fun _ _ => rfl

theorem refines_throw (m : Work σ α) : (throw .visitLimit : Work σ α).Refines m :=
  fun _ h => absurd rfl h

theorem Refines.ends {m m' : Work σ α} {w : Workspace σ} (h : m.Refines m') (hm : m.Ends w) :
    m'.Ends w := by
  unfold Ends
  rw [h w hm]
  exact hm

theorem Refines.bind {m m' : Work σ α} {f f' : α → Work σ β} (hm : m.Refines m')
    (hf : ∀ a, (f a).Refines (f' a)) : (m >>= f).Refines (m' >>= f') := by
  intro w h
  unfold Ends at h
  rw [outcome_bind] at h ⊢
  rw [outcome_bind]
  have hfirst := hm w
  unfold Ends at hfirst
  rcases houtcome : m.outcome w with ⟨stop | a, w'⟩
  · rw [houtcome] at h hfirst
    have hstop : (.error stop : Except Stop α) ≠ .error .visitLimit := by
      rintro ⟨rfl⟩
      exact h rfl
    rw [hfirst hstop]
  · rw [houtcome] at h hfirst
    rw [hfirst nofun]
    exact hf a w' h

end Work

namespace Visit

open Work

variable {maxSteps : Nat}

/-- The slots of a node, under larger limits. -/
theorem refines_visitSlots {visitChild visitChild' : TaskView → Work σ TaskView}
    (hchild : ∀ v, (visitChild v).Refines (visitChild' v)) {limit limit' : Nat}
    (hle : limit ≤ limit') (p : SlotPoint) :
    (visitSlots maxSteps visitChild limit p.copied p.slot p.view).Refines
      (visitSlots maxSteps visitChild' limit' p.copied p.slot p.view) := by
  induction limit generalizing limit' p with
  | zero => exact refines_throw _
  | succ limit ih =>
      obtain ⟨limit', rfl⟩ : ∃ m, limit' = m + 1 := ⟨limit' - 1, by omega⟩
      have hle : limit ≤ limit' := by omega
      cases htask : p.view.task with
      | none =>
          rw [visitSlots, visitSlots, htask]
          exact .refl _
      | some task =>
          rw [visitSlots_succ maxSteps visitChild limit htask,
            visitSlots_succ maxSteps visitChild' limit' htask]
          apply (Refines.refl _).bind
          intro n
          rcases n.subTasks[p.slot]? with _ | _ | child
          · exact .refl _
          · exact ih hle ⟨p.copied, p.slot + 1, p.view⟩
          · apply (hchild _).bind
            intro seen
            apply (Refines.refl _).bind
            intro q
            unfold resume
            split
            · exact .refl _
            · exact ih hle q

theorem refines_resume {visitChild visitChild' : TaskView → Work σ TaskView}
    (hchild : ∀ v, (visitChild v).Refines (visitChild' v)) {limit limit' : Nat}
    (hle : limit ≤ limit') (p : SlotPoint) :
    (resume maxSteps visitChild limit p).Refines (resume maxSteps visitChild' limit' p) := by
  unfold resume
  split
  · exact .refl _
  · exact refines_visitSlots hchild hle p

/-- **A visit that ends below the limit ends in the same way under every larger one.** -/
theorem refines_visit (maxSteps : Nat) (rules : List (Member σ)) (deep : Bool)
    {limit limit' : Nat} (hle : limit ≤ limit') (v : TaskView) :
    (visit maxSteps rules deep limit v).Refines (visit maxSteps rules deep limit' v) := by
  induction limit generalizing limit' v with
  | zero => exact refines_throw _
  | succ limit ih =>
      obtain ⟨limit', rfl⟩ : ∃ m, limit' = m + 1 := ⟨limit' - 1, by omega⟩
      have hle : limit ≤ limit' := by omega
      rw [visit, visit]
      split
      · exact .refl _
      · apply (Refines.refl _).bind
        rintro ⟨v', goesOn⟩
        dsimp only
        split
        · exact .refl _
        · split
          · exact (refines_visitSlots (ih hle) hle ⟨false, 0, v'⟩).bind fun _ => .refl _
          · exact .refl _

/-- Limits that a visit does not run into agree on what comes of it. -/
theorem outcome_visit_eq {maxSteps : Nat} {rules : List (Member σ)} {deep : Bool}
    {limit limit' : Nat} {v : TaskView} {w : Workspace σ}
    (h : (visit maxSteps rules deep limit v).Ends w)
    (h' : (visit maxSteps rules deep limit' v).Ends w) :
    (visit maxSteps rules deep limit v).outcome w =
      (visit maxSteps rules deep limit' v).outcome w := by
  have hleft := refines_visit maxSteps rules deep (Nat.le_max_left limit limit') v w h
  have hright := refines_visit maxSteps rules deep (Nat.le_max_right limit limit') v w h'
  exact hleft.symm.trans hright

end Visit

/-! ## Optimizations are determined -/

/-- The optimization is over. -/
def Situation.Final (a : Situation σ) : Prop :=
  a.phase = .stopped ∨ a.phase = .between ∧ a.sweep.pending.isEmpty = true

/-- What an optimization leaves behind that is over here. -/
def Situation.remains (a : Situation σ) : Optimized σ :=
  match a.sweep.stopped with
  | none => ⟨.ok ⟨a.work.steps, a.sweep.restarts⟩, a.sweep.list.filter Option.isSome, a.work.user,
      a.work.graph, a.work.journal, a.sweep.turns⟩
  | some stop => ⟨.error stop, a.sweep.list, a.work.user, a.work.graph, a.work.journal,
      a.sweep.turns⟩

namespace Sweep

variable {setup : Setup σ} {a b c : Situation σ}

/-- At most one thing can happen next: the guards of the moves exclude each other. -/
theorem Move.right_unique (h : Move setup a b) (h' : Move setup a c) : b = c := by
  cases h <;> cases h' <;> simp_all <;> omega

theorem not_move_of_final (ha : a.Final) : ¬ Move setup a b := by
  rcases ha with hstopped | ⟨hbetween, hempty⟩
  · exact fun h => h.phase_ne_stopped hstopped
  · intro h
    cases h <;> simp_all

/-- Nothing has stopped an optimization where it goes on. -/
theorem Begins.stopped_eq_none (ha : Begins setup a) (h : Path setup a b)
    (hb : b.phase ≠ .stopped) : b.sweep.stopped = none :=
  Option.not_isSome_iff_eq_none.mp (mt (Path.isSome_stopped_iff h ha.stopped ha.phase).mp hb)

/-- Nothing leads away from the end but the empty path. -/
theorem Path.eq_of_final (h : Path setup a b) (ha : a.Final) : a = b := by
  rcases h.cases_head with heq | ⟨c, hmove, _⟩
  · exact heq
  · exact absurd hmove (not_move_of_final ha)

/-- Of two paths that begin together, the one that does not come to the end leads on to the end of
the other. -/
theorem Path.to_final (h : Path setup a b) (h' : Path setup a c) (hc : c.Final) :
    Path setup b c := by
  have hunique : Relator.RightUnique (Move setup) := fun _ _ _ => Move.right_unique
  rcases Relation.ReflTransGen.total_of_right_unique hunique h h' with hbc | hcb
  · exact hbc
  · rw [Path.eq_of_final hcb hc]

end Sweep

namespace Setup

open Sweep

variable (setup : Setup σ) (user : σ) (graph : Graph) (list : List (Option TaskId))

theorem begins_start : Begins setup (start user graph list) where
  phase := nofun
  stopped := rfl
  steps := Nat.zero_le _

/-- An optimization ends at the end of its path. -/
theorem exists_final : ∃ b, Path setup (start user graph list) b ∧ b.Final ∧
    setup.optimize user graph list = b.remains := by
  have ha := begins_start setup user graph list
  rcases setup.optimize_path user graph list with
    ⟨s, w, hpath, hempty, heq⟩ | ⟨s, w, stop, hpath, hstop, heq⟩
  · refine ⟨_, hpath, Or.inr ⟨rfl, hempty⟩, ?_⟩
    have hgoes : s.stopped = none := ha.stopped_eq_none hpath nofun
    rw [heq, Situation.remains, hgoes]
  · refine ⟨_, hpath, Or.inl rfl, ?_⟩
    rw [heq, Situation.remains, hstop]

variable {setup user graph list}

/-- Wherever an optimization stands, it has a next move, or it is over. -/
theorem exists_move {a : Situation σ} (h : Path setup (start user graph list) a)
    (ha : ¬ a.Final) : ∃ b, Move setup a b := by
  obtain ⟨c, hpath, hc, _⟩ := exists_final setup user graph list
  rcases (h.to_final hpath hc).cases_head with rfl | ⟨b, hmove, _⟩
  · exact absurd hc ha
  · exact ⟨b, hmove⟩

/-- Whatever path of moves comes to an end, that is where the optimization ends. -/
theorem optimize_of_path {b : Situation σ} (h : Path setup (start user graph list) b)
    (hb : b.Final) : setup.optimize user graph list = b.remains := by
  obtain ⟨c, hpath, hc, heq⟩ := exists_final setup user graph list
  rw [heq, Path.eq_of_final (h.to_final hpath hc) hb]

end Setup

/-! ## Larger limits -/

/-- The setup with another limit on visits. -/
def Setup.withLimit (setup : Setup σ) (limit : Nat) : Setup σ := { setup with visitLimit := limit }

namespace Sweep

variable {setup : Setup σ} {a b : Situation σ} {limit limit' : Nat}

theorem entryOutcome_withLimit {step : Step σ} {before after : List (Option TaskId)}
    {task : TaskId} {w w' : Workspace σ} {r : Except Stop TaskView} (hle : limit ≤ limit')
    (h : entryOutcome (setup.withLimit limit) step before after task w = (r, w'))
    (hr : r ≠ .error .visitLimit) :
    entryOutcome (setup.withLimit limit') step before after task w = (r, w') := by
  have hvisit := Visit.refines_visit setup.maxSteps step.members step.forTask hle
    (.ofEntry (before.reverse ++ some task :: after) step.gate task) w
  rw [← h]
  apply hvisit
  exact fun hlimit => hr ((congrArg Prod.fst h).symm.trans hlimit)

/-- A move under a limit is a move under every larger one, unless it is the limit that ends the
optimization. -/
theorem Move.withLimit (hle : limit ≤ limit') (h : Move (setup.withLimit limit) a b)
    (hb : b.sweep.stopped ≠ some .visitLimit) : Move (setup.withLimit limit') a b := by
  cases h with
  | visit hclean houtcome hdone =>
      exact .visit hclean (entryOutcome_withLimit hle houtcome nofun) hdone
  | revisit hclean houtcome hrepeats hnew hleft =>
      exact .revisit hclean (entryOutcome_withLimit hle houtcome nofun) hrepeats hnew hleft
  | unrepeated hclean houtcome hrepeats hnew hspent =>
      exact .unrepeated hclean (entryOutcome_withLimit hle houtcome nofun) hrepeats hnew hspent
  | abort hclean houtcome =>
      refine .abort hclean (entryOutcome_withLimit hle houtcome ?_)
      rintro ⟨rfl⟩
      exact hb rfl
  | _ =>
      -- no other move looks at the limit
      constructor <;> assumption

/-- The same of paths. -/
theorem Path.withLimit (hle : limit ≤ limit') (ha : Begins (setup.withLimit limit) a)
    (h : Path (setup.withLimit limit) a b) (hb : b.sweep.stopped ≠ some .visitLimit) :
    Path (setup.withLimit limit') a b := by
  induction h with
  | refl => exact .refl
  | @tail b c hpath hmove ih =>
      refine .tail (ih ?_) (hmove.withLimit hle hb)
      rw [ha.stopped_eq_none hpath hmove.phase_ne_stopped]
      nofun

end Sweep

/-- **An optimization that does not reach the limit on visits does not depend on it.** Under every
larger limit it leaves behind the same list, the same graph and the same journal, and it has the
same result. -/
theorem Setup.optimize_withLimit {setup : Setup σ} {user : σ} {graph : Graph}
    {list : List (Option TaskId)} {limit limit' : Nat} (hle : limit ≤ limit')
    (h : ((setup.withLimit limit).optimize user graph list).result ≠ .error .visitLimit) :
    (setup.withLimit limit').optimize user graph list =
      (setup.withLimit limit).optimize user graph list := by
  obtain ⟨b, hpath, hfinal, heq⟩ := exists_final (setup.withLimit limit) user graph list
  rw [heq]
  apply optimize_of_path _ hfinal
  apply hpath.withLimit hle (begins_start _ user graph list)
  intro hstopped
  rw [heq, Situation.remains, hstopped] at h
  exact h rfl

end RenderPlan
