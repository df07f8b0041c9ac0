/-
# RenderPlan.Proofs.Optimize.Calm -- visits that leave everything as it is

The rules of this file remember nothing between calls (`Rule.Stateless`), and they are candid about
what they do: a call that puts nothing else in the place of its task or list changes nothing at all,
and one that does reports every category that has a rule (`Rule.Candid`).

Of such rules a visit tells what it did. Either its unrest is that of all categories that have a
rule, or it was calm: it left the task and the graph as they were, and wherever it is made again
over the same graph it comes to the same end (`Visit.honest_visit`). Both parts are needed, and
neither follows from the course of the visit, since the course forgets in which order rules were
called.
-/
import RenderPlan.Proofs.Category.Membership
import RenderPlan.Proofs.Optimize.Course

namespace RenderPlan

variable {σ α β : Type}

/-! ## The contract -/

/-- The mask has every category that has a rule. -/
def Registry.Covered (registry : Registry) (m : Mask) : Prop :=
  ∀ c, registry.rules c ≠ [] → c ∈ m

/-- What the rule answers does not depend on what is remembered. -/
structure Rule.Stateless (r : Rule σ) : Prop where
  task : ∀ (c : TaskCall σ) (user : σ),
    (r.runTask { c with user := user }).fault = (r.runTask c).fault ∧
      (r.runTask { c with user := user }).call.graph = (r.runTask c).call.graph ∧
      (r.runTask { c with user := user }).call.view = (r.runTask c).call.view
  list : ∀ (c : ListCall σ) (user : σ),
    (r.runList { c with user := user }).fault = (r.runList c).fault ∧
      (r.runList { c with user := user }).call.graph = (r.runList c).call.graph ∧
      (r.runList { c with user := user }).call.list = (r.runList c).call.list ∧
      (r.runList { c with user := user }).call.affects = (r.runList c).call.affects

/-- A call that returns its task or list as it was changes nothing and reports nothing. Another one
reports every category that has a rule, itself or through its descriptor. List rules leave no holes.
-/
structure Rule.Candid (registry : Registry) (r : Rule σ) : Prop where
  idleTask : ∀ c : TaskCall σ, (r.runTask c).fault = none →
    (r.runTask c).call.view.task = c.view.task →
    (r.runTask c).call.graph = c.graph ∧ (r.runTask c).call.view.affects = c.view.affects
  marksTask : ∀ c : TaskCall σ, (r.runTask c).fault = none →
    (r.runTask c).call.view.task ≠ c.view.task →
    registry.Covered ((r.runTask c).call.view.affects ∪ r.descriptor.affects)
  idleList : ∀ c : ListCall σ, (r.runList c).fault = none → (r.runList c).call.list = c.list →
    (r.runList c).call.graph = c.graph ∧ (r.runList c).call.affects = c.affects
  marksList : ∀ c : ListCall σ, (r.runList c).fault = none → (r.runList c).call.list ≠ c.list →
    registry.Covered ((r.runList c).call.affects ∪ r.descriptor.affects)
  noHoles : ∀ c : ListCall σ, (r.runList c).fault = none → none ∉ c.list →
    none ∉ (r.runList c).call.list

theorem Registry.Covered.mono {registry : Registry} {m m' : Mask} (h : registry.Covered m)
    (hm : ∀ c ∈ m, c ∈ m') : registry.Covered m' :=
  fun c hc => hm c (h c hc)

/-! ## Calm parts -/

namespace Work

variable {m : Work σ α} {f : α → Work σ β} {g : Graph} {a : α} {b : β}

/-- Over the graph the part always comes to this value, and it takes nothing out of the budget and
leaves the graph as it was. -/
def Calm (m : Work σ α) (g : Graph) (a : α) : Prop :=
  ∀ w : Workspace σ, w.graph = g →
    ∃ w', m.outcome w = (.ok a, w') ∧ w'.graph = g ∧ w'.steps = w.steps

theorem calm_pure (g : Graph) (a : α) : (pure a : Work σ α).Calm g a :=
  fun w hw => ⟨w, rfl, hw, rfl⟩

theorem Calm.bind (hm : m.Calm g a) (hf : (f a).Calm g b) : (m >>= f).Calm g b := by
  intro w hw
  obtain ⟨w', hm, hgraph, hsteps⟩ := hm w hw
  obtain ⟨w'', hf, hgraph', hsteps'⟩ := hf w' hgraph
  exact ⟨w'', by rw [outcome_bind, hm]; exact hf, hgraph', hsteps'.trans hsteps⟩

/-- Every value that the part comes to has the property. -/
def Returns (m : Work σ α) (P : α → Prop) : Prop := ∀ w a w', m.outcome w = (.ok a, w') → P a

theorem returns_pure {P : α → Prop} (h : P a) : (pure a : Work σ α).Returns P := by
  rintro w _ _ ⟨⟩
  exact h

theorem Returns.bind {P : α → Prop} {Q : β → Prop} (hm : m.Returns P)
    (hf : ∀ a, P a → (f a).Returns Q) : (m >>= f).Returns Q := by
  intro w b w'' h
  obtain ⟨a, w', hm', hf'⟩ := exists_of_outcome_bind h
  exact hf a (hm w a w' hm') w' b w'' hf'

/-- A property of all values of the last part is one of the whole. -/
theorem returns_bind {Q : β → Prop} (hf : ∀ a, (f a).Returns Q) : (m >>= f).Returns Q :=
  Returns.bind (P := fun _ => True) (fun _ _ _ _ => trivial) fun a _ => hf a

/-- The part tells by its value what it did: either the value is loud, or it is quiet and the part
was calm. -/
def Tells (m : Work σ α) (loud quiet : α → Prop) : Prop :=
  ∀ w a w', m.outcome w = (.ok a, w') → loud a ∨ quiet a ∧ m.Calm w.graph a

theorem tells_pure {loud quiet : α → Prop} (h : quiet a) :
    (pure a : Work σ α).Tells loud quiet := by
  rintro w _ _ ⟨⟩
  exact Or.inr ⟨h, calm_pure _ _⟩

theorem Tells.bind {loud quiet : α → Prop} {loud' quiet' : β → Prop} (hm : m.Tells loud quiet)
    (hloud : ∀ a, loud a → (f a).Returns loud') (hquiet : ∀ a, quiet a → (f a).Tells loud' quiet') :
    (m >>= f).Tells loud' quiet' := by
  intro w b w'' h
  obtain ⟨a, w', hma, hfb⟩ := exists_of_outcome_bind h
  rcases hm w a w' hma with hl | ⟨hq, hcalm⟩
  · exact Or.inl (hloud a hl w' b w'' hfb)
  · obtain ⟨v, hv, hgraph, _⟩ := hcalm w rfl
    obtain rfl : v = w' := congrArg Prod.snd (hv.symm.trans hma)
    rcases hquiet a hq v b w'' hfb with hl | ⟨hq', hcalm'⟩
    · exact Or.inl hl
    · exact Or.inr ⟨hq', hcalm.bind (hgraph ▸ hcalm')⟩

/-- A node that exists is fetched calmly. -/
theorem tells_fetch (id : TaskId) :
    (fetch id : Work σ Node).Tells (fun _ => False) fun _ => True := by
  intro w n w' hn
  refine Or.inr ⟨trivial, fun v hv => ⟨v, ?_, hv, rfl⟩⟩
  rw [outcome_fetch] at hn ⊢
  rw [hv]
  split at hn <;> cases hn
  rfl

theorem tells_note (e : Entry) :
    (modify (Workspace.note e) : Work σ PUnit).Tells (fun _ => False) fun _ => True := by
  rintro w ⟨⟩ w' _
  exact Or.inr ⟨trivial, fun v hv => ⟨v.note e, rfl, hv, rfl⟩⟩

end Work

namespace Visit

open Work

variable {registry : Registry} {rules : List (Member σ)} {maxSteps : Nat} {v : TaskView}

/-- A part of a visit that begins at a view and comes to others: unrest in all categories that have
a rule stays, and without it the view is what it was and the part was calm. -/
structure Honest (registry : Registry) (v : TaskView) (m : Work σ α) (view : α → TaskView) :
    Prop where
  keeps : registry.Covered v.affects → m.Returns fun a => registry.Covered (view a).affects
  tells : m.Tells (fun a => registry.Covered (view a).affects)
    fun a => (view a).task = v.task ∧ (view a).affects = v.affects

theorem honest_pure {a : α} {view : α → TaskView}
    (h : (view a).task = v.task ∧ (view a).affects = v.affects) :
    Honest registry v (pure a : Work σ α) view where
  keeps hv := returns_pure (h.2.symm ▸ hv)
  tells := tells_pure h

theorem Honest.bind {m : Work σ α} {f : α → Work σ β} {view : α → TaskView} {view' : β → TaskView}
    (hm : Honest registry v m view) (hf : ∀ a, Honest registry (view a) (f a) view') :
    Honest registry v (m >>= f) view' where
  keeps hv := (hm.keeps hv).bind fun a ha => (hf a).keeps ha
  tells := hm.tells.bind (fun a ha => (hf a).keeps ha) fun a ha => by
    have hfa := (hf a).tells
    rw [ha.1, ha.2] at hfa
    exact hfa

theorem Honest.throw (stop : Stop) (view : α → TaskView) :
    Honest registry v (throw stop : Work σ α) view where
  keeps _ _ _ _ := nofun
  tells _ _ _ := nofun

/-! ## Visits are honest -/

/-- A call of a stateless rule has the same answer wherever it is made over the same graph. -/
theorem answer_eq {m : Member σ} (h : m.rule.Stateless) {w w' : Workspace σ}
    (hgraph : w'.graph = w.graph) :
    (answer m v w').fault = (answer m v w).fault ∧
      (answer m v w').call.graph = (answer m v w).call.graph ∧
      (answer m v w').call.view = (answer m v w).call.view := by
  have hanswer := h.task ⟨w.user, w.graph, v⟩ w'.user
  unfold answer
  rw [hgraph]
  exact hanswer

theorem honest_callRule {m : Member σ} (hstateless : m.rule.Stateless)
    (hcandid : m.rule.Candid registry) (v : TaskView) :
    Honest registry v (callRule m v) id where
  keeps hv w v' w' h := by
    rw [outcome_callRule] at h
    split at h
    · cases h
    · cases h
      exact hv.mono fun c hc => Mask.mem_union.mpr (Or.inl hc)
  tells w v' w' h := by
    rw [outcome_callRule] at h
    split at h
    · cases h
    next hreturns =>
    cases h
    by_cases hsame : (answer m v w).call.view.task = v.task
    · -- an idle call leaves its view, except for the requests to repeat
      obtain ⟨hgraph, haffects⟩ := hcandid.idleTask _ hreturns hsame
      have hreported : (record m v w).reported = v.affects :=
        (reported_of_eq m v w hsame).trans haffects
      refine Or.inr ⟨⟨hsame, ?_⟩, fun w' hw' => ?_⟩
      · simp [viewAfter, hreported]
      · obtain ⟨hfault, hgraph', hview⟩ := answer_eq (v := v) hstateless hw'
        refine ⟨workspaceAfter m v w', ?_, ?_, rfl⟩
        · rw [outcome_callRule, hfault, hreturns]
          simp [viewAfter, record, hview]
        · exact hgraph'.trans hgraph
    · have hmarks : registry.Covered (record m v w).reported := by
        rw [reported_of_ne m v w hsame]
        exact hcandid.marksTask _ hreturns hsame
      exact Or.inl (hmarks.mono fun c hc => Mask.mem_union.mpr (Or.inr hc))

theorem honest_applyRules (hstateless : ∀ m ∈ rules, m.rule.Stateless)
    (hcandid : ∀ m ∈ rules, m.rule.Candid registry) (deepFirst : Bool) (v : TaskView) :
    Honest registry v (applyRules deepFirst rules v) Prod.fst := by
  induction rules generalizing v with
  | nil => exact honest_pure ⟨rfl, rfl⟩
  | cons m rules ih =>
      obtain ⟨hm, hrest⟩ := List.forall_mem_cons.mp hstateless
      obtain ⟨hm', hrest'⟩ := List.forall_mem_cons.mp hcandid
      dsimp only [applyRules]
      split
      · refine (honest_callRule hm hm' v).bind fun v' => ?_
        split
        · exact honest_pure ⟨rfl, rfl⟩
        · exact ih hrest hrest' v'
      · exact ih hrest hrest' v

theorem honest_fetch_bind {id : TaskId} {f : Node → Work σ β} {view : β → TaskView}
    (h : ∀ n, Honest registry v (f n) view) : Honest registry v (fetch id >>= f) view where
  keeps hv := returns_bind fun n => (h n).keeps hv
  tells := (tells_fetch id).bind (fun _ h => h.elim) fun n _ => (h n).tells

theorem honest_note_bind {e : Entry} {rest : Work σ β} {view : β → TaskView}
    (h : Honest registry v rest view) :
    Honest registry v (do modify (Workspace.note e); rest : Work σ β) view where
  keeps hv := returns_bind fun _ => h.keeps hv
  tells := (tells_note e).bind (fun _ h => h.elim) fun _ _ => h.tells

/-- What follows the visit of a sub-task has two cases: the sub-task came back as it was, or there
was unrest in all categories that have a rule. -/
theorem honest_child_bind {child : TaskId} {m : Work σ TaskView} {f : TaskView → Work σ β}
    {view : β → TaskView} (hm : Honest registry (v.ofChild child) m id)
    (hsame : ∀ seen, seen.task = some child → Honest registry (absorb v seen) (f seen) view)
    (hother : ∀ seen, seen.task ≠ some child → registry.Covered (v.affects ∪ seen.affects) →
      (f seen).Returns fun b => registry.Covered (view b).affects) :
    Honest registry v (m >>= f) view := by
  have hloud : ∀ seen, registry.Covered (v.affects ∪ seen.affects) →
      (f seen).Returns fun b => registry.Covered (view b).affects := by
    intro seen hseen
    by_cases h : seen.task = some child
    · exact (hsame seen h).keeps hseen
    · exact hother seen h hseen
  constructor
  · exact fun hv => returns_bind fun seen =>
      hloud seen (hv.mono fun c hc => Mask.mem_union.mpr (Or.inl hc))
  · refine hm.tells.bind (fun seen hseen => ?_) fun seen hseen => ?_
    · exact hloud seen (hseen.mono fun c hc => Mask.mem_union.mpr (Or.inr hc))
    · have haffects : (absorb v seen).affects = v.affects := by
        have hempty : seen.affects = ∅ := hseen.2
        simp [absorb, hempty]
      have hrest := (hsame seen hseen.1).tells
      rw [haffects] at hrest
      exact hrest

/-- The slots of a node are visited honestly if each sub-task is. -/
theorem honest_visitSlots {visitChild : TaskView → Work σ TaskView}
    (hchild : ∀ v, Honest registry v (visitChild v) id) (limit : Nat) (copied : Bool) (slot : Nat)
    (v : TaskView) :
    Honest registry v (visitSlots maxSteps visitChild limit copied slot v) Prod.fst := by
  induction limit generalizing copied slot v with
  | zero => exact .throw ..
  | succ limit ih =>
      have hgo : ∀ (copied : Bool) (slot : Nat) (v : TaskView), Honest registry v
          (if v.affects.intersects v.gate = true then pure (v, false)
            else visitSlots maxSteps visitChild limit copied slot v) Prod.fst := by
        intro copied slot v
        split
        · exact honest_pure ⟨rfl, rfl⟩
        · exact ih copied slot v
      rw [visitSlots]
      split
      · exact honest_pure ⟨rfl, rfl⟩
      · next task htask =>
          refine honest_fetch_bind fun n => ?_
          split
          · exact honest_pure ⟨rfl, rfl⟩
          · exact ih copied (slot + 1) v
          · next child hslot =>
              refine honest_child_bind (hchild _) (fun seen hseen => ?_) fun seen hseen hloud => ?_
              · refine honest_note_bind ?_
                rw [if_pos hseen]
                exact hgo copied (slot + 1) (absorb v seen)
              · refine returns_bind fun _ => ?_
                rw [if_neg hseen]
                -- whatever is copied and written, the unrest of the sub-task is taken over
                split <;> refine returns_bind fun parent => returns_bind fun _ => ?_
                all_goals
                  dsimp only
                  split
                  · exact returns_bind fun _ => (hgo true _ _).keeps hloud
                  · exact (hgo true _ _).keeps hloud

/-- **Visits are honest.** -/
theorem honest_visit (hstateless : ∀ m ∈ rules, m.rule.Stateless)
    (hcandid : ∀ m ∈ rules, m.rule.Candid registry) (deep : Bool) (limit : Nat) (v : TaskView) :
    Honest registry v (visit maxSteps rules deep limit v) id := by
  induction limit generalizing v with
  | zero => exact .throw ..
  | succ limit ih =>
      rw [visit]
      split
      · exact honest_pure ⟨rfl, rfl⟩
      · refine (honest_applyRules hstateless hcandid false v).bind ?_
        rintro ⟨v', goesOn⟩
        dsimp only
        split
        · exact honest_pure ⟨rfl, rfl⟩
        · have hpost : ∀ r : TaskView × Bool, Honest registry r.1
              (if (!r.2) = true then pure r.1 else do
                let x ← applyRules true rules r.1
                pure x.1 : Work σ TaskView) id := by
            rintro ⟨v'', goesOn''⟩
            dsimp only
            split
            · exact honest_pure ⟨rfl, rfl⟩
            · exact (honest_applyRules hstateless hcandid true v'').bind fun _ =>
                honest_pure ⟨rfl, rfl⟩
          split
          · exact (honest_visitSlots ih limit false 0 v').bind hpost
          · exact hpost (v', true)

end Visit

end RenderPlan
