/-
# RenderPlan.Proofs.Optimize.Descent -- visits that go down for ever

A visit takes a step out of the budget before it visits a slot once more. Nothing is taken for a
visit of a sub-task, and the rules that come before the sub-tasks may have grown the tree below. So
one visit may lead to another one below it without end. This is the only way in which a visit does
not return: if all the visits of sub-tasks that it comes to return, it returns itself
(`Visit.halts_of_nests`), provided that the rules change no existing node: then the slots of its node
become no more while it lasts, and each slot is left after one visit, or a step of the budget is
spent on it. Hence a visit that returns under no limit is the top of an infinite descent
(`Visit.descendsForever_of_not_halts`), and the other way round (`Visit.DescendsForever.not_halts`).
Nothing is said about the soundness of the trees: a missing node ends a visit, too.
-/
import RenderPlan.Proofs.Optimize.Growth
import RenderPlan.Proofs.Optimize.Limit
import RenderPlan.Proofs.Optimize.WellFormed
import Mathlib.Tactic.Choose

namespace RenderPlan

variable {σ : Type}

/-- Where a visit begins. -/
structure Entrance (σ : Type) where
  view : TaskView
  work : Workspace σ

/-- The rule leaves no task without sub-tasks: it answers one whose first slot is taken. -/
def Rule.Grows (r : Rule σ) : Prop :=
  ∀ c : TaskCall σ, c.view.task.isSome = true → (r.runTask c).fault = none ∧
    ∃ task n child, (r.runTask c).call.view.task = some task ∧
      (r.runTask c).call.graph.get? task = some n ∧ n.subTasks[0]? = some (some child)

namespace Visit

open Work

/-! ## Visits within visits -/

/-- How a visit can stand in the slots of its node: the rules that come before the sub-tasks were
applied, the earlier slots are done, and the gate is clean. -/
inductive Underway (maxSteps : Nat) (rules : List (Member σ)) (x : Entrance σ) :
    SlotPoint → Workspace σ → Prop where
  /-- The first slot is next. -/
  | enter {v w} (fresh : x.view.isStale = false)
      (outcome : (applyRules false rules x.view).outcome x.work = (.ok (v, true), w)) :
      Underway maxSteps rules x ⟨false, 0, v⟩ w
  /-- A hole is passed over. -/
  | hole {p w task n} (before : Underway maxSteps rules x p w) (task_eq : p.view.task = some task)
      (node : w.graph.get? task = some n) (slot_eq : n.subTasks[p.slot]? = some none) :
      Underway maxSteps rules x ⟨p.copied, p.slot + 1, p.view⟩ w
  /-- A sub-task was visited. -/
  | next {p w task child limit seen w' q w''} (before : Underway maxSteps rules x p w)
      (descends : Descends p.view w task p.slot child)
      (outcome : (visit maxSteps rules true limit (p.view.ofChild child)).outcome w =
        (.ok seen, w'))
      (back : (takeBack maxSteps p task child seen).outcome w' = (.ok q, w''))
      (clean : q.view.affects.intersects q.view.gate = false) :
      Underway maxSteps rules x q w''

/-- In the course of a visit the sub-task in some slot is visited. -/
def Nests (maxSteps : Nat) (rules : List (Member σ)) (x y : Entrance σ) : Prop :=
  ∃ p task child, Underway maxSteps rules x p y.work ∧ Descends p.view y.work task p.slot child ∧
    y.view = p.view.ofChild child

/-- The visit returns, if the limit is large enough. -/
def Halts (maxSteps : Nat) (rules : List (Member σ)) (deep : Bool) (x : Entrance σ) : Prop :=
  ∃ limit, (visit maxSteps rules deep limit x.view).Ends x.work

variable {maxSteps : Nat} {rules : List (Member σ)} {deep : Bool} {x y : Entrance σ}
  {p q : SlotPoint} {w w' : Workspace σ} {task child : TaskId}

theorem Underway.course (h : Underway maxSteps rules x p w) :
    Course maxSteps rules x.work x.view p.copied p.view w ∧ p.view.isStale = false := by
  induction h with
  | enter hfresh houtcome =>
      have hbegins := @Course.enter σ maxSteps rules x.work x.view
      have hrules := ensures_applyRules false (List.Subset.refl _) hbegins hfresh
      obtain ⟨⟨copied, hcopied, hcourse⟩, hgoes⟩ := hrules.of_outcome houtcome
      cases copied with
      | false => exact ⟨hcourse, hgoes rfl⟩
      | true => cases hcopied rfl
  | hole _ _ _ _ ih => exact ih
  | next _ hdescends houtcome hback hclean ih =>
      obtain ⟨copied, hbelow⟩ := (ensures_visit _ _ _ _ _ _).of_outcome houtcome
      have htaken := (ensures_takeBack _ _ _ _ _ _).of_outcome hback
      obtain ⟨hcourse, hthere⟩ := htaken.course ih.1 hdescends hbelow
      exact ⟨hcourse, TaskView.isStale_eq_false_iff.mpr ⟨hthere, hclean⟩⟩

theorem Underway.steps_le (h : Underway maxSteps rules x p w) (hx : x.work.steps ≤ maxSteps) :
    w.steps ≤ maxSteps :=
  h.course.1.steps_le.2 hx

theorem Nests.steps_le (h : Nests maxSteps rules x y) (hx : x.work.steps ≤ maxSteps) :
    y.work.steps ≤ maxSteps := by
  obtain ⟨p, task, child, hway, _⟩ := h
  exact hway.steps_le hx

/-! ## A visit returns if the visits below it do -/

/-- Rules never run into the limit. -/
theorem ends_applyRules (deepFirst : Bool) (members : List (Member σ)) (v : TaskView)
    (w : Workspace σ) : (applyRules deepFirst members v).Ends w := by
  induction members generalizing v w with
  | nil => exact ends_pure _ w
  | cons m members ih =>
      dsimp only [applyRules]
      split
      · have hcall : (callRule m v).Ends w := by
          unfold Ends
          rw [outcome_callRule]
          split <;> nofun
        apply hcall.bind
        intro v' w' _
        split
        · exact ends_pure _ w'
        · exact ih v' w'
      · exact ih v w

/-- A sub-task that is taken back does not run into it either. -/
theorem ends_takeBack (p : SlotPoint) (task child : TaskId) (seen : TaskView) (w : Workspace σ) :
    (takeBack maxSteps p task child seen).Ends w := by
  intro hlimit
  have hback := ensures_takeBack maxSteps p task child seen w
  unfold Ensures at hback
  rw [hlimit] at hback
  cases hback

/-- How many slots are left. -/
def slotsLeft (p : SlotPoint) (g : Graph) : Nat := (p.view.task.elim [] g.slots).length - p.slot

theorem slotsLeft_eq {g : Graph} {n : Node} (htask : p.view.task = some task)
    (hn : g.get? task = some n) : slotsLeft p g = n.subTasks.length - p.slot := by
  simp [slotsLeft, htask, Graph.slots, hn]

/-- When a sub-task was taken back, a slot less is left, or a step of the budget was spent. -/
theorem TakesBack.slotsLeft_lt {seen : TaskView} {w'' : Workspace σ}
    (h : TakesBack maxSteps p task child seen w' (.ok q) w'')
    (hdescends : Descends p.view w task p.slot child) (hsteps : w.steps ≤ w'.steps)
    (hgrows : w.graph.Extends w'.graph) :
    w.steps < w''.steps ∨ w''.steps = w.steps ∧ slotsLeft q w''.graph < slotsLeft p w.graph := by
  obtain ⟨n, hn, hslot⟩ := hdescends.slot_eq
  have hbound : p.slot < n.subTasks.length := (List.getElem?_eq_some_iff.mp hslot).1
  have hn' : w'.graph.get? task = some n := hgrows _ _ hn
  rw [slotsLeft_eq hdescends.task_eq hn]
  cases h with
  | keep =>
      have htask : (absorb p.view seen).task = some task := hdescends.task_eq
      dsimp only [Workspace.note]
      rw [slotsLeft_eq (p := ⟨p.copied, p.slot + 1, absorb p.view seen⟩) htask hn']
      dsimp only
      omega
  | @splice m _ hm =>
      obtain rfl : n = m := Option.some.inj (hn'.symm.trans hm)
      rw [slotsLeft_eq rfl (get?_splice p.copied p.slot seen.task hm)]
      dsimp only [Workspace.note, Node.withSlot]
      rw [List.length_set]
      omega
  | again => exact Or.inl (Nat.lt_succ_of_le hsteps)

/-- Behind a sub-task there is less left to do. -/
theorem Underway.left_lt (hrules : ∀ m ∈ rules, m.rule.Additive) (hx : x.work.steps ≤ maxSteps)
    (h : Underway maxSteps rules x p w) (hdescends : Descends p.view w task p.slot child)
    {limit : Nat} {seen : TaskView} {w'' : Workspace σ}
    (houtcome : (visit maxSteps rules true limit (p.view.ofChild child)).outcome w =
      (.ok seen, w'))
    (hback : (takeBack maxSteps p task child seen).outcome w' = (.ok q, w''))
    (hclean : q.view.affects.intersects q.view.gate = false) :
    maxSteps - w''.steps < maxSteps - w.steps ∨
      maxSteps - w''.steps = maxSteps - w.steps ∧ slotsLeft q w''.graph < slotsLeft p w.graph := by
  have hnext : w''.steps ≤ maxSteps :=
    (Underway.next h hdescends houtcome hback hclean).steps_le hx
  obtain ⟨copied, hbelow⟩ := (ensures_visit _ _ _ _ _ _).of_outcome houtcome
  have hgrows := (hbelow.only_adds hrules).1
  have htaken := (ensures_takeBack _ _ _ _ _ _).of_outcome hback
  rcases htaken.slotsLeft_lt hdescends hbelow.steps_le.1 hgrows with hspent | ⟨heq, hslots⟩
  · left
    omega
  · right
    exact ⟨by rw [heq], hslots⟩

theorem ends_fetch_bind {n : Node} {β : Type} {f : Node → Work σ β}
    (hn : w.graph.get? task = some n) (h : (f n).Ends w) : (fetch task >>= f).Ends w := by
  unfold Ends
  rw [outcome_bind, outcome_fetch, hn]
  exact h

/-- From a slot with a sub-task on, the visit returns if that of the sub-task does and what follows
does. -/
theorem Descends.ends_slots (h : Descends p.view w task p.slot child) {below : Nat} (behind : Nat)
    (hbelow : (visit maxSteps rules true below (p.view.ofChild child)).Ends w)
    (hbehind : ∀ seen w' q w'',
      (visit maxSteps rules true below (p.view.ofChild child)).outcome w = (.ok seen, w') →
      (takeBack maxSteps p task child seen).outcome w' = (.ok q, w'') →
      (resume maxSteps (visit maxSteps rules true behind) behind q).Ends w'') :
    ∃ limit, (visitSlots maxSteps (visit maxSteps rules true limit) limit
      p.copied p.slot p.view).Ends w := by
  obtain ⟨n, hn, hslot⟩ := h.slot_eq
  refine ⟨max below behind + 1, ?_⟩
  rw [visitSlots_succ maxSteps _ _ h.task_eq]
  apply ends_fetch_bind hn
  rw [hslot]
  have hvisit := refines_visit maxSteps rules true
    (show below ≤ max below behind + 1 by omega) (p.view.ofChild child)
  apply (hvisit.ends hbelow).bind
  intro seen w' hseen
  rw [hvisit w hbelow] at hseen
  apply (ends_takeBack p task child seen w').bind
  intro q w'' hback
  have hmore := refines_visit maxSteps rules true (show behind ≤ max below behind + 1 by omega)
  exact (refines_resume hmore (by omega) q).ends (hbehind seen w' q w'' hseen hback)

/-- What the visit does from some slot on returns if all the visits below do. The budget and the
slots that are left become less with each sub-task that comes back. -/
theorem exists_ends_visitSlots (hrules : ∀ m ∈ rules, m.rule.Additive)
    (hx : x.work.steps ≤ maxSteps)
    (hnests : ∀ y, Nests maxSteps rules x y → Halts maxSteps rules true y) {p : SlotPoint}
    {w : Workspace σ} (h : Underway maxSteps rules x p w) :
    ∃ limit, (visitSlots maxSteps (visit maxSteps rules true limit) limit
      p.copied p.slot p.view).Ends w := by
  have hfresh := h.course.2
  obtain ⟨task, htask⟩ := Option.isSome_iff_exists.mp (TaskView.isStale_eq_false_iff.mp hfresh).1
  rcases hn : w.graph.get? task with _ | n
  · refine ⟨1, ?_⟩
    rw [visitSlots_succ maxSteps _ 0 htask]
    unfold Ends
    rw [outcome_bind, outcome_fetch, hn]
    nofun
  rcases hslot : n.subTasks[p.slot]? with _ | _ | child
  · refine ⟨1, ?_⟩
    rw [visitSlots_succ maxSteps _ 0 htask]
    apply ends_fetch_bind hn
    rw [hslot]
    exact ends_pure _ w
  · obtain ⟨limit, hrest⟩ := exists_ends_visitSlots hrules hx hnests (.hole h htask hn hslot)
    refine ⟨limit + 1, ?_⟩
    rw [visitSlots_succ maxSteps _ limit htask]
    apply ends_fetch_bind hn
    rw [hslot]
    have hmore := refines_visit maxSteps rules true (Nat.le_succ limit)
    exact (refines_visitSlots hmore (Nat.le_refl limit) _).ends hrest
  · have hdescends : Descends p.view w task p.slot child := ⟨hfresh, htask, n, hn, hslot⟩
    obtain ⟨below, hbelow⟩ := hnests ⟨p.view.ofChild child, w⟩ ⟨p, task, child, h, hdescends, rfl⟩
    -- the visit of the sub-task and its way back have one outcome each, so there is one point to
    -- go on from
    rcases hseen : (visit maxSteps rules true below (p.view.ofChild child)).outcome w with
      ⟨stop | seen, w'⟩
    · apply hdescends.ends_slots 0 hbelow
      intro _ _ _ _ hother
      cases hseen.symm.trans hother
    rcases hback : (takeBack maxSteps p task child seen).outcome w' with ⟨stop | q, w''⟩
    · apply hdescends.ends_slots 0 hbelow
      rintro _ _ _ _ hsame hother
      cases hseen.symm.trans hsame
      cases hback.symm.trans hother
    -- this is the one point where the visit can go on
    suffices hrest : ∃ behind,
        (resume maxSteps (visit maxSteps rules true behind) behind q).Ends w'' by
      obtain ⟨behind, hrest⟩ := hrest
      apply hdescends.ends_slots behind hbelow
      rintro _ _ _ _ hsame hsame'
      cases hseen.symm.trans hsame
      cases hback.symm.trans hsame'
      exact hrest
    unfold resume
    cases hgate : q.view.affects.intersects q.view.gate with
    | true => exact ⟨0, ends_pure _ w''⟩
    | false =>
        exact exists_ends_visitSlots hrules hx hnests (.next h hdescends hseen hback hgate)
termination_by (maxSteps - w.steps, slotsLeft p w.graph)
decreasing_by
  · apply Prod.Lex.right
    have hbound : p.slot < n.subTasks.length := (List.getElem?_eq_some_iff.mp hslot).1
    rw [slotsLeft_eq htask hn, slotsLeft_eq (p := ⟨p.copied, p.slot + 1, p.view⟩) htask hn]
    show n.subTasks.length - (p.slot + 1) < n.subTasks.length - p.slot
    omega
  · rcases h.left_lt hrules hx hdescends hseen hback hgate with hsteps | ⟨heq, hslots⟩
    · exact Prod.Lex.left _ _ hsteps
    · rw [heq]
      exact Prod.Lex.right _ hslots

/-- **A visit returns if all the visits do that it comes to below.** -/
theorem halts_of_nests (hrules : ∀ m ∈ rules, m.rule.Additive) (hx : x.work.steps ≤ maxSteps)
    (hnests : ∀ y, Nests maxSteps rules x y → Halts maxSteps rules true y) :
    Halts maxSteps rules true x := by
  cases hstale : x.view.isStale with
  | true =>
      refine ⟨1, ?_⟩
      rw [visit, if_pos hstale]
      exact ends_pure _ x.work
  | false =>
      have hslots : ∃ limit, ∀ v w, (applyRules false rules x.view).outcome x.work =
          (.ok (v, true), w) →
          (visitSlots maxSteps (visit maxSteps rules true limit) limit false 0 v).Ends w := by
        rcases hbefore : (applyRules false rules x.view).outcome x.work with
          ⟨stop | ⟨v, _ | _⟩, w⟩
        · exact ⟨0, fun v w heq => by cases heq⟩
        · exact ⟨0, fun v w heq => by cases heq⟩
        · obtain ⟨limit, hrest⟩ := exists_ends_visitSlots hrules hx hnests (.enter hstale hbefore)
          refine ⟨limit, ?_⟩
          rintro _ _ ⟨⟩
          exact hrest
      obtain ⟨limit, hslots⟩ := hslots
      refine ⟨limit + 1, ?_⟩
      rw [visit, if_neg (by rw [hstale]; exact Bool.false_ne_true)]
      apply (ends_applyRules false rules x.view x.work).bind
      rintro ⟨v, goesOn⟩ w hbefore
      cases goesOn with
      | false => exact ends_pure v w
      | true =>
          apply (hslots v w hbefore).bind
          rintro ⟨v', goesOn⟩ w' _
          cases goesOn with
          | false => exact ends_pure v' w'
          | true => exact (ends_applyRules true rules v' w').bind fun r w'' _ => ends_pure r.1 w''

/-- A visit that leaves the sub-tasks alone returns. -/
theorem halts_of_shallow (maxSteps : Nat) (rules : List (Member σ)) (x : Entrance σ) :
    Halts maxSteps rules false x := by
  refine ⟨1, ?_⟩
  rw [visit]
  split
  · exact ends_pure _ x.work
  · apply (ends_applyRules false rules x.view x.work).bind
    rintro ⟨v, goesOn⟩ w _
    cases goesOn with
    | false => exact ends_pure v w
    | true => exact (ends_applyRules true rules v w).bind fun r w' _ => ends_pure r.1 w'

/-! ## Descents -/

/-- There are nested visits without end, each of them for a sub-task of the one above. -/
def DescendsForever (maxSteps : Nat) (rules : List (Member σ)) (x : Entrance σ) : Prop :=
  ∃ chain : Nat → Entrance σ, chain 0 = x ∧ ∀ i, Nests maxSteps rules (chain i) (chain (i + 1))

/-- It suffices that below each visit of a kind there is another one of the kind. -/
theorem descendsForever_of_nests {P : Entrance σ → Prop}
    (hnests : ∀ x, P x → ∃ y, Nests maxSteps rules x y ∧ P y) (hx : P x) :
    DescendsForever maxSteps rules x := by
  have hbelow : ∀ x, ∃ y, P x → Nests maxSteps rules x y ∧ P y := by
    intro x
    by_cases h : P x
    · obtain ⟨y, hy⟩ := hnests x h
      exact ⟨y, fun _ => hy⟩
    · exact ⟨x, fun hP => absurd hP h⟩
  choose below hbelow using hbelow
  have hkind : ∀ i, P (below^[i] x) := by
    intro i
    induction i with
    | zero => exact hx
    | succ i ih =>
        rw [Function.iterate_succ_apply']
        exact (hbelow _ ih).2
  refine ⟨fun i => below^[i] x, rfl, ?_⟩
  intro i
  show Nests maxSteps rules (below^[i] x) (below^[i + 1] x)
  rw [Function.iterate_succ_apply']
  exact (hbelow _ (hkind i)).1

/-- **A visit that never returns goes down for ever.** -/
theorem descendsForever_of_not_halts (hrules : ∀ m ∈ rules, m.rule.Additive)
    (hx : x.work.steps ≤ maxSteps) (hnever : ¬ Halts maxSteps rules true x) :
    DescendsForever maxSteps rules x := by
  apply descendsForever_of_nests
    (P := fun x => x.work.steps ≤ maxSteps ∧ ¬ Halts maxSteps rules true x) _ ⟨hx, hnever⟩
  rintro x ⟨hx, hnever⟩
  by_contra hnone
  apply hnever
  apply halts_of_nests hrules hx
  intro y hy
  by_contra hnever
  exact hnone ⟨y, hy, hy.steps_le hx, hnever⟩

/-- The visits under a rule that grows every task go down for ever, unless the step relies on
earlier categories. -/
theorem descendsForever_of_grows {m : Member σ} (hgrows : m.rule.Grows)
    (hdeep : m.rule.descriptor.forTask = true) (hearly : m.rule.descriptor.deepFirst = false)
    (hgate : x.view.gate = ∅) (htask : x.view.task.isSome = true) :
    DescendsForever maxSteps [m] x := by
  apply descendsForever_of_nests
    (P := fun x => x.view.gate = ∅ ∧ x.view.task.isSome = true) _ ⟨hgate, htask⟩
  rintro x ⟨hgate, htask⟩
  have hfresh : ∀ v : TaskView, v.gate = ∅ → v.task.isSome = true → v.isStale = false := by
    intro v hgate htask
    apply TaskView.isStale_eq_false_iff.mpr
    rw [hgate]
    exact ⟨htask, Mask.intersects_empty _⟩
  obtain ⟨hreturns, task, n, child, hanswer, hn, hslot⟩ :=
    hgrows ⟨x.work.user, x.work.graph, x.view⟩ htask
  have hafter : (viewAfter m x.view x.work).isStale = false :=
    hfresh (viewAfter m x.view x.work) hgate (Option.isSome_of_eq_some hanswer)
  have houtcome : (applyRules false [m] x.view).outcome x.work =
      (.ok (viewAfter m x.view x.work, true), workspaceAfter m x.view x.work) := by
    have happlies : m.rule.descriptor.appliesToTask x.view.parent.isSome = true := by
      simp [Descriptor.appliesToTask, hdeep]
    unfold applyRules
    rw [if_pos ⟨hearly, happlies⟩, outcome_bind, outcome_callRule,
      show (answer m x.view x.work).fault = none from hreturns]
    dsimp only
    rw [hafter]
    rfl
  have hway : Underway maxSteps [m] x ⟨false, 0, viewAfter m x.view x.work⟩
      (workspaceAfter m x.view x.work) := .enter (hfresh x.view hgate htask) houtcome
  refine ⟨⟨(viewAfter m x.view x.work).ofChild child, workspaceAfter m x.view x.work⟩, ?_, hgate,
    rfl⟩
  exact ⟨_, task, child, hway, ⟨hafter, hanswer, n, hn, hslot⟩, rfl⟩

/-! ## Descents do not return -/

/-- If the rest of the slots is visited below the limit, so is the sub-task that is next. -/
theorem Descends.ends_child {visitChild : TaskView → Work σ TaskView} {left : Nat}
    (h : Descends p.view w task p.slot child)
    (hends : (visitSlots maxSteps visitChild left p.copied p.slot p.view).Ends w) :
    ∃ rest, rest < left ∧ (visitChild (p.view.ofChild child) >>= fun seen =>
      takeBack maxSteps p task child seen >>= resume maxSteps visitChild rest).Ends w := by
  obtain ⟨n, hn, hslot⟩ := h.slot_eq
  cases left with
  | zero => exact absurd rfl hends
  | succ left =>
      rw [visitSlots_succ maxSteps _ left h.task_eq] at hends
      have hrest := hends.of_bind.2 n w (by rw [outcome_fetch, hn])
      rw [hslot] at hrest
      exact ⟨left, Nat.lt_succ_self left, hrest⟩

/-- Wherever a visit stands that ends below the limit, the rest of the slots is visited below the
limit. -/
theorem Underway.ends_slots {limit : Nat} (h : Underway maxSteps rules x p w)
    (hx : (visit maxSteps rules true (limit + 1) x.view).Ends x.work) :
    ∃ left ≤ limit, (visitSlots maxSteps (visit maxSteps rules true limit) left
      p.copied p.slot p.view).Ends w := by
  induction h with
  | @enter v w hfresh houtcome =>
      rw [visit, if_neg (by rw [hfresh]; exact Bool.false_ne_true)] at hx
      have hslots := hx.of_bind.2 (v, true) w houtcome
      exact ⟨limit, Nat.le_refl limit, hslots.of_bind.1⟩
  | @hole p w task n _ htask hn hslot ih =>
      obtain ⟨left, hle, hends⟩ := ih
      cases left with
      | zero => exact absurd rfl hends
      | succ left =>
          rw [visitSlots_succ maxSteps _ left htask] at hends
          have hrest := hends.of_bind.2 n w (by rw [outcome_fetch, hn])
          rw [hslot] at hrest
          exact ⟨left, by omega, hrest⟩
  | @next p w task child limit' seen w' q w'' _ hdescends houtcome hback hclean ih =>
      obtain ⟨left, hle, hends⟩ := ih
      obtain ⟨rest, hrest, hends⟩ := hdescends.ends_child hends
      have hseen : (visit maxSteps rules true limit (p.view.ofChild child)).outcome w =
          (.ok seen, w') := by
        rw [← houtcome]
        apply outcome_visit_eq hends.of_bind.1
        unfold Ends
        rw [houtcome]
        intro heq
        cases heq
      have hresume := (hends.of_bind.2 seen w' hseen).of_bind.2 q w'' hback
      unfold resume at hresume
      rw [if_neg (by rw [hclean]; exact Bool.false_ne_true)] at hresume
      exact ⟨rest, by omega, hresume⟩

/-- A visit takes one level of the limit. -/
theorem Nests.ends {limit : Nat} (h : Nests maxSteps rules x y)
    (hx : (visit maxSteps rules true (limit + 1) x.view).Ends x.work) :
    (visit maxSteps rules true limit y.view).Ends y.work := by
  obtain ⟨p, task, child, hway, hdescends, hview⟩ := h
  obtain ⟨left, _, hends⟩ := hway.ends_slots hx
  obtain ⟨rest, _, hends⟩ := hdescends.ends_child hends
  rw [hview]
  exact hends.of_bind.1

/-- **A visit that goes down for ever returns under no limit.** -/
theorem DescendsForever.not_halts (h : DescendsForever maxSteps rules x) :
    ¬ Halts maxSteps rules true x := by
  obtain ⟨chain, rfl, hchain⟩ := h
  rintro ⟨limit, hends⟩
  -- each level of the descent takes one level of the limit
  suffices hlevels : ∀ limit i, ¬ (visit maxSteps rules true limit (chain i).view).Ends
      (chain i).work from hlevels limit 0 hends
  intro limit
  induction limit with
  | zero => exact fun i hends => hends rfl
  | succ limit ih => exact fun i hends => ih (i + 1) ((hchain i).ends hends)

end Visit

end RenderPlan
