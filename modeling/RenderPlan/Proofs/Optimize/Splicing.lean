/-
# RenderPlan.Proofs.Optimize.Splicing -- what becomes of a node while its slots are visited

Between the rules that come before the sub-tasks and those that come after, a visit goes through the
slots of its node. `Visit.Tour` tells this part slot by slot. It lists the visits of sub-tasks that
were made, each with the workspaces that it began in and left behind, and `Visit.exists_tour` says
that the code takes such a tour.

What the tour makes of the node is read off this list (`Splicing`). Where no sub-task came back
changed the task is still the one that the tour began with, and the tour added no node of its own.
Otherwise it added one. That one is the given node with other slots: a slot that was visited holds
what the last visit of it returned, and the other slots hold what they held.

The rules may do what they like, as long as they change no node that exists. In particular the list
of visits says nothing about the journal, since a rule may answer a task from above, and then visits
further down leave entries for the same slots.
-/
import RenderPlan.Proofs.Optimize.Growth
import RenderPlan.Proofs.Optimize.WellFormed

namespace RenderPlan

variable {σ : Type}

/-! ## Visits of slots -/

/-- A visit of the sub-task in a slot. -/
structure SlotVisit (σ : Type) where
  slot : Nat
  child : TaskId
  /-- Where it began. -/
  before : Workspace σ
  /-- What came of it. -/
  seen : TaskView
  /-- What it left behind. -/
  after : Workspace σ

namespace SlotVisit

/-- The sub-task came back changed, or it was removed. -/
def Changed (u : SlotVisit σ) : Prop := u.seen.task ≠ some u.child

instance (u : SlotVisit σ) : Decidable u.Changed := inferInstanceAs (Decidable (_ ≠ _))

/-- How many nodes it added. -/
def added (u : SlotVisit σ) : Nat := u.after.graph.size - u.before.graph.size

/-- How many nodes visits of slots added together. -/
def addedBy : List (SlotVisit σ) → Nat
  | [] => 0
  | u :: visits => u.added + addedBy visits

/-- The last visit of a slot. The visits are listed with the latest first. -/
def latest? (visits : List (SlotVisit σ)) (slot : Nat) : Option (SlotVisit σ) :=
  visits.find? fun u => u.slot = slot

/-- What slots hold after these visits, the latest first. -/
def held (slots : List (Option TaskId)) : List (SlotVisit σ) → List (Option TaskId)
  | [] => slots
  | u :: visits => (held slots visits).set u.slot u.seen.task

variable {slots : List (Option TaskId)} {u : SlotVisit σ} {visits : List (SlotVisit σ)} {i : Nat}

theorem latest?_cons : latest? (u :: visits) i = if u.slot = i then some u else latest? visits i := by
  by_cases h : u.slot = i <;> simp [latest?, h]

theorem latest?_eq_none : latest? visits i = none ↔ ∀ u ∈ visits, u.slot ≠ i := by
  simp [latest?]

theorem mem_of_latest? (h : latest? visits i = some u) : u ∈ visits ∧ u.slot = i :=
  ⟨List.mem_of_find?_eq_some h, by simpa using List.find?_some h⟩

theorem length_held : (held slots visits).length = slots.length := by
  induction visits with
  | nil => rfl
  | cons u visits ih => rw [held, List.length_set, ih]

/-- A slot that was visited holds what the last visit returned, another one what it held. -/
theorem getElem?_held (hi : i < slots.length) :
    (held slots visits)[i]? = match latest? visits i with
      | some u => some u.seen.task
      | none => slots[i]? := by
  induction visits with
  | nil => rfl
  | cons u visits ih =>
      rw [held, List.getElem?_set, latest?_cons, length_held]
      by_cases hslot : u.slot = i
      · rw [if_pos hslot, if_pos hslot, if_pos (hslot ▸ hi)]
      · rw [if_neg hslot, if_neg hslot]
        exact ih

/-- Each sub-task that was visited is what its slot held at that moment. -/
def Handed (slots : List (Option TaskId)) : List (SlotVisit σ) → Prop
  | [] => True
  | u :: visits => (held slots visits)[u.slot]? = some (some u.child) ∧ Handed slots visits

theorem lt_of_held {sub : Option TaskId} (h : (held slots visits)[i]? = some sub) :
    i < slots.length :=
  length_held.subst (List.getElem?_eq_some_iff.mp h).1

/-- A slot that was visited was no hole in the beginning. -/
theorem Handed.exists_child (h : Handed slots visits) (hu : u ∈ visits) :
    ∃ child, slots[u.slot]? = some (some child) := by
  induction visits generalizing u with
  | nil => cases hu
  | cons b visits ih =>
      obtain ⟨hchild, hbefore⟩ := h
      rcases List.mem_cons.mp hu with rfl | hmem
      · have hbound := lt_of_held hchild
        rw [getElem?_held hbound] at hchild
        cases hlatest : latest? visits u.slot with
        | none =>
            rw [hlatest] at hchild
            exact ⟨u.child, hchild⟩
        | some b =>
            obtain ⟨hb, hsame⟩ := mem_of_latest? hlatest
            exact hsame ▸ ih hbefore hb
      · exact ih hbefore hmem

/-- What visits of slots make of a node: the same node with other slots. -/
structure Splicing (given : Node) (visits : List (SlotVisit σ)) (node : Node) : Prop where
  kind_eq : node.kind = given.kind
  target_eq : node.target = given.target
  rect_eq : node.rect = given.rect
  bounds_eq : node.bounds = given.bounds
  length_eq : node.subTasks.length = given.subTasks.length
  /-- A slot that was visited holds what the last visit of it returned. -/
  processed : ∀ (i : Nat) u, latest? visits i = some u → node.subTasks[i]? = some u.seen.task
  unprocessed : ∀ (i : Nat), latest? visits i = none → node.subTasks[i]? = given.subTasks[i]?
  hole : ∀ (i : Nat), given.subTasks[i]? = some none → node.subTasks[i]? = some none

theorem Handed.splicing {given : Node} (h : Handed given.subTasks visits) :
    Splicing given visits { given with subTasks := held given.subTasks visits } := by
  have hunvisited : ∀ i, latest? visits i = none →
      (held given.subTasks visits)[i]? = given.subTasks[i]? := by
    intro i hnone
    rcases Nat.lt_or_ge i given.subTasks.length with hi | hi
    · rw [getElem?_held hi, hnone]
    · have hlength : (held given.subTasks visits).length ≤ i := length_held.trans_le hi
      rw [List.getElem?_eq_none hi, List.getElem?_eq_none hlength]
  refine ⟨rfl, rfl, rfl, rfl, length_held, ?_, hunvisited, ?_⟩
  · intro i u hlatest
    obtain ⟨hu, rfl⟩ := mem_of_latest? hlatest
    obtain ⟨child, hchild⟩ := h.exists_child hu
    show (held given.subTasks visits)[u.slot]? = _
    rw [getElem?_held (List.getElem?_eq_some_iff.mp hchild).1, hlatest]
  · intro i hhole
    refine (hunvisited i (latest?_eq_none.mpr ?_)).trans hhole
    rintro u hu rfl
    obtain ⟨child, hchild⟩ := h.exists_child hu
    cases hhole.symm.trans hchild

end SlotVisit

namespace Visit

open Work SlotVisit

/-! ## Tours -/

/-- How far a visit has come with the slots of its node, and the visits of sub-tasks that it made,
the latest first. -/
inductive Tour (maxSteps : Nat) (visitChild : TaskView → Work σ TaskView) (v₀ : TaskView)
    (w₀ : Workspace σ) : List (SlotVisit σ) → SlotPoint → Workspace σ → Prop where
  /-- The first slot is next. -/
  | enter : Tour maxSteps visitChild v₀ w₀ [] ⟨false, 0, v₀⟩ w₀
  /-- A hole is passed over. -/
  | hole {visits p w task n} (before : Tour maxSteps visitChild v₀ w₀ visits p w)
      (task_eq : p.view.task = some task) (node : w.graph.get? task = some n)
      (slot_eq : n.subTasks[p.slot]? = some none) :
      Tour maxSteps visitChild v₀ w₀ visits ⟨p.copied, p.slot + 1, p.view⟩ w
  /-- A sub-task is visited, and what comes back is taken. -/
  | visit {visits p w task child seen w' q w''}
      (before : Tour maxSteps visitChild v₀ w₀ visits p w)
      (descends : Descends p.view w task p.slot child)
      (outcome : (visitChild (p.view.ofChild child)).outcome w = (.ok seen, w'))
      (back : (takeBack maxSteps p task child seen).outcome w' = (.ok q, w'')) :
      Tour maxSteps visitChild v₀ w₀ (⟨p.slot, child, w, seen, w'⟩ :: visits) q w''

/-- Where a tour ends: behind the last slot, or because the gate is dirty. -/
def TourEnds (p : SlotPoint) (w : Workspace σ) (goesOn : Bool) : Prop :=
  if goesOn then
    ∃ task n, p.view.task = some task ∧ w.graph.get? task = some n ∧ n.subTasks.length ≤ p.slot
  else p.view.affects.intersects p.view.gate = true

section Tour

variable {maxSteps limit : Nat} {visitChild : TaskView → Work σ TaskView} {v₀ v' : TaskView}
  {w₀ w w' : Workspace σ} {visits : List (SlotVisit σ)} {p : SlotPoint} {goesOn : Bool}

/-- **The slots are visited in a tour.** From wherever a tour stands, the code takes it to its end.
-/
theorem exists_tour (h : Tour maxSteps visitChild v₀ w₀ visits p w)
    (hfresh : p.view.isStale = false)
    (houtcome : (visitSlots maxSteps visitChild limit p.copied p.slot p.view).outcome w =
      (.ok (v', goesOn), w')) :
    ∃ visits q, Tour maxSteps visitChild v₀ w₀ visits q w' ∧ q.view = v' ∧
      TourEnds q w' goesOn := by
  induction limit generalizing visits p w with
  | zero => cases houtcome
  | succ limit ih =>
      have hthere := (TaskView.isStale_eq_false_iff.mp hfresh).1
      obtain ⟨task, htask⟩ := Option.isSome_iff_exists.mp hthere
      rw [visitSlots_succ maxSteps visitChild limit htask] at houtcome
      obtain ⟨n, w₁, hnode, hrest⟩ := exists_of_outcome_bind houtcome
      obtain ⟨rfl, hn⟩ := (ensures_fetch task w).of_outcome hnode
      rcases hslot : n.subTasks[p.slot]? with _ | _ | child
      · rw [hslot] at hrest
        cases hrest
        exact ⟨visits, p, h, rfl, task, n, htask, hn, List.getElem?_eq_none_iff.mp hslot⟩
      · rw [hslot] at hrest
        exact ih (.hole h htask hn hslot) hfresh hrest
      · rw [hslot] at hrest
        obtain ⟨seen, w₂, hseen, hrest⟩ := exists_of_outcome_bind hrest
        obtain ⟨q, w₃, hback, hrest⟩ := exists_of_outcome_bind hrest
        have hdescends : Descends p.view w₁ task p.slot child := ⟨hfresh, htask, n, hn, hslot⟩
        have hnext := Tour.visit h hdescends hseen hback
        unfold resume at hrest
        split at hrest
        · next hdirty =>
            cases hrest
            exact ⟨_, q, hnext, rfl, hdirty⟩
        · next hclean =>
            have hq : q.view.task.isSome = true := by
              cases (ensures_takeBack maxSteps p task child seen w₂).of_outcome hback with
              | keep => exact hthere
              | splice | again => rfl
            have hfresh' : q.view.isStale = false :=
              TaskView.isStale_eq_false_iff.mpr ⟨hq, Bool.eq_false_iff.mpr hclean⟩
            exact ih hnext hfresh' hrest

/-- Slots are visited only if the node is there. -/
theorem exists_node_of_visitSlots {copied : Bool} {i : Nat} {v : TaskView} {task : TaskId}
    (htask : v.task = some task)
    (houtcome : (visitSlots maxSteps visitChild limit copied i v).outcome w =
      (.ok (v', goesOn), w')) : ∃ n, w.graph.get? task = some n := by
  cases limit with
  | zero => cases houtcome
  | succ limit =>
      rw [visitSlots_succ (p := ⟨copied, i, v⟩) maxSteps visitChild limit htask] at houtcome
      obtain ⟨n, w₁, hnode, _⟩ := exists_of_outcome_bind houtcome
      exact ⟨n, ((ensures_fetch task w).of_outcome hnode).2⟩

/-- A tour that made a visit began at a node. -/
theorem Tour.exists_given (h : Tour maxSteps visitChild v₀ w₀ visits p w) :
    visits = [] ∧ p.view = v₀ ∧ w = w₀ ∨
      ∃ parent given, v₀.task = some parent ∧ w₀.graph.get? parent = some given := by
  induction h with
  | enter => exact Or.inl ⟨rfl, rfl, rfl⟩
  | hole _ htask hnode _ ih =>
      rcases ih with ⟨hnone, rfl, rfl⟩ | hgiven
      · exact Or.inr ⟨_, _, htask, hnode⟩
      · exact Or.inr hgiven
  | visit _ hdescends _ _ ih =>
      rcases ih with ⟨_, rfl, rfl⟩ | hgiven
      · obtain ⟨n, hn, _⟩ := hdescends.slot_eq
        exact Or.inr ⟨_, n, hdescends.task_eq, hn⟩
      · exact Or.inr hgiven

/-! ## What a tour makes of the node -/

theorem size_splice (copied : Bool) (task : TaskId) (n : Node) (slot : Nat) (sub : Option TaskId)
    (g : Graph) : (splice copied task n slot sub g).2.size = g.size + if copied then 0 else 1 := by
  cases copied with
  | true => exact Graph.size_modify ..
  | false => exact Graph.size_insert ..

/-- How a tour stands that began with the node `given` of the task `parent`: the task it is at, what
its slots hold, and how many nodes were added. -/
structure Stands (parent : TaskId) (given : Node) (w₀ : Workspace σ) (visits : List (SlotVisit σ))
    (p : SlotPoint) (w : Workspace σ) (task : TaskId) : Prop where
  task_eq : p.view.task = some task
  grows : w₀.graph.Extends w.graph
  smaller : ∀ u ∈ visits, u.after.graph.size ≤ w.graph.size
  node : w.graph.get? task = some { given with subTasks := held given.subTasks visits }
  size : w.graph.size = w₀.graph.size + addedBy visits + if p.copied then 1 else 0
  /-- The node is copied as soon as a sub-task comes back changed. -/
  copied_iff : p.copied = true ↔ ∃ u ∈ visits, u.Changed
  original : p.copied = false → task = parent
  copy : p.copied = true → w₀.graph.get? task = none
  /-- The copy was not added by the visit of a sub-task. -/
  own : p.copied = true →
    ∀ u ∈ visits, u.after.graph.get? task = none ∨ (u.before.graph.get? task).isSome = true

section Back

variable {parent task child : TaskId} {given : Node} {seen : TaskView} {w'' : Workspace σ}
  {q : SlotPoint}

/-- What the visit of a sub-task leaves behind is larger by the nodes that it added. -/
theorem size_after {u : SlotVisit σ} (h : u.before.graph.Extends u.after.graph) :
    u.after.graph.size = u.before.graph.size + u.added := by
  have hle := h.size_le
  unfold added
  omega

/-- A sub-task came back as it was. -/
theorem Stands.keep (h : Stands parent given w₀ visits p w task)
    (hdescends : Descends p.view w task p.slot child) (hgrows : w.graph.Extends w'.graph)
    (hsame : seen.task = some child) :
    Stands parent given w₀ (⟨p.slot, child, w, seen, w'⟩ :: visits)
      ⟨p.copied, p.slot + 1, absorb p.view seen⟩ (w'.note (slotEntry task p.slot child seen))
      task where
  task_eq := h.task_eq
  grows := h.grows.trans hgrows
  smaller := List.forall_mem_cons.mpr
    ⟨Nat.le_refl _, fun u hu => Nat.le_trans (h.smaller u hu) hgrows.size_le⟩
  node := by
    obtain ⟨n, hn, hslot⟩ := hdescends.slot_eq
    obtain rfl := Option.some.inj (hn.symm.trans h.node)
    obtain ⟨hlt, hchild⟩ := List.getElem?_eq_some_iff.mp hslot
    have hheld : (held given.subTasks visits).set p.slot seen.task =
        held given.subTasks visits := by
      rw [hsame, ← hchild]
      exact List.set_getElem_self hlt
    rw [held, hheld]
    exact hgrows _ _ h.node
  size := by
    have hsize := size_after (u := ⟨p.slot, child, w, seen, w'⟩) hgrows
    have hbefore := h.size
    show w'.graph.size = _
    rw [addedBy]
    dsimp only at hsize ⊢
    omega
  copied_iff := by
    rw [h.copied_iff]
    simp [Changed, hsame]
  original := h.original
  copy := h.copy
  own hcopied := List.forall_mem_cons.mpr
    ⟨Or.inr (Option.isSome_of_eq_some h.node), h.own hcopied⟩

/-- A sub-task came back changed, and the copy of the node received it. -/
theorem Stands.write (h : Stands parent given w₀ visits p w task)
    (hgrows : w.graph.Extends w'.graph) (hother : seen.task ≠ some child)
    (hcopied : q.copied = true)
    (htask : q.view.task = some (splice p.copied task
      { given with subTasks := held given.subTasks visits } p.slot seen.task w'.graph).1)
    (hgraph : w''.graph = (splice p.copied task
      { given with subTasks := held given.subTasks visits } p.slot seen.task w'.graph).2) :
    Stands parent given w₀ (⟨p.slot, child, w, seen, w'⟩ :: visits) q w'' (splice p.copied task
      { given with subTasks := held given.subTasks visits } p.slot seen.task w'.graph).1 := by
  have hnode := hgrows _ _ h.node
  have hsize := size_after (u := ⟨p.slot, child, w, seen, w'⟩) hgrows
  have hwritten := size_splice p.copied task { given with subTasks := held given.subTasks visits }
    p.slot seen.task w'.graph
  have hsmaller : ∀ u ∈ (⟨p.slot, child, w, seen, w'⟩ : SlotVisit σ) :: visits,
      u.after.graph.size ≤ w'.graph.size := List.forall_mem_cons.mpr
    ⟨Nat.le_refl _, fun u hu => Nat.le_trans (h.smaller u hu) hgrows.size_le⟩
  have hnew := splice_only_adds { given with subTasks := held given.subTasks visits } p.slot
    seen.task (h.grows.trans hgrows) h.copy
  refine ⟨htask, hgraph ▸ hnew.1, ?_, ?_, ?_, ?_, ?_, fun _ => hnew.2, ?_⟩
  · intro u hu
    rw [hgraph, hwritten]
    exact Nat.le_add_right_of_le (hsmaller u hu)
  · rw [hgraph]
    exact get?_splice p.copied p.slot seen.task hnode
  · rw [hgraph, hwritten, hcopied, addedBy, hsize, h.size, if_pos rfl]
    cases p.copied <;> simp <;> omega
  · exact iff_of_true hcopied ⟨_, List.mem_cons_self, hother⟩
  · rw [hcopied]
    nofun
  · intro _
    cases hbefore : p.copied with
    | true =>
        exact List.forall_mem_cons.mpr
          ⟨Or.inr (Option.isSome_of_eq_some h.node), h.own hbefore⟩
    | false => exact fun u hu => Or.inl (Graph.get?_nextId_of_le (hsmaller u hu))

/-- A sub-task that came back was taken. -/
theorem Stands.takesBack (h : Stands parent given w₀ visits p w task)
    (hdescends : Descends p.view w task p.slot child) (hgrows : w.graph.Extends w'.graph)
    (hback : TakesBack maxSteps p task child seen w' (.ok q) w'') :
    ∃ task', Stands parent given w₀ (⟨p.slot, child, w, seen, w'⟩ :: visits) q w'' task' := by
  have hnode := hgrows _ _ h.node
  cases hback with
  | keep hsame => exact ⟨task, h.keep hdescends hgrows hsame⟩
  | splice hother hn | again hother hn =>
      obtain rfl := Option.some.inj (hn.symm.trans hnode)
      exact ⟨_, h.write hgrows hother rfl rfl rfl⟩

end Back

/-- **What a tour makes of the node.** -/
theorem Tour.stands {parent : TaskId} {given : Node}
    (hchild : ∀ v (w : Workspace σ), w.graph.Extends ((visitChild v).outcome w).2.graph)
    (hparent : v₀.task = some parent) (hgiven : w₀.graph.get? parent = some given)
    (h : Tour maxSteps visitChild v₀ w₀ visits p w) :
    ∃ task, Stands parent given w₀ visits p w task := by
  induction h with
  | enter =>
      refine ⟨parent, hparent, .refl _, nofun, hgiven, rfl, ?_, fun _ => rfl, nofun, nofun⟩
      exact iff_of_false nofun (by rintro ⟨u, hu, _⟩; cases hu)
  | hole _ htask hnode hslot ih =>
      obtain ⟨task, hstands⟩ := ih
      exact ⟨task, { hstands with }⟩
  | @visit visits p w task child seen w' q w'' _ hdescends houtcome hback ih =>
      obtain ⟨task', hstands⟩ := ih
      obtain rfl := Option.some.inj (hdescends.task_eq.symm.trans hstands.task_eq)
      have hgrows := hchild (p.view.ofChild child) w
      rw [houtcome] at hgrows
      exact hstands.takesBack hdescends hgrows
        ((ensures_takeBack maxSteps p task child seen w').of_outcome hback)

section History

variable {parent : TaskId} {given : Node}
  (hchild : ∀ v (w : Workspace σ), w.graph.Extends ((visitChild v).outcome w).2.graph)
  (hparent : v₀.task = some parent) (hgiven : w₀.graph.get? parent = some given)

include hchild hparent hgiven

/-- What stands in a slot of the present node. -/
theorem Tour.slot_eq (h : Tour maxSteps visitChild v₀ w₀ visits p w) {task : TaskId} {n : Node}
    (htask : p.view.task = some task) (hn : w.graph.get? task = some n) :
    n.subTasks = held given.subTasks visits := by
  obtain ⟨task', hstands⟩ := h.stands hchild hparent hgiven
  obtain rfl := Option.some.inj (htask.symm.trans hstands.task_eq)
  rw [Option.some.inj (hn.symm.trans hstands.node)]

theorem Tour.handed (h : Tour maxSteps visitChild v₀ w₀ visits p w) :
    Handed given.subTasks visits := by
  induction h with
  | enter => trivial
  | hole _ _ _ _ ih => exact ih
  | visit hbefore hdescends _ _ ih =>
      obtain ⟨n, hn, hslot⟩ := hdescends.slot_eq
      rw [hbefore.slot_eq hchild hparent hgiven hdescends.task_eq hn] at hslot
      exact ⟨hslot, ih⟩

/-- Of the slots that a tour left behind only holes were not visited. -/
theorem Tour.visited (h : Tour maxSteps visitChild v₀ w₀ visits p w) {i : Nat} {child : TaskId}
    (hi : i < p.slot) (hslot : given.subTasks[i]? = some (some child)) :
    (latest? visits i).isSome = true := by
  induction h with
  | enter => cases hi
  | @hole visits p w task n hbefore htask hn hhole ih =>
      rcases Nat.lt_succ_iff_lt_or_eq.mp hi with hlt | rfl
      · exact ih hlt
      · rw [hbefore.slot_eq hchild hparent hgiven htask hn,
          getElem?_held (List.getElem?_eq_some_iff.mp hslot).1] at hhole
        cases hlatest : latest? visits p.slot with
        | some u => rfl
        | none =>
            rw [hlatest] at hhole
            cases hslot.symm.trans hhole
  | @visit visits p w task child' seen w' q w'' _ _ _ hback ih =>
      rw [latest?_cons]
      split
      · rfl
      · next hother =>
          have hstep : q.slot ≤ p.slot + 1 := by
            cases (ensures_takeBack maxSteps p task child' seen w').of_outcome hback with
            | keep | splice => exact Nat.le_refl _
            | again => exact Nat.le_succ _
          dsimp only at hother
          exact ih (by omega)

end History

end Tour

/-- What the part of a visit that goes through the slots, from `v` and `w` on, has made of the node
`given` of the task `parent` where it ends. `visits` are the visits of sub-tasks in it, the latest
first. -/
structure Splices (maxSteps : Nat) (visitChild : TaskView → Work σ TaskView) (v : TaskView)
    (w : Workspace σ) (v' : TaskView) (goesOn : Bool) (w' : Workspace σ)
    (visits : List (SlotVisit σ)) (parent : TaskId) (given : Node) (task : TaskId)
    (node : Node) : Prop where
  parent_eq : v.task = some parent
  given_eq : w.graph.get? parent = some given
  tour : ∃ p, Tour maxSteps visitChild v w visits p w' ∧ p.view = v'
  task_eq : v'.task = some task
  node_eq : w'.graph.get? task = some node
  splicing : Splicing given visits node
  grows : w.graph.Extends w'.graph
  /-- No sub-task came back changed: the task is the same, and only visits of sub-tasks added
  nodes. -/
  same : (∀ u ∈ visits, ¬ u.Changed) →
    task = parent ∧ w'.graph.size = w.graph.size + addedBy visits
  /-- Some sub-task came back changed: the task is new, no visit of a sub-task added it, and it is
  the only such node. -/
  copy : (∃ u ∈ visits, u.Changed) →
    w.graph.get? task = none ∧
      (∀ u ∈ visits, u.after.graph.get? task = none ∨
        (u.before.graph.get? task).isSome = true) ∧
      w'.graph.size = w.graph.size + addedBy visits + 1
  /-- All slots with a sub-task were visited, or the gate is dirty. -/
  ends : if goesOn then
      ∀ (i : Nat) child, given.subTasks[i]? = some (some child) →
        (latest? visits i).isSome = true
    else v'.affects.intersects v'.gate = true

/-- **What becomes of a node while its slots are visited.** Take a visit with rules that change no
node that exists, at the moment when the early rules are done and the visit goes on to the slots.
Where this part ends, all slots done or the gate dirty, the task has a node like the one it had,
with what the last visit of each slot returned in that slot. It is the same task if no sub-task came
back changed. Else it is a copy, and the only one that this visit took, however many sub-tasks came
back changed and however often. -/
theorem visitSlots_splices {maxSteps limit : Nat} {rules : List (Member σ)}
    (hrules : ∀ m ∈ rules, m.rule.Additive) {v₀ v v' : TaskView} {w₀ w w' : Workspace σ}
    {goesOn : Bool} (hfresh : v₀.isStale = false)
    (hearly : (applyRules false rules v₀).outcome w₀ = (.ok (v, true), w))
    (hslots : (visitSlots maxSteps (visit maxSteps rules true limit) limit false 0 v).outcome w =
      (.ok (v', goesOn), w')) :
    ∃ visits parent given task node, Splices maxSteps (visit maxSteps rules true limit) v w v'
      goesOn w' visits parent given task node := by
  have hbegins := @Course.enter σ maxSteps rules w₀ v₀
  have hrulesDone :=
    (ensures_applyRules false (List.Subset.refl _) hbegins hfresh).of_outcome hearly
  have hv : v.isStale = false := hrulesDone.2 rfl
  have hchild : ∀ v (w : Workspace σ),
      w.graph.Extends ((visit maxSteps rules true limit v).outcome w).2.graph :=
    fun v w => visit_only_adds hrules true limit w v
  obtain ⟨visits, p, htour, rfl, hends⟩ := exists_tour .enter hv hslots
  obtain ⟨parent, hparent⟩ :=
    Option.isSome_iff_exists.mp (TaskView.isStale_eq_false_iff.mp hv).1
  obtain ⟨given, hgiven⟩ := exists_node_of_visitSlots hparent hslots
  obtain ⟨task, hstands⟩ := htour.stands hchild hparent hgiven
  refine ⟨visits, parent, given, task, _, hparent, hgiven, ⟨p, htour, rfl⟩, hstands.task_eq,
    hstands.node, (htour.handed hchild hparent hgiven).splicing, hstands.grows, ?_, ?_, ?_⟩
  · intro hsame
    have hcopied : p.copied = false := by
      refine Bool.eq_false_iff.mpr fun hcopied => ?_
      obtain ⟨u, hu, hchanged⟩ := hstands.copied_iff.mp hcopied
      exact hsame u hu hchanged
    refine ⟨hstands.original hcopied, ?_⟩
    simpa [hcopied] using hstands.size
  · intro hchanged
    have hcopied := hstands.copied_iff.mpr hchanged
    refine ⟨hstands.copy hcopied, hstands.own hcopied, ?_⟩
    simpa [hcopied] using hstands.size
  · cases goesOn with
    | false => exact hends
    | true =>
        obtain ⟨last, n, hlast, hn, hdone⟩ := hends
        intro i child hslot
        rw [htour.slot_eq hchild hparent hgiven hlast hn, length_held] at hdone
        exact htour.visited hchild hparent hgiven
          (Nat.lt_of_lt_of_le (List.getElem?_eq_some_iff.mp hslot).1 hdone) hslot

end Visit

/-! ### Tidying

The first slot is visited three times, the second one is a hole, and the third one holds a node that
its own visit copies, and then the copy. Behind the fourth slot the gate is dirty, and the last one
is not visited. -/

/-- A rule that removes blank tasks and takes wraps off, one at a time, and wants the whole branch
repeated then. An odd task unsettles the first category. -/
def Rule.tidying : Rule Unit where
  name := "tidy"
  descriptor :=
    { Descriptor.ofCategory .convert with forTask := true, dependsFrom := Category.common.mask }
  runTask c := { call :=
    match (c.view.task.bind c.graph.get?).map fun n => (n.name, n.subTasks) with
    | some ("blank", _) => { c with view := { c.view with task := none, mode := .branch } }
    | some ("wrap", [sub]) => { c with view := { c.view with task := sub, mode := .branch } }
    | some ("odd", _) => { c with view := { c.view with affects := Category.common.mask } }
    | _ => c }

theorem Rule.additive_tidying : Rule.tidying.Additive where
  list _ := .refl _
  task c := by
    dsimp only [Rule.tidying]
    split <;> exact .refl _

/-- The rule alone. -/
def tidyingSetup : Setup Unit where
  rules _ := .tidying
  registry := ⟨fun c => if c = .convert then [⟨0⟩] else []⟩
  maxSteps := 64
  logSteps := false
  visitLimit := 8

/-- A node with a leaf that is wrapped twice, a hole, a box with a blank task, an odd task, and the
leaf once more. -/
def untidyGraph : Graph :=
  let node (name : String) (subs : List (Option TaskId)) : Node :=
    { Node.ofKind ⟨0, name, none, {}⟩ with subTasks := subs }
  ⟨#[node "leaf" [], node "wrap" [some ⟨0⟩], node "wrap" [some ⟨1⟩], node "blank" [],
    node "box" [some ⟨3⟩], node "odd" [],
    node "top" [some ⟨2⟩, none, some ⟨4⟩, some ⟨5⟩, some ⟨0⟩]]⟩

theorem Visit.visitSlots_splices_tidying :
    let rules : List (Member Unit) := [⟨⟨0⟩, .tidying⟩]
    let v := TaskView.ofEntry [some ⟨6⟩] Category.common.mask ⟨6⟩
    let w := ((applyRules false rules v).outcome ⟨(), untidyGraph, 0, []⟩).2
    let v' : TaskView :=
      { v with task := some ⟨7⟩, affects := Category.common.mask, mode := .branch }
    let w' := ((visitSlots 64 (visit 64 rules true 8) 8 false 0 v).outcome w).2
    w'.graph.slots ⟨7⟩ = [some ⟨0⟩, none, some ⟨8⟩, some ⟨5⟩, some ⟨0⟩] ∧
      w'.graph.size = w.graph.size + 1 + 1 ∧
      ∃ visits parent given task node, Splices 64 (visit 64 rules true 8) v w v' false w'
        visits parent given task node := by
  intro rules v w v' w'
  have hearly : ((applyRules false rules v).outcome ⟨(), untidyGraph, 0, []⟩).1 =
      .ok (v, true) := by decide +kernel
  have hcut : ((visitSlots 64 (visit 64 rules true 8) 8 false 0 v).outcome w).1 =
      .ok (v', false) := by decide +kernel
  refine ⟨by decide +kernel, by decide +kernel, ?_⟩
  apply visitSlots_splices _ (by decide) (Prod.ext hearly rfl) (Prod.ext hcut rfl)
  intro m hm
  obtain rfl := List.mem_singleton.mp hm
  exact Rule.additive_tidying

end RenderPlan
