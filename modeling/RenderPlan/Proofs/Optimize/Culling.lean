/-
# RenderPlan.Proofs.Optimize.Culling -- a visit that takes sub-tasks out of a node

Where the visits of the sub-tasks do nothing but keep some of them and remove the others, the visit
of the node leaves the node with holes in the place of those that were removed
(`Visit.visitSlots_culls`). The node itself is left alone: the first removal takes a copy, and that
copy receives all holes. Everything that the graph had before is there afterwards, unchanged.
-/
import RenderPlan.Proofs.Optimize.Traversal
import RenderPlan.Proofs.Optimize.WellFormed

namespace RenderPlan

variable {σ : Type}

namespace Node

/-- The node with holes for those sub-tasks of the first `k` slots that are not kept. -/
def culled (keep : TaskId → Bool) (k : Nat) (n : Node) : Node :=
  { n with subTasks := (n.subTasks.take k).map (Option.filter keep) ++ n.subTasks.drop k }

variable {keep : TaskId → Bool} {n : Node} {i j : Nat} {slot : Option TaskId}

theorem length_culled (keep : TaskId → Bool) (i : Nat) (n : Node) :
    (n.culled keep i).subTasks.length = n.subTasks.length := by
  simp only [culled, List.length_append, List.length_map, List.length_take, List.length_drop]
  omega

/-- The later slots are as they were. -/
theorem getElem?_culled (h : i ≤ j) : (n.culled keep i).subTasks[j]? = n.subTasks[j]? := by
  rcases Nat.lt_or_ge j n.subTasks.length with hj | hj
  · have hlen : ((n.subTasks.take i).map (Option.filter keep)).length = i := by
      rw [List.length_map, List.length_take]
      omega
    rw [culled, List.getElem?_append_right (by omega), hlen, List.getElem?_drop]
    congr 1
    omega
  · rw [List.getElem?_eq_none hj, List.getElem?_eq_none (by rw [length_culled]; exact hj)]

/-- One slot more. -/
theorem culled_succ (h : n.subTasks[i]? = some slot) :
    n.culled keep (i + 1) = (n.culled keep i).withSlot i (slot.filter keep) := by
  obtain ⟨hi, rfl⟩ := List.getElem?_eq_some_iff.mp h
  have hlen : ((n.subTasks.take i).map (Option.filter keep)).length = i := by
    rw [List.length_map, List.length_take]
    omega
  have hset : (n.culled keep i).subTasks.set i (n.subTasks[i].filter keep) =
      (n.subTasks.take i).map (Option.filter keep) ++
        n.subTasks[i].filter keep :: n.subTasks.drop (i + 1) := by
    rw [culled, List.drop_eq_getElem_cons hi]
    dsimp only
    rw [List.set_append_right _ _ (by omega), hlen, Nat.sub_self]
    rfl
  rw [withSlot, hset, culled, culled]
  congr 1
  rw [List.take_add_one, List.map_append, List.append_assoc, h]
  rfl

/-- A slot that is kept stays. -/
theorem culled_succ_of_kept (h : n.subTasks[i]? = some slot) (hkept : slot.filter keep = slot) :
    n.culled keep (i + 1) = n.culled keep i := by
  have hslot : (n.culled keep i).subTasks[i]? = some slot := (getElem?_culled (Nat.le_refl i)).trans h
  obtain ⟨hi, hget⟩ := List.getElem?_eq_some_iff.mp hslot
  rw [culled_succ h, hkept, withSlot, ← hget, List.set_getElem_self]

/-- In the end the sub-tasks that are kept are left. -/
theorem children_culled (keep : TaskId → Bool) (n : Node) :
    (n.culled keep n.subTasks.length).children = n.children.filter keep := by
  rw [children, children, culled, List.take_length, List.drop_length, List.append_nil,
    List.filterMap_map, List.filter_filterMap]
  rfl

end Node

namespace Visit

open Work

variable {g : Graph} {maxSteps : Nat} {w : Workspace σ} {p : SlotPoint} {task child : TaskId}
  {n : Node} {seen : TaskView}

/-- Writing into a node that the graph does not have, or into a copy, leaves the graph alone. -/
theorem extends_splice {g' : Graph} {copied : Bool} (slot : Nat) (sub : Option TaskId)
    (hext : g.Extends g') (hnew : copied = true → g.get? task = none) :
    g.Extends (splice copied task n slot sub g').2 := by
  cases copied with
  | false => exact hext.trans (.insert _ _)
  | true =>
      intro id m hm
      have hne : id ≠ task := by
        rintro rfl
        rw [hnew rfl] at hm
        cases hm
      exact (Graph.get?_modify_of_ne hne _).trans (hext id m hm)

/-- The node that was written into is no node of the graph. -/
theorem get?_splice_eq_none {g' : Graph} {copied : Bool} (slot : Nat) (sub : Option TaskId)
    (hext : g.Extends g') (hnew : copied = true → g.get? task = none) :
    g.get? (splice copied task n slot sub g').1 = none := by
  cases copied with
  | false => exact hext.eq_none (Graph.get?_nextId g')
  | true => exact hnew rfl

/-- A sub-task that was removed leaves a hole, in a node that the graph did not have. -/
theorem takeBack_removed (maxSteps : Nat) (child : TaskId) (hgone : seen.task = none)
    (hseen : Untouched seen) (hn : w.graph.get? task = some n) (hslot : p.slot < n.subTasks.length)
    (hnew : p.copied = true → g.get? task = none) (hext : g.Extends w.graph) :
    ∃ task' w', (takeBack maxSteps p task child seen).outcome w =
        (.ok ⟨true, p.slot + 1, { p.view with task := some task' }⟩, w') ∧
      w'.graph.get? task' = some (n.withSlot p.slot none) ∧ g.get? task' = none ∧
      g.Extends w'.graph ∧ w'.steps = w.steps := by
  have hback := ensures_takeBack maxSteps p task child seen w
  unfold Ensures at hback
  generalize (takeBack maxSteps p task child seen).outcome w = r at hback
  obtain ⟨r, w'⟩ := r
  have honce : seen.mode.contains .last = false := by
    rw [hseen.mode]
    rfl
  cases hback with
  | keep hsame =>
      rw [hgone] at hsame
      cases hsame
  | splice _ hm =>
      obtain rfl := Option.some.inj (hn.symm.trans hm)
      rw [hgone, absorb_untouched hseen]
      exact ⟨_, _, rfl, get?_splice p.copied p.slot none hn, get?_splice_eq_none _ _ hext hnew,
        extends_splice _ _ hext hnew, rfl⟩
  | again _ _ _ hrepeats | exhausted _ _ _ hrepeats =>
      rw [honce] at hrepeats
      cases hrepeats
  | unwritten _ habsent => exact absurd hslot (Nat.not_lt_of_le (habsent n hn))

/-- A visit of the slots of a node, between two slots: those in front are culled. `n` is the node as the
visit found it, and `g` is what was there before; nothing that it has was written to. -/
structure Culls (g : Graph) (keep : TaskId → Bool) (n : Node) (w : Workspace σ) (p : SlotPoint)
    (task : TaskId) : Prop where
  untouched : Untouched p.view
  present : p.view.task = some task
  node : w.graph.get? task = some (n.culled keep p.slot)
  fresh : p.copied = true → g.get? task = none
  grown : g.Extends w.graph
  slot_le : p.slot ≤ n.subTasks.length

variable {keep : TaskId → Bool}

/-- A slot that stays as it is. -/
theorem Culls.skip {slot : Option TaskId} {w' : Workspace σ} (h : Culls g keep n w p task)
    (hget : n.subTasks[p.slot]? = some slot) (hkept : slot.filter keep = slot)
    (hgraph : w'.graph = w.graph) : Culls g keep n w' ⟨p.copied, p.slot + 1, p.view⟩ task where
  untouched := h.untouched
  present := h.present
  node := by rw [hgraph, h.node, Node.culled_succ_of_kept hget hkept]
  fresh := h.fresh
  grown := hgraph ▸ h.grown
  slot_le := (List.getElem?_eq_some_iff.mp hget).1

/-- What comes back from the visit of a sub-task is kept or taken out. -/
theorem Culls.takeBack (h : Culls g keep n w p task)
    (hget : n.subTasks[p.slot]? = some (some child)) (hseen : seen.task = (some child).filter keep)
    (huntouched : Untouched seen) :
    ∃ copied task' w', (takeBack maxSteps p task child seen).outcome w =
        (.ok ⟨copied, p.slot + 1, { p.view with task := some task' }⟩, w') ∧
      Culls g keep n w' ⟨copied, p.slot + 1, { p.view with task := some task' }⟩ task' ∧
      w'.steps = w.steps := by
  cases hkeep : keep child with
  | true =>
      have hkept : seen.task = some child := by rw [hseen, Option.filter_some, if_pos hkeep]
      have hview : ({ p.view with task := some task } : TaskView) = p.view := by rw [← h.present]
      refine ⟨p.copied, task, w.note (slotEntry task p.slot child seen), ?_, ?_, rfl⟩
      · rw [takeBack_untouched hkept huntouched, hview]
      · rw [hview]
        exact h.skip hget (hseen.symm.trans hkept) rfl
  | false =>
      have hgone : seen.task = none := by
        rw [hseen, Option.filter_some, if_neg (Bool.eq_false_iff.mp hkeep)]
      have hlt := (List.getElem?_eq_some_iff.mp hget).1
      have hbound : p.slot < (n.culled keep p.slot).subTasks.length := by rwa [Node.length_culled]
      obtain ⟨copy, w', hback, hcopy, hnew, hgrown, hsteps⟩ :=
        takeBack_removed maxSteps child hgone huntouched h.node hbound h.fresh h.grown
      rw [← hgone, hseen, ← Node.culled_succ hget] at hcopy
      exact ⟨true, copy, w', hback,
        ⟨⟨h.untouched.affects, h.untouched.mode⟩, rfl, hcopy, fun _ => hnew, hgrown, hlt⟩, hsteps⟩

/-- **A visit of the slots takes out what is not kept**, if the visits of sub-tasks are right in every
graph that extends the one that was there before. -/
theorem visitSlots_culls (maxSteps limit : Nat) {visitChild : TaskView → Work σ TaskView}
    (hchild : ∀ child ∈ n.children, ∀ (v : TaskView) (w : Workspace σ), g.Extends w.graph →
      ∃ seen w', (visitChild (v.ofChild child)).outcome w = (.ok seen, w') ∧
        seen.task = (some child).filter keep ∧ Untouched seen ∧
        w'.graph = w.graph ∧ w'.steps = w.steps)
    (h : Culls g keep n w p task) (hlimit : n.subTasks.length < limit + p.slot) :
    ∃ task' w', (visitSlots maxSteps visitChild limit p.copied p.slot p.view).outcome w =
        (.ok ({ p.view with task := some task' }, true), w') ∧
      w'.graph.get? task' = some (n.culled keep n.subTasks.length) ∧
      g.Extends w'.graph ∧ w'.steps = w.steps := by
  induction limit generalizing p w task with
  | zero =>
      have hle := h.slot_le
      omega
  | succ limit ih =>
      rw [visitSlots_succ _ _ _ h.present, outcome_bind, outcome_fetch, h.node]
      dsimp only
      rw [Node.getElem?_culled (Nat.le_refl _)]
      rcases hget : n.subTasks[p.slot]? with _ | _ | child
      · -- all slots are done
        have hend : p.slot = n.subTasks.length :=
          Nat.le_antisymm h.slot_le (List.getElem?_eq_none_iff.mp hget)
        refine ⟨task, w, ?_, hend ▸ h.node, h.grown, rfl⟩
        rw [← h.present]
        rfl
      · exact ih (h.skip hget rfl rfl) (by dsimp only; omega)
      · have hmem : child ∈ n.children :=
          List.mem_filterMap.mpr ⟨_, List.mem_of_getElem? hget, rfl⟩
        obtain ⟨seen, u, hvisit, hseen, huntouched, hgraph, hsteps⟩ :=
          hchild child hmem p.view w h.grown
        have hu : Culls g keep n u p task :=
          ⟨h.untouched, h.present, hgraph ▸ h.node, h.fresh, hgraph ▸ h.grown, h.slot_le⟩
        obtain ⟨copied, copy, u', hback, hu', hsteps'⟩ := hu.takeBack hget hseen huntouched
        obtain ⟨task', w', hrest, hnode, hgrown, hsteps''⟩ := ih hu' (by dsimp only; omega)
        dsimp only
        rw [outcome_bind, hvisit]
        dsimp only
        rw [outcome_bind, hback]
        simp only [resume, h.untouched.clean, Bool.false_eq_true, if_false]
        exact ⟨task', w', hrest, hnode, hgrown, hsteps''.trans (hsteps'.trans hsteps)⟩

end Visit

end RenderPlan
