/-
# RenderPlan.Proofs.Graph.PostOrder -- trees as a list, sub-tasks first

A walk through the unfolded trees of a list is done with one node after the other (`Tree.completed`),
and with a node that stands in several places more than once. `Graph.postOrder` lists a node when the
walk is done with it for the first time (`postOrder_eq`). At that time the sub-tasks of whatever is
listed are listed too (`SubTasksFirst`).

From this follows what the list is good for (`exists_postOrder`): it has everything below the entries,
nothing else and nothing twice, with sub-tasks first. A list that is in such an order already is left
as it is (`Flattens.postOrder_eq`). Of trees of two levels without shared nodes it has the leaves of the
first one, then its top, and so on (`postOrder_of_shallow`).
-/
import RenderPlan.Graph.Walk
import RenderPlan.Proofs.Graph.Unfolding

namespace RenderPlan

namespace Tree

mutual

/-- The nodes of a tree in the order in which a walk from left to right is done with them. -/
def completed : Tree → List TaskId
  | hole => []
  | node id slots => completedSlots slots ++ [id]

/-- The nodes of trees side by side. -/
def completedSlots : List Tree → List TaskId
  | [] => []
  | t :: slots => completed t ++ completedSlots slots

end

@[simp] theorem completedSlots_eq (slots : List Tree) :
    completedSlots slots = slots.flatMap completed := by
  induction slots with
  | nil => rfl
  | cons t slots ih => rw [completedSlots, List.flatMap_cons, ih]

end Tree

namespace Graph

variable {g : Graph} {task sub : TaskId} {n : Node} {listed l : List TaskId} {depth : Nat}
  {slots list : List (Option TaskId)} {trees : List Tree}

theorem hasSubTask_iff_mem_children (hn : g.get? task = some n) :
    g.HasSubTask task sub ↔ sub ∈ n.children := by
  rw [hasSubTask_iff hn, Node.children, List.mem_filterMap]
  simp

/-! ## Listing -/

/-- Lists a node unless it is listed, the latest first. -/
def enlist (listed : List TaskId) (task : TaskId) : List TaskId :=
  if task ∈ listed then listed else task :: listed

theorem mem_enlist : sub ∈ enlist listed task ↔ sub = task ∨ sub ∈ listed := by
  unfold enlist
  split
  · next h => exact ⟨Or.inr, fun hsub => hsub.elim (fun heq => heq ▸ h) id⟩
  · exact List.mem_cons

theorem mem_foldl_enlist : sub ∈ l.foldl enlist listed ↔ sub ∈ l ∨ sub ∈ listed := by
  induction l generalizing listed with
  | nil => simp
  | cons task l ih =>
      rw [List.foldl_cons, ih, mem_enlist, List.mem_cons, or_left_comm, or_assoc]

theorem nodup_foldl_enlist (h : listed.Nodup) : (l.foldl enlist listed).Nodup := by
  induction l generalizing listed with
  | nil => exact h
  | cons task l ih =>
      apply ih
      unfold enlist
      split
      · exact h
      · next hnew => exact List.nodup_cons.mpr ⟨hnew, h⟩

/-- Nothing happens to nodes that are listed. -/
theorem foldl_enlist_of_subset (h : ∀ a ∈ l, a ∈ listed) : l.foldl enlist listed = listed := by
  induction l with
  | nil => rfl
  | cons task l ih =>
      obtain ⟨hfirst, hrest⟩ := List.forall_mem_cons.mp h
      rw [List.foldl_cons, enlist, if_pos hfirst]
      exact ih hrest

/-- Of nodes that are listed but for one, this one is added. -/
theorem foldl_enlist_eq_cons (h : ∀ a ∈ l, a ∈ task :: listed) (hmem : task ∈ l)
    (hnew : task ∉ listed) : l.foldl enlist listed = task :: listed := by
  induction l with
  | nil => cases hmem
  | cons a l ih =>
      obtain ⟨hfirst, hrest⟩ := List.forall_mem_cons.mp h
      rw [List.foldl_cons, enlist]
      split
      · next hold =>
          have hne : task ≠ a := fun heq => hnew (heq ▸ hold)
          exact ih hrest ((List.mem_cons.mp hmem).resolve_left hne)
      · next hfree =>
          obtain rfl : a = task := (List.mem_cons.mp hfirst).resolve_right hfree
          exact foldl_enlist_of_subset hrest

/-- Nodes that are all new are all listed. -/
theorem foldl_enlist_of_nodup (h : (l.reverse ++ listed).Nodup) :
    l.foldl enlist listed = l.reverse ++ listed := by
  induction l generalizing listed with
  | nil => rfl
  | cons task l ih =>
      rw [List.reverse_cons, List.append_assoc, List.singleton_append] at h ⊢
      rw [List.foldl_cons, enlist, if_neg (List.nodup_cons.mp h.of_append_right).1]
      exact ih h

/-- From the first node to the last one the nodes stand where they were first. -/
theorem reverse_foldl_enlist (l : List TaskId) : (l.foldl enlist []).reverse = l.eraseDups := by
  have hloop : ∀ (l listed : List TaskId),
      (l.foldl enlist listed).reverse = List.eraseDupsBy.loop (· == ·) l listed := by
    intro l
    induction l with
    | nil => exact fun _ => rfl
    | cons task l ih =>
        intro listed
        have hany : (listed.any fun b => task == b) = decide (task ∈ listed) := by
          rw [Bool.eq_iff_iff]
          simp
        rw [List.foldl_cons, ih, List.eraseDupsBy.loop, hany, enlist]
        split <;> next h => simp [h]
  exact hloop l []

/-- The sub-tasks of every node stand behind it. -/
def SubTasksFirst (g : Graph) : List TaskId → Prop
  | [] => True
  | task :: listed => (∀ sub, g.HasSubTask task sub → sub ∈ listed) ∧ g.SubTasksFirst listed

theorem SubTasksFirst.mem_of_hasSubTask (h : g.SubTasksFirst listed) (hmem : task ∈ listed)
    (hsub : g.HasSubTask task sub) : sub ∈ listed := by
  induction listed with
  | nil => cases hmem
  | cons a listed ih =>
      rcases List.mem_cons.mp hmem with rfl | hmem
      · exact List.mem_cons_of_mem _ (h.1 sub hsub)
      · exact List.mem_cons_of_mem _ (ih h.2 hmem)

/-- There is nothing new below a node that is listed. -/
theorem SubTasksFirst.mem_of_reaches (h : g.SubTasksFirst listed) (hmem : task ∈ listed)
    (hreach : g.Reaches task sub) : sub ∈ listed := by
  induction hreach with
  | refl => exact hmem
  | step _ hsub ih => exact h.mem_of_hasSubTask ih hsub

theorem SubTasksFirst.of_append (h : g.SubTasksFirst (l ++ listed)) : g.SubTasksFirst listed := by
  induction l with
  | nil => exact h
  | cons a l ih => exact ih h.2

theorem subTasksFirst_of_split (h : ∀ after task before, listed = after ++ task :: before →
    ∀ sub, g.HasSubTask task sub → sub ∈ before) : g.SubTasksFirst listed := by
  induction listed with
  | nil => trivial
  | cons a listed ih =>
      refine ⟨h [] a listed rfl, ih fun after task before heq => ?_⟩
      exact h (a :: after) task before (congrArg _ heq)

theorem SubTasksFirst.enlist (h : g.SubTasksFirst listed)
    (hsub : ∀ sub, g.HasSubTask task sub → sub ∈ listed) :
    g.SubTasksFirst (Graph.enlist listed task) := by
  unfold Graph.enlist
  split
  · exact h
  · exact ⟨hsub, h⟩

/-! ## The walk -/

/-- A walk through the unfolding of a task is done with exactly what is reached from there. -/
theorem mem_completed_iff {t : Tree} (h : g.unfold depth (some task) = .ok t) :
    sub ∈ t.completed ↔ g.Reaches task sub := by
  induction depth generalizing task t with
  | zero => cases h
  | succ depth ih =>
      obtain ⟨n, slots, hn, hslots, rfl⟩ := unfold_eq_ok_iff.mp h
      rw [Tree.completed, Tree.completedSlots_eq, List.mem_append, List.mem_singleton]
      constructor
      · rintro (hmem | rfl)
        · obtain ⟨t, ht, hsub⟩ := List.mem_flatMap.mp hmem
          obtain ⟨slot, hslot, hunfold⟩ := exists_of_mem_result hslots ht
          cases slot with
          | none =>
              rw [unfold_none, Except.ok.injEq] at hunfold
              rw [← hunfold] at hsub
              cases hsub
          | some first => exact .head ⟨n, hn, hslot⟩ ((ih hunfold).mp hsub)
        · exact .refl sub
      · intro hreach
        rcases hreach.cases_head with rfl | ⟨first, hfirst, hrest⟩
        · exact Or.inr rfl
        · obtain ⟨t, ht, hunfold⟩ := exists_result_of_mem hslots ((hasSubTask_iff hn).mp hfirst)
          exact Or.inl (List.mem_flatMap.mpr ⟨t, ht, (ih hunfold).mpr hrest⟩)

/-- The walk from a task lists what the unfolding is done with, and sub-tasks stay first. -/
def Walks (g : Graph) (depth : Nat) (task : TaskId) (t : Tree) : Prop :=
  ∀ listed, g.place depth task listed = .ok (t.completed.foldl enlist listed) ∧
    (g.SubTasksFirst listed → g.SubTasksFirst (t.completed.foldl enlist listed))

/-- Trees side by side are walked through one after the other. -/
theorem walks_slots (hslots : slots.mapM (g.unfold depth) = .ok trees)
    (hwalks : ∀ task t, g.unfold depth (some task) = .ok t → g.Walks depth task t)
    (listed : List TaskId) :
    (slots.filterMap id).foldlM (fun listed task => g.place depth task listed) listed =
        .ok ((trees.flatMap Tree.completed).foldl enlist listed) ∧
      (g.SubTasksFirst listed →
        g.SubTasksFirst ((trees.flatMap Tree.completed).foldl enlist listed)) := by
  induction mapM_eq_ok_iff.mp hslots generalizing listed with
  | nil => exact ⟨rfl, id⟩
  | @cons slot t slots trees hfirst hrest ih =>
      have hrest := mapM_eq_ok_iff.mpr hrest
      cases slot with
      | none =>
          rw [unfold_none, Except.ok.injEq] at hfirst
          rw [← hfirst]
          exact ih hrest listed
      | some task =>
          obtain ⟨hplace, hfirst⟩ := hwalks task t hfirst listed
          have hsome : (some task :: slots).filterMap id = task :: slots.filterMap id := rfl
          obtain ⟨hothers, hlast⟩ := ih hrest (t.completed.foldl enlist listed)
          rw [hsome, List.foldlM_cons, hplace, List.flatMap_cons, List.foldl_append]
          exact ⟨hothers, hlast ∘ hfirst⟩

theorem walks {t : Tree} (h : g.unfold depth (some task) = .ok t) : g.Walks depth task t := by
  induction depth generalizing task t with
  | zero => cases h
  | succ depth ih =>
      obtain ⟨n, slots, hn, hslots, rfl⟩ := unfold_eq_ok_iff.mp h
      intro listed
      obtain ⟨hbelow, hfirst⟩ := walks_slots hslots (fun _ _ => ih) listed
      rw [Tree.completed, Tree.completedSlots_eq, List.foldl_append, List.foldl_cons, List.foldl_nil]
      constructor
      · exact bind_eq_ok_iff.mpr ⟨n, fetch_eq_ok_iff.mpr hn, bind_eq_ok_iff.mpr ⟨_, hbelow, rfl⟩⟩
      · intro hlisted
        refine (hfirst hlisted).enlist fun sub hsub => ?_
        obtain ⟨t, ht, hunfold⟩ := exists_result_of_mem hslots ((hasSubTask_iff hn).mp hsub)
        refine mem_foldl_enlist.mpr (Or.inl (List.mem_flatMap.mpr ⟨t, ht, ?_⟩))
        exact (mem_completed_iff hunfold).mpr (.refl sub)

/-- **The list has each node where the walk is done with it for the first time.** -/
theorem postOrder_eq (h : g.trees list = .ok trees) :
    g.postOrder list = .ok (trees.flatMap Tree.completed).eraseDups := by
  have hwalk := (walks_slots h (fun _ _ => walks) []).1
  rw [postOrder, hwalk, ← reverse_foldl_enlist]
  rfl

/-! ## The list -/

/-- The list has everything below the entries, and each node once. All sub-tasks of a node stand in
front of it, and nodes stand in the order in which a walk through the unfolded entries is done with
them for the first time. -/
structure Flattens (g : Graph) (list : List (Option TaskId)) (order : List TaskId) : Prop where
  complete : ∀ task, task ∈ order ↔ ∃ root, some root ∈ list ∧ g.Reaches root task
  once : order.Nodup
  subTasks_first : ∀ before task after, order = before ++ task :: after →
    ∀ sub, g.HasSubTask task sub → sub ∈ before
  first_completed : ∃ trees, g.trees list = .ok trees ∧
    order = (trees.flatMap Tree.completed).eraseDups

theorem flattens_of_trees (h : g.trees list = .ok trees) :
    g.Flattens list (trees.flatMap Tree.completed).eraseDups where
  complete task := by
    rw [List.mem_eraseDups, List.mem_flatMap]
    constructor
    · rintro ⟨t, ht, hmem⟩
      obtain ⟨slot, hslot, hunfold⟩ := exists_of_mem_result h ht
      cases slot with
      | none =>
          rw [unfold_none, Except.ok.injEq] at hunfold
          rw [← hunfold] at hmem
          cases hmem
      | some root => exact ⟨root, hslot, (mem_completed_iff hunfold).mp hmem⟩
    · rintro ⟨root, hroot, hreach⟩
      obtain ⟨t, ht, hunfold⟩ := exists_result_of_mem h hroot
      exact ⟨t, ht, (mem_completed_iff hunfold).mpr hreach⟩
  once := by
    rw [← reverse_foldl_enlist]
    exact List.nodup_reverse.mpr (nodup_foldl_enlist List.nodup_nil)
  subTasks_first before task after horder sub hsub := by
    have hfirst := (walks_slots h (fun _ _ => walks) []).2 trivial
    have hlisted : (trees.flatMap Tree.completed).foldl enlist [] =
        after.reverse ++ task :: before.reverse := by
      rw [← List.reverse_reverse (List.foldl ..), reverse_foldl_enlist, horder]
      simp
    rw [hlisted] at hfirst
    exact List.mem_reverse.mp (hfirst.of_append.1 sub hsub)
  first_completed := ⟨trees, h, rfl⟩

/-- **The trees of sound entries can be listed.** -/
theorem exists_postOrder (h : ∀ task, some task ∈ list → g.SoundAt task) :
    ∃ order, g.postOrder list = .ok order ∧ g.Flattens list order := by
  obtain ⟨trees, htrees⟩ := exists_trees h
  exact ⟨_, postOrder_eq htrees, flattens_of_trees htrees⟩

/-- In such an order each tree has one node that is not listed, and it is the node at the top. -/
theorem foldl_enlist_completed {rest : List TaskId}
    (htrees : (rest.map some).mapM (g.unfold depth) = .ok trees)
    (hfirst : g.SubTasksFirst (rest.reverse ++ listed)) (hnodup : (rest.reverse ++ listed).Nodup) :
    (trees.flatMap Tree.completed).foldl enlist listed = rest.reverse ++ listed := by
  induction rest generalizing trees listed with
  | nil =>
      cases htrees
      rfl
  | cons task rest ih =>
      obtain ⟨t, trees, hunfold, hrest, rfl⟩ :=
        List.forall₂_cons_left_iff.mp (mapM_eq_ok_iff.mp htrees)
      rw [List.reverse_cons, List.append_assoc, List.singleton_append] at hfirst hnodup ⊢
      have hlisted := hfirst.of_append
      have hnew := (List.nodup_cons.mp hnodup.of_append_right).1
      have htree : t.completed.foldl enlist listed = task :: listed := by
        refine foldl_enlist_eq_cons (fun a ha => ?_) ((mem_completed_iff hunfold).mpr (.refl task)) hnew
        exact hlisted.mem_of_reaches (List.mem_cons_self ..) ((mem_completed_iff hunfold).mp ha)
      rw [List.flatMap_cons, List.foldl_append, htree]
      exact ih (mapM_eq_ok_iff.mpr hrest) hfirst hnodup

/-- **A list that has sub-tasks first is left as it is.** -/
theorem Flattens.postOrder_eq {order : List TaskId} (h : g.Flattens list order)
    (hsound : ∀ task, some task ∈ list → g.SoundAt task) :
    g.postOrder (order.map some) = .ok order := by
  have hentries : ∀ task, some task ∈ order.map some → g.SoundAt task := by
    intro task htask
    obtain ⟨_, hmem, ⟨⟩⟩ := List.mem_map.mp htask
    obtain ⟨root, hroot, hreach⟩ := (h.complete task).mp hmem
    exact (hsound root hroot).of_reaches hreach
  have hfirst : g.SubTasksFirst (order.reverse ++ []) := by
    refine subTasksFirst_of_split fun after task before heq sub hsub => ?_
    have horder : order = before.reverse ++ task :: after.reverse := by
      rw [← List.reverse_reverse order, ← List.append_nil order.reverse, heq]
      simp
    exact List.mem_reverse.mp (h.subTasks_first _ task _ horder sub hsub)
  have hnodup : (order.reverse ++ []).Nodup := by
    rw [List.append_nil]
    exact List.nodup_reverse.mpr h.once
  obtain ⟨trees, htrees⟩ := exists_trees hentries
  rw [Graph.postOrder_eq htrees, ← reverse_foldl_enlist,
    foldl_enlist_completed htrees hfirst hnodup, List.append_nil, List.reverse_reverse]

/-! ## Trees of two levels -/

/-- A tree of two levels is sound. -/
theorem soundAt_of_shallow (hn : g.get? task = some n)
    (hleaves : ∀ sub ∈ n.children, ∃ m, g.get? sub = some m ∧ m.children = []) : g.SoundAt task := by
  have hleaf : ∀ {sub m}, g.get? sub = some m → m.children = [] → ∀ b, ¬ g.HasSubTask sub b := by
    intro sub m hm hempty b hb
    rw [hasSubTask_iff_mem_children hm, hempty] at hb
    cases hb
  refine soundAt_of_subTasks (by rw [hn]; rfl) fun sub hsub => ?_
  obtain ⟨m, hm, hempty⟩ := hleaves sub ((hasSubTask_iff_mem_children hn).mp hsub)
  constructor
  · exact soundAt_of_subTasks (by rw [hm]; rfl) fun b hb => absurd hb (hleaf hm hempty b)
  · intro hback
    rcases hback.cases_head with rfl | ⟨b, hb, _⟩
    · exact hleaf hm hempty sub hsub
    · exact hleaf hm hempty b hb

/-- What walks through the entries one by one are done with. -/
theorem flatMap_completed (htrees : slots.mapM (g.unfold depth) = .ok trees)
    (below : TaskId → List TaskId)
    (h : ∀ task, some task ∈ slots → ∀ t, g.unfold depth (some task) = .ok t →
      t.completed = below task) :
    trees.flatMap Tree.completed = (slots.filterMap id).flatMap below := by
  induction mapM_eq_ok_iff.mp htrees with
  | nil => rfl
  | @cons slot t slots trees hfirst hrest ih =>
      obtain ⟨htop, hothers⟩ := List.forall_mem_cons.mp fun slot hslot task (heq : slot = some task) =>
        h task (heq ▸ hslot)
      have hrest := ih (mapM_eq_ok_iff.mpr hrest) fun task hmem => hothers _ hmem task rfl
      rw [List.flatMap_cons, hrest]
      cases slot with
      | none =>
          rw [unfold_none, Except.ok.injEq] at hfirst
          rw [← hfirst]
          rfl
      | some task => exact congrArg (· ++ _) (htop task rfl t hfirst)

theorem completed_of_unfold {t : Tree} (h : g.unfold (depth + 1) (some task) = .ok t)
    (hn : g.get? task = some n) (below : TaskId → List TaskId)
    (hbelow : ∀ sub ∈ n.children, ∀ t, g.unfold depth (some sub) = .ok t → t.completed = below sub) :
    t.completed = n.children.flatMap below ++ [task] := by
  obtain ⟨m, slots, hm, hslots, rfl⟩ := unfold_eq_ok_iff.mp h
  cases hn.symm.trans hm
  rw [Tree.completed, Tree.completedSlots_eq]
  refine congrArg (· ++ [task]) (flatMap_completed hslots below fun sub hsub => hbelow sub ?_)
  exact List.mem_filterMap.mpr ⟨_, hsub, rfl⟩

/-- A leaf is all that a walk through its unfolding is done with. -/
theorem completed_of_leaf {t : Tree} (h : g.unfold depth (some task) = .ok t)
    (hn : g.get? task = some n) (hleaf : n.children = []) : t.completed = [task] := by
  cases depth with
  | zero => cases h
  | succ depth =>
      have hnothing : ∀ sub ∈ n.children, ∀ t, g.unfold depth (some sub) = .ok t → t.completed = [] := by
        rw [hleaf]
        exact List.forall_mem_nil _
      have hcompleted := completed_of_unfold h hn (fun _ => []) hnothing
      rwa [hleaf] at hcompleted

/-- **Trees of two levels in a row.** -/
theorem postOrder_of_shallow {list : List TaskId} {leaves : TaskId → List TaskId}
    (htops : ∀ id ∈ list, ∃ n, g.get? id = some n ∧ n.children = leaves id)
    (hleaves : ∀ id ∈ list, ∀ sub ∈ leaves id, ∃ m, g.get? sub = some m ∧ m.children = [])
    (hnodup : (list.flatMap fun id => leaves id ++ [id]).Nodup) :
    g.postOrder (list.map some) = .ok (list.flatMap fun id => leaves id ++ [id]) := by
  have hsound : ∀ task, some task ∈ list.map some → g.SoundAt task := by
    intro task htask
    obtain ⟨_, hmem, ⟨⟩⟩ := List.mem_map.mp htask
    obtain ⟨n, hn, hchildren⟩ := htops task hmem
    exact soundAt_of_shallow hn (hchildren ▸ hleaves task hmem)
  obtain ⟨trees, htrees⟩ := exists_trees hsound
  have hcompleted : trees.flatMap Tree.completed = list.flatMap fun id => leaves id ++ [id] := by
    have hentries : (list.map some).filterMap id = list := by simp
    have hwalk := flatMap_completed htrees fun id => leaves id ++ [id]
    rw [hentries] at hwalk
    refine hwalk fun task htask t hunfold => ?_
    obtain ⟨_, hmem, ⟨⟩⟩ := List.mem_map.mp htask
    obtain ⟨n, hn, hchildren⟩ := htops task hmem
    rw [completed_of_unfold hunfold hn fun sub => [sub], hchildren]
    · simp
    · intro sub hsub t ht
      obtain ⟨m, hm, hleaf⟩ := hleaves task hmem sub (hchildren ▸ hsub)
      exact completed_of_leaf ht hm hleaf
  rw [postOrder_eq htrees, hcompleted, ← reverse_foldl_enlist, foldl_enlist_of_nodup,
    List.append_nil, List.reverse_reverse]
  rw [List.append_nil]
  exact List.nodup_reverse.mpr hnodup

end Graph

end RenderPlan
