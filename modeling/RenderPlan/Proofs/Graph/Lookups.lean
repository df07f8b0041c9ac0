/-
# RenderPlan.Proofs.Graph.Lookups -- the check looks nothing up that is not there

`Graph.check` keeps the slots of an entered node on its stack, and its lookups answer with a default
where there is nothing. `walkFrom` is the same check with its lookups in the open. Its stack holds
nodes with the position of the next slot, so the slots are looked up again and again, and each lookup
that takes for granted that something is there meets a fault if nothing is. Only the lookups that ask
first, those of a root and of a sub-task, do not.

Entered nodes have a mark, so they exist. Hence `walkFrom` meets no fault and answers what the check
answers (`walkFrom_eq_check`). With what the answers mean, this is all that callers rely on
(`check_exact`).
-/
import RenderPlan.Proofs.Graph.Check

namespace RenderPlan.Graph

variable {g : Graph} {marks : Array Mark} {stack : List (TaskId × Nat)} {id sub : TaskId}

/-! ## The check with its lookups in the open -/

/-- How much is left to do with the nodes that were entered. -/
def openSlots (g : Graph) : List (TaskId × Nat) → Nat
  | [] => 0
  | (id, next) :: stack => (g.slots id).length - next + 1 + g.openSlots stack

/-- Looking at one more slot leaves less to do. -/
theorem openSlots_next_lt {n : Node} {next : Nat} (hn : g.get? id = some n)
    (hnext : next < n.subTasks.length) (stack : List (TaskId × Nat)) :
    g.openSlots ((id, next + 1) :: stack) < g.openSlots ((id, next) :: stack) := by
  have hslots : g.slots id = n.subTasks := by rw [slots, hn]
  simp only [openSlots, hslots]
  omega

/-- Goes on with the walk until no node is entered. -/
def walk (g : Graph) (marks : Array Mark) :
    List (TaskId × Nat) → Except Fault (Except Error (Array Mark))
  | [] => .ok (.ok marks)
  | (id, next) :: stack =>
    match _node : g.get? id with
    | none => .error (.missingTask id)
    | some n =>
      match _slot : n.subTasks[next]? with
      | none =>
        if id.index < marks.size then walk g (marks.setIfInBounds id.index .left) stack
        else .error (.missingTask id)
      | some none => walk g marks ((id, next + 1) :: stack)
      | some (some sub) =>
        match _mark : marks[sub.index]? with
        | none => .ok (.error (.unknownSubTask id sub))
        | some .entered => .ok (.error (.cycle sub))
        | some .left => walk g marks ((id, next + 1) :: stack)
        | some .fresh =>
          walk g (marks.setIfInBounds sub.index .entered) ((sub, 0) :: (id, next + 1) :: stack)
  termination_by stack => (freshCount marks, g.openSlots stack)
  decreasing_by
    · have := freshCount_set_le marks id.index (m := .left) (by decide)
      rcases Nat.lt_or_eq_of_le this with h | h
      · exact Prod.Lex.left _ _ h
      · rw [h]
        exact Prod.Lex.right _ (by simp only [openSlots]; omega)
    · exact Prod.Lex.right _ (openSlots_next_lt _node (List.getElem?_eq_some_iff.mp _slot).1 _)
    · exact Prod.Lex.right _ (openSlots_next_lt _node (List.getElem?_eq_some_iff.mp _slot).1 _)
    · exact Prod.Lex.left _ _ (freshCount_set_lt _mark)

/-- Walks below each root in turn. -/
def walkFrom (g : Graph) (marks : Array Mark) :
    List TaskId → Except Fault (Except Error Unit)
  | [] => .ok (.ok ())
  | root :: roots =>
    if (g.get? root).isNone then .ok (.error (.unknownRoot root))
    else
      match marks[root.index]? with
      | none => .error (.missingTask root)
      | some .left => walkFrom g marks roots
      | some _ =>
        match walk g (marks.setIfInBounds root.index .entered) [(root, 0)] with
        | .error f => .error f
        | .ok (.error e) => .ok (.error e)
        | .ok (.ok marks) => walkFrom g marks roots

/-! ## No fault -/

/-- The node with those of its slots that are still to be looked at. -/
def frameAt (g : Graph) (place : TaskId × Nat) : Frame :=
  ⟨place.1, (g.slots place.1).drop place.2⟩

/-- At an entered node, the next slot is the one that the lookup finds. -/
theorem frameAt_of_slot {n : Node} {next : Nat} {slot : Option TaskId} (hn : g.get? id = some n)
    (hslot : n.subTasks[next]? = some slot) :
    g.frameAt (id, next) = ⟨id, slot :: (g.slots id).drop (next + 1)⟩ := by
  obtain ⟨hlt, rfl⟩ := List.getElem?_eq_some_iff.mp hslot
  simp only [frameAt, slots, hn, List.drop_eq_getElem_cons hlt]

theorem frameAt_of_end {n : Node} {next : Nat} (hn : g.get? id = some n)
    (hend : n.subTasks[next]? = none) : g.frameAt (id, next) = ⟨id, []⟩ := by
  simp only [frameAt, slots, hn, List.drop_eq_nil_of_le (List.getElem?_eq_none_iff.mp hend)]

theorem explore_slot (g : Graph) (marks : Array Mark) (id sub : TaskId)
    (slots : List (Option TaskId)) (stack : List Frame) :
    g.explore marks (⟨id, some sub :: slots⟩ :: stack) =
      match marks[sub.index]? with
      | none => .error (.unknownSubTask id sub)
      | some .entered => .error (.cycle sub)
      | some .left => g.explore marks (⟨id, slots⟩ :: stack)
      | some .fresh =>
        g.explore (marks.setIfInBounds sub.index .entered)
          (⟨sub, g.slots sub⟩ :: ⟨id, slots⟩ :: stack) := by
  rw [explore]
  split <;> simp only [*]

/-- An entered node is found. -/
theorem Walked.exists_entered {next : Nat} (h : Walked g marks (((id, next) :: stack).map g.frameAt)) :
    marks[id.index]? = some .entered ∧ (g.get? id).isSome := by
  have hentered : marks[id.index]? = some .entered :=
    (h.entered_iff id).mpr (List.mem_cons_self ..)
  exact ⟨hentered, h.isSome_mark_iff.mp (Option.isSome_of_eq_some hentered)⟩

/-- The walk finds all that it looks up, and does what `explore` does. -/
theorem walk_eq_explore (h : Walked g marks (stack.map g.frameAt)) :
    g.walk marks stack = .ok (g.explore marks (stack.map g.frameAt)) := by
  fun_induction walk g marks stack with
  | case1 marks => simp only [List.map_nil, explore]
  | case2 marks id next stack hnode =>
      -- an entered node would not exist
      have hexists := h.exists_entered.2
      rw [hnode] at hexists
      cases hexists
  | case3 marks id next stack n hnode hslot hsize ih =>
      rw [List.map_cons, frameAt_of_end hnode hslot] at h ⊢
      rw [ih h.leave, explore]
  | case4 marks id next stack n hnode hslot hsize =>
      -- an entered node would have no mark
      exact absurd (Array.getElem?_eq_some_iff.mp h.exists_entered.1).1 hsize
  | case5 marks id next stack n hnode hslot ih =>
      rw [List.map_cons, frameAt_of_slot hnode hslot] at h ⊢
      have hskip := ih (h.skip (by rintro _ ⟨⟩))
      rw [hskip, explore]
      rfl
  | case6 marks id next stack n hnode sub hslot hmark =>
      rw [List.map_cons, frameAt_of_slot hnode hslot, explore_slot, hmark]
  | case7 marks id next stack n hnode sub hslot hmark =>
      rw [List.map_cons, frameAt_of_slot hnode hslot, explore_slot, hmark]
  | case8 marks id next stack n hnode sub hslot hmark ih =>
      rw [List.map_cons, frameAt_of_slot hnode hslot] at h ⊢
      have hskip := ih (h.skip (by rintro _ ⟨rfl⟩; exact hmark))
      rw [hskip, explore_slot, hmark]
      rfl
  | case9 marks id next stack n hnode sub hslot hmark ih =>
      rw [List.map_cons, frameAt_of_slot hnode hslot] at h ⊢
      have hdescend := ih (h.descend hmark)
      rw [hdescend, explore_slot, hmark]
      rfl

/-- Below a root that has not been left, both walks do the same. -/
theorem walkFrom_eq_of_root {root : TaskId} {roots : List TaskId} {m : Mark} (h : Walked g marks [])
    (hmark : marks[root.index]? = some m) (hm : m ≠ .left)
    (hroots : ∀ {after}, Walked g after [] → g.walkFrom after roots = .ok (g.checkFrom after roots)) :
    g.walkFrom marks (root :: roots) = .ok (g.checkFrom marks (root :: roots)) := by
  have hroot := h.enterRoot hmark hm
  have hwalk : g.walk (marks.setIfInBounds root.index .entered) [(root, 0)] =
      .ok (g.explore (marks.setIfInBounds root.index .entered) [⟨root, g.slots root⟩]) :=
    walk_eq_explore hroot
  have houtcome := explore_outcome hroot
  have hexists := h.isSome_mark_iff.mp (Option.isSome_of_eq_some hmark)
  rw [walkFrom, checkFrom, if_neg (by simpa using Option.isSome_iff_ne_none.mp hexists), hmark]
  cases hexplore : g.explore (marks.setIfInBounds root.index .entered) [⟨root, g.slots root⟩] with
  | error e =>
      rw [hexplore] at hwalk
      cases m with
      | left => exact absurd rfl hm
      | _ => simp only [hwalk]; rfl
  | ok after =>
      rw [hexplore] at hwalk houtcome
      cases m with
      | left => exact absurd rfl hm
      | _ => simp only [hwalk]; exact hroots houtcome.1

theorem walkFrom_eq_checkFrom {roots : List TaskId} (h : Walked g marks []) :
    g.walkFrom marks roots = .ok (g.checkFrom marks roots) := by
  induction roots generalizing marks with
  | nil => rfl
  | cons root roots ih =>
      cases hmark : marks[root.index]? with
      | none =>
          have hmissing := mt h.isSome_mark_iff.mpr (by rw [hmark]; nofun)
          rw [walkFrom, checkFrom, if_pos (by simpa using hmissing), hmark]
      | some m =>
          by_cases hm : m = .left
          · subst hm
            have hexists := h.isSome_mark_iff.mp (Option.isSome_of_eq_some hmark)
            rw [walkFrom, checkFrom, if_neg (by simpa using Option.isSome_iff_ne_none.mp hexists),
              hmark]
            exact ih h
          · exact walkFrom_eq_of_root h hmark hm ih

/-- **The check looks nothing up that is not there.** -/
theorem walkFrom_eq_check (g : Graph) (roots : List TaskId) :
    g.walkFrom (Array.replicate g.size .fresh) roots = .ok (g.check roots) :=
  walkFrom_eq_checkFrom (walked_replicate g)

/-- **The check is exact, and always ends.** For any graph and any roots it looks nothing up that is
not there. It accepts them exactly if every root exists, every sub-task below them exists, and nothing
below them lies on a cycle. Otherwise it refuses them as invalid, and the refusal names a root that
does not exist, a sub-task below the roots that does not exist, or a task below them on a cycle. -/
theorem check_exact (g : Graph) (roots : List TaskId) :
    g.walkFrom (Array.replicate g.size .fresh) roots = .ok (g.check roots) ∧
      (g.check roots = .ok () ↔
        (∀ root ∈ roots, (g.get? root).isSome) ∧
        (∀ root ∈ roots, ∀ id sub, g.Reaches root id → g.HasSubTask id sub → (g.get? sub).isSome) ∧
        ∀ root ∈ roots, ∀ id, g.Reaches root id → ¬ g.OnCycle id) ∧
      ∀ e, g.check roots = .error e → e.kind = .validation ∧ g.Blames roots e := by
  refine ⟨walkFrom_eq_check g roots, check_eq_ok_iff.trans ⟨?_, ?_⟩, ?_⟩
  · intro h
    refine ⟨fun root hroot => (h root hroot root (.refl root)).1, ?_, ?_⟩
    · intro root hroot id sub hreach hsub
      exact (h root hroot sub (.step hreach hsub)).1
    · intro root hroot id hreach
      exact (h root hroot id hreach).2
  · rintro ⟨hroots, hsubs, hcycles⟩ root hroot id hreach
    refine ⟨?_, hcycles root hroot id hreach⟩
    cases hreach with
    | refl => exact hroots root hroot
    | step hprev hsub => exact hsubs root hroot _ _ hprev hsub
  · intro e he
    have hblames := blames_of_check he
    exact ⟨hblames.kind_eq, hblames⟩

end RenderPlan.Graph
