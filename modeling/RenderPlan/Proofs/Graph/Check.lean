/-
# RenderPlan.Proofs.Graph.Check -- the walk decides which trees are well-formed

`Graph.check` accepts exactly the lists of roots whose trees are well-formed (`check_eq_ok_iff`). It
refuses the others with a reason that is true of the trees below the roots (`blames_of_check`).

The walk stands at a stack of entered nodes, each in a slot of the one below it. `Walked` says what
it knows there: nodes that were left are sound, and so is everything below them, and a slot that an
entered node has no longer before it leads to a node that was left, or to the entered node above.
When a node is left, all its sub-tasks have been left before. They do not lead back to it, because
from nodes that were left one only comes to such nodes.
-/
import RenderPlan.Proofs.Graph.Trees
import Mathlib.Data.List.Chain
import Mathlib.Tactic.ByContra

namespace RenderPlan.Graph

variable {g : Graph} {marks : Array Mark} {stack : List Frame} {id sub : TaskId}
  {slots : List (Option TaskId)}

/-! ## What the walk knows -/

/-- The slots of entered nodes: those still to be looked at are slots of the node, and the others
lead to nodes that were left or to the node entered next, which is `above`. -/
def Looked (g : Graph) (marks : Array Mark) : Option TaskId → List Frame → Prop
  | _, [] => True
  | above, f :: below =>
    (∀ sub, some sub ∈ f.slots → g.HasSubTask f.id sub) ∧
      (∀ sub, g.HasSubTask f.id sub →
        some sub ∈ f.slots ∨ marks[sub.index]? = some .left ∨ above = some sub) ∧
      Looked g marks (some f.id) below

/-- What the walk knows when it stands at a stack of entered nodes. -/
structure Walked (g : Graph) (marks : Array Mark) (stack : List Frame) : Prop where
  size : marks.size = g.size
  entered_iff : ∀ id : TaskId, marks[id.index]? = some .entered ↔ id ∈ stack.map Frame.id
  nodup : (stack.map Frame.id).Nodup
  chain : (stack.map Frame.id).IsChain fun above below => g.HasSubTask below above
  looked : Looked g marks none stack
  sound : ∀ id : TaskId, marks[id.index]? = some .left → g.SoundAt id
  closed : ∀ id sub : TaskId, marks[id.index]? = some .left → g.HasSubTask id sub →
    marks[sub.index]? = some .left

theorem getElem?_setIfInBounds_of_ne {m : Mark} (h : sub ≠ id) :
    (marks.setIfInBounds id.index m)[sub.index]? = marks[sub.index]? := by
  have hindex : id.index ≠ sub.index := fun heq =>
    h (by cases sub; cases id; exact congrArg _ heq.symm)
  simp [hindex]

theorem getElem?_setIfInBounds_self {m : Mark} (h : (marks[id.index]?).isSome) :
    (marks.setIfInBounds id.index m)[id.index]? = some m := by
  have hlt : id.index < marks.size := by
    by_contra hge
    simp [Array.getElem?_eq_none (Nat.le_of_not_lt hge)] at h
  simp [hlt]

/-- What was left stays left when another mark is set. -/
theorem Looked.set {above : Option TaskId} {m : Mark} (hm : marks[id.index]? ≠ some .left)
    (h : Looked g marks above stack) : Looked g (marks.setIfInBounds id.index m) above stack := by
  induction stack generalizing above with
  | nil => trivial
  | cons f below ih =>
      obtain ⟨hslots, hsubs, hbelow⟩ := h
      refine ⟨hslots, fun sub hsub => ?_, ih hbelow⟩
      rcases hsubs sub hsub with hopen | hleft | habove
      · exact Or.inl hopen
      · have hne : sub ≠ id := fun heq => hm (heq ▸ hleft)
        exact Or.inr (Or.inl ((getElem?_setIfInBounds_of_ne hne).trans hleft))
      · exact Or.inr (Or.inr habove)

namespace Walked

theorem isSome_mark_iff (h : Walked g marks stack) :
    (marks[id.index]?).isSome ↔ (g.get? id).isSome := by
  have hsize : marks.size = g.nodes.size := h.size
  simp [get?, hsize]

/-- From nodes that were left one only comes to such nodes. -/
theorem left_of_reaches (h : Walked g marks stack) (hid : marks[id.index]? = some .left)
    (hreach : g.Reaches id sub) : marks[sub.index]? = some .left := by
  induction hreach with
  | refl => exact hid
  | step _ hsub ih => exact h.closed _ _ ih hsub

/-- Everything on the stack is above its lowest node, so the top is below all of it. -/
theorem reaches_top {f : Frame} (h : Walked g marks (⟨id, slots⟩ :: stack))
    (hf : f ∈ ⟨id, slots⟩ :: stack) : g.Reaches f.id id := by
  have hchain := h.chain
  clear h
  induction stack generalizing id slots with
  | nil =>
      rw [List.mem_singleton.mp hf]
      exact .refl id
  | cons below stack ih =>
      obtain ⟨belowId, belowSlots⟩ := below
      obtain ⟨hsub, hrest⟩ := List.isChain_cons_cons.mp hchain
      rcases List.mem_cons.mp hf with rfl | hf
      · exact .refl id
      · exact .step (ih hf hrest) hsub

/-! ## The moves of the walk -/

/-- A slot that leads nowhere new needs no visit. -/
theorem skip {slot : Option TaskId} (h : Walked g marks (⟨id, slot :: slots⟩ :: stack))
    (hslot : ∀ sub, slot = some sub → marks[sub.index]? = some .left) :
    Walked g marks (⟨id, slots⟩ :: stack) where
  size := h.size
  entered_iff := h.entered_iff
  nodup := h.nodup
  chain := h.chain
  looked := by
    obtain ⟨hslots, hsubs, hbelow⟩ := h.looked
    refine ⟨fun sub hsub => hslots sub (List.mem_cons_of_mem _ hsub), fun sub hsub => ?_, hbelow⟩
    rcases hsubs sub hsub with hopen | hrest
    · rcases List.mem_cons.mp hopen with heq | hopen
      · exact Or.inr (Or.inl (hslot sub heq.symm))
      · exact Or.inl hopen
    · exact Or.inr hrest
  sound := h.sound
  closed := h.closed

/-- A node whose slots are done is left. -/
theorem leave (h : Walked g marks (⟨id, []⟩ :: stack)) :
    Walked g (marks.setIfInBounds id.index .left) stack := by
  have hentered : marks[id.index]? = some .entered := (h.entered_iff id).mpr (List.mem_cons_self ..)
  have hself := getElem?_setIfInBounds_self (m := .left) (Option.isSome_of_eq_some hentered)
  have hsubs : ∀ sub, g.HasSubTask id sub → marks[sub.index]? = some .left := by
    intro sub hsub
    rcases h.looked.2.1 sub hsub with hopen | hleft | habove
    · cases hopen
    · exact hleft
    · cases habove
  obtain ⟨hnotin, hnodup⟩ := List.nodup_cons.mp h.nodup
  refine ⟨?_, ?_, hnodup, ?_, ?_, ?_, ?_⟩
  · simpa using h.size
  · intro x
    by_cases hx : x = id
    · subst hx
      simp only [hself, Option.some.injEq, reduceCtorEq, false_iff]
      exact hnotin
    · rw [getElem?_setIfInBounds_of_ne hx, h.entered_iff x]
      simp [hx]
  · exact (List.isChain_cons.mp h.chain).2
  · -- the frame below has this node behind it now
    have hrest : Looked g (marks.setIfInBounds id.index .left) (some id) stack :=
      h.looked.2.2.set (by rw [hentered]; nofun)
    cases stack with
    | nil => trivial
    | cons f below =>
        obtain ⟨hslots, hsubs', hbelow⟩ := hrest
        refine ⟨hslots, fun sub hsub => ?_, hbelow⟩
        rcases hsubs' sub hsub with hopen | hleft | habove
        · exact Or.inl hopen
        · exact Or.inr (Or.inl hleft)
        · cases habove
          exact Or.inr (Or.inl hself)
  · intro x hx
    by_cases hxid : x = id
    · subst hxid
      refine soundAt_of_subTasks (h.isSome_mark_iff.mp (Option.isSome_of_eq_some hentered)) ?_
      intro sub hsub
      refine ⟨h.sound sub (hsubs sub hsub), fun hback => ?_⟩
      have hleft := h.left_of_reaches (hsubs sub hsub) hback
      rw [hentered] at hleft
      cases hleft
    · rw [getElem?_setIfInBounds_of_ne hxid] at hx
      exact h.sound x hx
  · intro x sub hx hsub
    have hleft : marks[sub.index]? = some .left := by
      by_cases hxid : x = id
      · exact hsubs sub (hxid ▸ hsub)
      · rw [getElem?_setIfInBounds_of_ne hxid] at hx
        exact h.closed x sub hx hsub
    have hne : sub ≠ id := by
      rintro rfl
      rw [hentered] at hleft
      cases hleft
    exact (getElem?_setIfInBounds_of_ne hne).trans hleft

/-- A fresh node is entered, with all its slots before it. `below` is the slot that it stands in. -/
theorem enter {rest : List Frame} (h : Walked g marks stack)
    (hfresh : marks[sub.index]? = some .fresh)
    (hids : rest.map Frame.id = stack.map Frame.id)
    (hchain : ∀ f ∈ rest.head?, g.HasSubTask f.id sub) (hlooked : Looked g marks (some sub) rest) :
    Walked g (marks.setIfInBounds sub.index .entered) (⟨sub, g.slots sub⟩ :: rest) := by
  have hself := getElem?_setIfInBounds_self (m := .entered) (Option.isSome_of_eq_some hfresh)
  have hnotleft : marks[sub.index]? ≠ some .left := by simp [hfresh]
  have hleft : ∀ x : TaskId, (marks.setIfInBounds sub.index .entered)[x.index]? = some .left ↔
      marks[x.index]? = some .left := by
    intro x
    by_cases hx : x = sub
    · subst hx
      simp [hself, hfresh]
    · rw [getElem?_setIfInBounds_of_ne hx]
  obtain ⟨n, hn⟩ := Option.isSome_iff_exists.mp
    (h.isSome_mark_iff.mp (Option.isSome_of_eq_some hfresh))
  have hslots : ∀ x, g.HasSubTask sub x ↔ some x ∈ g.slots sub := by
    intro x
    rw [hasSubTask_iff hn, slots, hn]
  refine ⟨?_, ?_, ?_, ?_, ?_, ?_, ?_⟩
  · simpa using h.size
  · intro x
    by_cases hx : x = sub
    · subst hx
      simp [hself]
    · rw [getElem?_setIfInBounds_of_ne hx, h.entered_iff x, List.map_cons, List.mem_cons, hids]
      simp [hx]
  · refine List.nodup_cons.mpr ⟨?_, hids ▸ h.nodup⟩
    rw [hids, ← h.entered_iff sub, hfresh]
    simp
  · refine List.isChain_cons.mpr ⟨?_, hids ▸ h.chain⟩
    intro x hx
    rw [List.head?_map] at hx
    obtain ⟨f, hf, rfl⟩ := Option.map_eq_some_iff.mp hx
    exact hchain f hf
  · exact ⟨fun x hx => (hslots x).mpr hx, fun x hx => Or.inl ((hslots x).mp hx),
      hlooked.set hnotleft⟩
  · exact fun x hx => h.sound x ((hleft x).mp hx)
  · exact fun x y hx hy => (hleft y).mpr (h.closed x y ((hleft x).mp hx) hy)

/-- From a slot that leads to a fresh node the walk goes on in that node. -/
theorem descend (h : Walked g marks (⟨id, some sub :: slots⟩ :: stack))
    (hfresh : marks[sub.index]? = some .fresh) :
    Walked g (marks.setIfInBounds sub.index .entered)
      (⟨sub, g.slots sub⟩ :: ⟨id, slots⟩ :: stack) := by
  have hsub : g.HasSubTask id sub := h.looked.1 sub (List.mem_cons_self ..)
  refine h.enter hfresh rfl (by rintro _ ⟨rfl⟩; exact hsub) ?_
  obtain ⟨hslots, hsubs, hbelow⟩ := h.looked
  refine ⟨fun x hx => hslots x (List.mem_cons_of_mem _ hx), fun x hx => ?_, hbelow⟩
  rcases hsubs x hx with hopen | hleft | habove
  · rcases List.mem_cons.mp hopen with heq | hopen
    · exact Or.inr (Or.inr heq.symm)
    · exact Or.inl hopen
  · exact Or.inr (Or.inl hleft)
  · cases habove

end Walked

/-! ## The whole walk -/

/-- The refusal names an offence at or below these tasks. -/
def Blames (g : Graph) (ids : List TaskId) : Error → Prop
  | .unknownRoot root => root ∈ ids ∧ g.get? root = none
  | .unknownSubTask task sub =>
      (∃ id ∈ ids, g.Reaches id task) ∧ g.HasSubTask task sub ∧ g.get? sub = none
  | .cycle through => (∃ id ∈ ids, g.Reaches id through) ∧ g.OnCycle through
  | _ => False

theorem Blames.kind_eq {ids : List TaskId} {e : Error} (h : g.Blames ids e) :
    e.kind = .validation := by
  cases e <;> first | rfl | exact h.elim

/-- Tasks whose trees hold some tasks are to blame where those are. -/
theorem Blames.of_reaches {ids ids' : List TaskId} {e : Error} (h : g.Blames ids e)
    (hids : ∀ x ∈ ids, x ∈ ids' ∨ (g.get? x).isSome ∧ ∃ y ∈ ids', g.Reaches y x) :
    g.Blames ids' e := by
  have hbelow : ∀ {b}, (∃ x ∈ ids, g.Reaches x b) → ∃ y ∈ ids', g.Reaches y b := by
    rintro b ⟨x, hx, hxb⟩
    rcases hids x hx with hx' | ⟨-, y, hy, hyx⟩
    · exact ⟨x, hx', hxb⟩
    · exact ⟨y, hy, hyx.trans hxb⟩
  cases e with
  | unknownRoot root =>
      obtain ⟨hroot, hnone⟩ := h
      refine ⟨(hids root hroot).resolve_right fun hsome => ?_, hnone⟩
      rw [hnone] at hsome
      cases hsome.1
  | unknownSubTask task sub => exact ⟨hbelow h.1, h.2⟩
  | cycle through => exact ⟨hbelow h.1, h.2⟩
  | _ => exact h.elim

/-- Trees to blame are not well-formed. -/
theorem Blames.not_wellFormed {ids : List TaskId} {e : Error} (h : g.Blames ids e) :
    ¬ g.WellFormed ids := by
  intro hall
  cases e with
  | unknownRoot root =>
      have hexists := (hall root h.1 root (.refl root)).1
      rw [h.2] at hexists
      cases hexists
  | unknownSubTask task sub =>
      obtain ⟨⟨id, hid, hreach⟩, hsub, hnone⟩ := h
      have hexists := (hall id hid sub (.step hreach hsub)).1
      rw [hnone] at hexists
      cases hexists
  | cycle through =>
      obtain ⟨⟨id, hid, hreach⟩, hcycle⟩ := h
      exact (hall id hid through hreach).2 hcycle
  | _ => exact h.elim

/-- What comes of a walk below some entered nodes: at its end all of them were left, or it is refused
for an offence below them. -/
def Outcome (g : Graph) (marks : Array Mark) (ids : List TaskId) :
    Except Error (Array Mark) → Prop
  | .ok after => Walked g after [] ∧
      (∀ x : TaskId, marks[x.index]? = some .left → after[x.index]? = some .left) ∧
      ∀ x ∈ ids, after[x.index]? = some .left
  | .error e => g.Blames ids e

theorem Outcome.of_leave {ids : List TaskId} {r : Except Error (Array Mark)}
    (hid : (marks[id.index]?).isSome) (h : Outcome g (marks.setIfInBounds id.index .left) ids r) :
    Outcome g marks (id :: ids) r := by
  have hself := getElem?_setIfInBounds_self (m := .left) hid
  cases r with
  | error e => exact Blames.of_reaches h fun x hx => Or.inl (List.mem_cons_of_mem _ hx)
  | ok after =>
      obtain ⟨hafter, hmono, hids⟩ := h
      refine ⟨hafter, fun x hx => hmono x ?_, List.forall_mem_cons.mpr ⟨hmono id hself, hids⟩⟩
      by_cases hxid : x = id
      · exact hxid ▸ hself
      · rwa [getElem?_setIfInBounds_of_ne hxid]

theorem Outcome.of_enter {ids : List TaskId} {r : Except Error (Array Mark)}
    (hfresh : marks[sub.index]? = some .fresh) (hexists : (g.get? sub).isSome)
    (hsub : g.HasSubTask id sub)
    (h : Outcome g (marks.setIfInBounds sub.index .entered) (sub :: id :: ids) r) :
    Outcome g marks (id :: ids) r := by
  cases r with
  | error e =>
      refine Blames.of_reaches h (List.forall_mem_cons.mpr ⟨Or.inr ⟨hexists, id, ?_⟩, ?_⟩)
      · exact ⟨List.mem_cons_self .., .single hsub⟩
      · exact fun x hx => Or.inl hx
  | ok after =>
      obtain ⟨hafter, hmono, hids⟩ := h
      refine ⟨hafter, fun x hx => hmono x ?_, (List.forall_mem_cons.mp hids).2⟩
      have hne : x ≠ sub := by
        rintro rfl
        rw [hfresh] at hx
        cases hx
      rwa [getElem?_setIfInBounds_of_ne hne]

theorem explore_outcome (h : Walked g marks stack) :
    Outcome g marks (stack.map Frame.id) (g.explore marks stack) := by
  fun_induction explore g marks stack with
  | case1 marks => exact ⟨h, fun _ hx => hx, nofun⟩
  | case2 marks id stack ih =>
      have hentered : marks[id.index]? = some .entered :=
        (h.entered_iff id).mpr (List.mem_cons_self ..)
      exact (ih h.leave).of_leave (Option.isSome_of_eq_some hentered)
  | case3 marks id slots stack ih => exact ih (h.skip nofun)
  | case4 marks id sub slots stack hmark =>
      -- the sub-task does not exist
      refine ⟨⟨id, List.mem_cons_self .., .refl id⟩, h.looked.1 sub (List.mem_cons_self ..), ?_⟩
      have hmissing := mt h.isSome_mark_iff.mpr (by rw [hmark]; nofun)
      exact Option.not_isSome_iff_eq_none.mp hmissing
  | case5 marks id sub slots stack hmark =>
      -- the sub-task is on the stack, so it leads back to itself through this node
      have hsub : g.HasSubTask id sub := h.looked.1 sub (List.mem_cons_self ..)
      refine ⟨⟨id, List.mem_cons_self .., .single hsub⟩, ?_⟩
      obtain ⟨f, hf, rfl⟩ := List.mem_map.mp ((h.entered_iff sub).mp hmark)
      exact onCycle_of_reaches (h.reaches_top hf) hsub
  | case6 marks id sub slots stack hmark ih => exact ih (h.skip (by rintro _ ⟨rfl⟩; exact hmark))
  | case7 marks id sub slots stack hmark ih =>
      have hexists := h.isSome_mark_iff.mp (Option.isSome_of_eq_some hmark)
      exact (ih (h.descend hmark)).of_enter hmark hexists (h.looked.1 sub (List.mem_cons_self ..))

/-- A root that has not been left is entered before anything else is. -/
theorem Walked.enterRoot {root : TaskId} {m : Mark} (h : Walked g marks [])
    (hmark : marks[root.index]? = some m) (hm : m ≠ .left) :
    Walked g (marks.setIfInBounds root.index .entered) [⟨root, g.slots root⟩] := by
  have hfresh : marks[root.index]? = some .fresh := by
    cases m with
    | fresh => exact hmark
    | entered => exact absurd ((h.entered_iff root).mp hmark) (by simp)
    | left => exact absurd rfl hm
  exact h.enter hfresh rfl nofun trivial

/-- The answer for these roots is right, and a refusal has a reason. -/
def Answers (g : Graph) (roots : List TaskId) : Except Error Unit → Prop
  | .ok _ => g.WellFormed roots
  | .error e => g.Blames roots e

theorem Answers.cons {root : TaskId} {roots : List TaskId} {r : Except Error Unit}
    (h : Answers g roots r) (hroot : g.SoundAt root) : Answers g (root :: roots) r := by
  cases r with
  | ok _ => exact List.forall_mem_cons.mpr ⟨hroot, h⟩
  | error e => exact Blames.of_reaches h fun x hx => Or.inl (List.mem_cons_of_mem _ hx)

theorem answers_checkFrom {roots : List TaskId} (h : Walked g marks []) :
    Answers g roots (g.checkFrom marks roots) := by
  induction roots generalizing marks with
  | nil => exact nofun
  | cons root roots ih =>
      unfold checkFrom
      split
      · next hmark =>
          -- the root does not exist
          have hmissing := mt h.isSome_mark_iff.mpr (by rw [hmark]; nofun)
          exact ⟨List.mem_cons_self .., Option.not_isSome_iff_eq_none.mp hmissing⟩
      · next hmark => exact (ih h).cons (h.sound root hmark)
      · next mark hnotleft hmark =>
          have hwalk := explore_outcome (h.enterRoot hmark hnotleft)
          revert hwalk
          cases g.explore (marks.setIfInBounds root.index .entered) [⟨root, g.slots root⟩] with
          | error e =>
              intro hblames
              refine Blames.of_reaches hblames fun x hx => Or.inl ?_
              exact List.mem_singleton.mp hx ▸ List.mem_cons_self ..
          | ok after =>
              rintro ⟨hafter, -, hids⟩
              exact (ih hafter).cons (hafter.sound root (hids root (List.mem_singleton_self _)))

theorem walked_replicate (g : Graph) : Walked g (Array.replicate g.size .fresh) [] where
  size := Array.size_replicate
  entered_iff id := by simp [Array.getElem?_replicate]
  nodup := List.nodup_nil
  chain := List.isChain_nil
  looked := trivial
  sound id h := by simp [Array.getElem?_replicate] at h
  closed id sub h := by simp [Array.getElem?_replicate] at h

theorem answers_check (g : Graph) (roots : List TaskId) : Answers g roots (g.check roots) :=
  answers_checkFrom (walked_replicate g)

/-- A refusal has a reason. -/
theorem blames_of_check {roots : List TaskId} {e : Error} (h : g.check roots = .error e) :
    g.Blames roots e := by
  have hanswers := g.answers_check roots
  rwa [h] at hanswers

/-- **The check is exact.** It accepts just the roots whose trees are well-formed. -/
theorem check_eq_ok_iff {roots : List TaskId} : g.check roots = .ok () ↔ g.WellFormed roots := by
  have hanswers := g.answers_check roots
  cases hcheck : g.check roots with
  | ok _ =>
      rw [hcheck] at hanswers
      exact iff_of_true rfl hanswers
  | error e =>
      rw [hcheck] at hanswers
      exact iff_of_false nofun (Blames.not_wellFormed hanswers)

end RenderPlan.Graph
