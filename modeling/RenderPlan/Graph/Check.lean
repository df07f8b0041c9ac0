/-
# RenderPlan.Graph.Check -- which task trees are well-formed

The trees below a list of roots are well-formed when every id that can be reached names a node and
no node lies below itself. `WellFormed` says so with reachability; `Graph.check` decides it by a
depth-first walk and names the first offence that the walk meets.

The walk keeps a mark for every node. A node is entered when the walk comes to it and left when all
its slots are done, so the entered nodes are the ancestors of the place where the walk stands. A
slot that names an entered node closes a cycle; one that names a node already left needs no second
visit.
-/
import RenderPlan.Error

namespace RenderPlan

namespace Graph

/-! ## Reachability -/

/-- `sub` stands in a slot of the node `id`. -/
def HasSubTask (g : Graph) (id sub : TaskId) : Prop :=
  ∃ n, g.get? id = some n ∧ some sub ∈ n.subTasks

/-- `b` can be reached from `a` by any number of slots. -/
inductive Reaches (g : Graph) : TaskId → TaskId → Prop where
  | refl (a : TaskId) : Reaches g a a
  | step {a b c : TaskId} : Reaches g a b → g.HasSubTask b c → Reaches g a c

/-- The node lies below itself. -/
def OnCycle (g : Graph) (id : TaskId) : Prop := ∃ sub, g.HasSubTask id sub ∧ g.Reaches sub id

/-- Everything below the roots exists, and nothing below the roots lies below itself. -/
def WellFormed (g : Graph) (roots : List TaskId) : Prop :=
  ∀ root ∈ roots, ∀ id, g.Reaches root id → (g.get? id).isSome ∧ ¬ g.OnCycle id

/-! ## The walk -/

/-- How far the walk is with a node. -/
inductive Mark where
  /-- Not met yet. -/
  | fresh
  /-- Entered and not left. -/
  | entered
  /-- Left. -/
  | left
  deriving DecidableEq, Repr

/-- A node that was entered, with the slots that are still to be looked at. -/
structure Frame where
  id : TaskId
  slots : List (Option TaskId)

/-- How many nodes were not met yet. -/
def freshCount (marks : Array Mark) : Nat := marks.toList.countP (· = .fresh)

/-- How much is left to do with the nodes that were entered. -/
def openWork : List Frame → Nat
  | [] => 0
  | f :: stack => f.slots.length + 1 + openWork stack

/-- Marking a node as anything but fresh makes no other node fresh. -/
theorem freshCount_set_le (marks : Array Mark) (i : Nat) {m : Mark} (hm : m ≠ .fresh) :
    freshCount (marks.setIfInBounds i m) ≤ freshCount marks := by
  unfold freshCount
  rw [Array.toList_setIfInBounds]
  by_cases h : i < marks.toList.length
  · rw [List.countP_set h]
    simp [hm]
  · exact Nat.le_of_eq (congrArg _ (List.set_eq_of_length_le (by omega)))

/-- Entering a fresh node leaves one fresh node less. -/
theorem freshCount_set_lt {marks : Array Mark} {i : Nat} (hi : marks[i]? = some .fresh) :
    freshCount (marks.setIfInBounds i .entered) < freshCount marks := by
  unfold freshCount
  rw [Array.toList_setIfInBounds]
  obtain ⟨h, e⟩ := Array.getElem?_eq_some_iff.1 hi
  have h' : i < marks.toList.length := by simpa using h
  have e' : marks.toList[i] = .fresh := by simpa using e
  rw [List.countP_set h']
  have hpos : 0 < marks.toList.countP (· = .fresh) :=
    List.countP_pos_iff.2 ⟨.fresh, e' ▸ List.getElem_mem h', by simp⟩
  simp only [e', decide_true, if_true, reduceCtorEq, decide_false, Bool.false_eq_true, if_false]
  omega

/-- Goes on with the walk until no node is entered. -/
def explore (g : Graph) (marks : Array Mark) : List Frame → Except Error (Array Mark)
  | [] => .ok marks
  | ⟨id, []⟩ :: stack => explore g (marks.setIfInBounds id.index .left) stack
  | ⟨id, none :: slots⟩ :: stack => explore g marks (⟨id, slots⟩ :: stack)
  | ⟨id, some sub :: slots⟩ :: stack =>
    match _mark : marks[sub.index]? with
    | none => .error (.unknownSubTask id sub)
    | some .entered => .error (.cycle sub)
    | some .left => explore g marks (⟨id, slots⟩ :: stack)
    | some .fresh =>
      explore g (marks.setIfInBounds sub.index .entered)
        (⟨sub, g.slots sub⟩ :: ⟨id, slots⟩ :: stack)
  termination_by stack => (freshCount marks, openWork stack)
  decreasing_by
    · have := freshCount_set_le marks id.index (m := .left) (by decide)
      rcases Nat.lt_or_eq_of_le this with h | h
      · exact Prod.Lex.left _ _ h
      · rw [h]
        exact Prod.Lex.right _ (by simp [openWork])
    · exact Prod.Lex.right _ (by simp [openWork])
    · exact Prod.Lex.right _ (by simp [openWork])
    · exact Prod.Lex.left _ _ (freshCount_set_lt _mark)

/-- Walks below each root in turn. -/
def checkFrom (g : Graph) (marks : Array Mark) : List TaskId → Except Error Unit
  | [] => .ok ()
  | root :: roots =>
    match marks[root.index]? with
    | none => .error (.unknownRoot root)
    | some .left => checkFrom g marks roots
    | some _ => do
      let marks ← explore g (marks.setIfInBounds root.index .entered) [⟨root, g.slots root⟩]
      checkFrom g marks roots

/-- Refuses when a root or a sub-task below the roots does not exist, or when the trees below the
roots contain a cycle. -/
def check (g : Graph) (roots : List TaskId) : Except Error Unit :=
  checkFrom g (Array.replicate g.size .fresh) roots

end Graph

end RenderPlan
