/-
# RenderPlan.Proofs.Graph.Dump -- the shape of trees can be read off a dump

A dump has a title line, then a line for each row of the unfolded trees, and the rule (`dump_eq`). A
row is a node or a hole at some level, and rows stand in pre-order. So lists of sound entries can be
dumped (`exists_dump`).

The spaces in front of a line tell the level of its row, and by their parity whether it is a hole, if
names do not begin with spaces of their own. That is enough to put the trees together again, but for
what stands in them: `regrow` reads the indentations from the last to the first, and a node takes for
its slots the trees that were put together since and stand deeper than itself. So two dumps that are
the same are dumps of trees of the same shape (`dump_shows_shape`).
-/
import RenderPlan.Graph.Show
import RenderPlan.Proofs.Graph.Unfolding

namespace RenderPlan

/-! ## Rows -/

/-- A line of a dump: a node, or a hole, and how many nodes stand above it. -/
structure Row where
  level : Nat
  entry : Option TaskId
  deriving DecidableEq, Repr

/-- How far a row is moved to the right. -/
def Row.indentation (r : Row) : Nat :=
  match r.entry with
  | none => 2 * r.level + 1
  | some _ => 2 * r.level

namespace Tree

mutual

/-- The rows of a tree at a level: a node stands before its slots, which are one level deeper. -/
def rows (level : Nat) : Tree → List Row
  | hole => [⟨level, none⟩]
  | node id slots => ⟨level, some id⟩ :: rowsOfSlots (level + 1) slots

/-- The rows of trees side by side. -/
def rowsOfSlots (level : Nat) : List Tree → List Row
  | [] => []
  | t :: slots => rows level t ++ rowsOfSlots level slots

end

@[simp] theorem rowsOfSlots_eq (level : Nat) (slots : List Tree) :
    rowsOfSlots level slots = slots.flatMap (rows level) := by
  induction slots with
  | nil => rfl
  | cons t slots ih => rw [rowsOfSlots, List.flatMap_cons, ih]

end Tree

namespace Graph

variable {g : Graph} {id : TaskId} {depth level : Nat} {list : List (Option TaskId)}
  {trees : List Tree}

/-- The line of a row. -/
def rowLine (g : Graph) (r : Row) : String :=
  indent (2 * r.level) ++
    match r.entry with
    | none => " NULL"
    | some id => (g.get? id).elim "" Node.describe

/-- The lines of a slot are those of the rows of its unfolding. -/
theorem slotLines_of_unfold {slot : Option TaskId} {t : Tree} (h : g.unfold depth slot = .ok t) :
    g.slotLines depth level slot = .ok ((t.rows level).map g.rowLine) := by
  induction depth generalizing level slot t with
  | zero =>
      cases slot with
      | none => cases h; rfl
      | some id => cases h
  | succ depth ih =>
      cases slot with
      | none => cases h; rfl
      | some id =>
          obtain ⟨n, slots, hn, hslots, rfl⟩ := unfold_eq_ok_iff.mp h
          have hbelow : n.subTasks.mapM (g.slotLines depth (level + 1)) =
              .ok (slots.map fun t => (t.rows (level + 1)).map g.rowLine) := by
            rw [mapM_eq_ok_iff, List.forall₂_map_right_iff]
            exact (mapM_eq_ok_iff.mp hslots).imp fun _ _ => ih
          refine bind_eq_ok_iff.mpr ⟨n, fetch_eq_ok_iff.mpr hn, bind_eq_ok_iff.mpr ⟨_, hbelow, ?_⟩⟩
          have hline : g.rowLine ⟨level, some id⟩ = indent (2 * level) ++ n.describe := by
            simp only [rowLine, hn, Option.elim_some]
          rw [Tree.rows, Tree.rowsOfSlots_eq, List.map_cons, hline, List.map_flatMap,
            List.flatMap_def]
          rfl

/-- **The lines of a dump.** -/
theorem dump_eq (h : g.trees list = .ok trees) (title : String) : g.dump list title =
    .ok (titleLine title :: (trees.flatMap (Tree.rows 0)).map g.rowLine ++ [rule]) := by
  have hlines : list.mapM (g.slotLines (g.size + 1) 0) =
      .ok (trees.map fun t => (t.rows 0).map g.rowLine) := by
    rw [mapM_eq_ok_iff, List.forall₂_map_right_iff]
    exact (mapM_eq_ok_iff.mp h).imp fun _ _ => slotLines_of_unfold
  rw [dump, listLines, hlines, List.map_flatMap, List.flatMap_def]
  rfl

/-- A list of sound entries can be dumped. -/
theorem exists_dump (h : ∀ id, some id ∈ list → g.SoundAt id) (title : String) :
    ∃ lines, g.dump list title = .ok lines := by
  obtain ⟨trees, htrees⟩ := exists_trees h
  exact ⟨_, dump_eq htrees title⟩

/-! ## Lines -/

/-- The title line is as long as the rule, whatever the title. -/
theorem length_titleLine (title : String) : (titleLine title).length = rule.length := by
  simp only [titleLine, String.length_ofList, List.length_map, List.length_append,
    List.length_replicate, List.length_take]
  omega

/-- How many spaces stand in front of a text. -/
def leadingSpaces (s : String) : Nat := (s.toList.takeWhile (· = ' ')).length

/-- The text shows where it begins: it is not empty and does not begin with a space. -/
def Visible (s : String) : Prop := s ≠ "" ∧ s.toList.head? ≠ some ' '

instance (s : String) : Decidable (Visible s) := inferInstanceAs (Decidable (_ ∧ _))

/-- All tasks below the entries of a list show where their names begin. -/
def Named (g : Graph) (list : List (Option TaskId)) : Prop :=
  ∀ root, some root ∈ list → ∀ id n, g.Reaches root id → g.get? id = some n → Visible n.name

theorem named_of_nodes (h : ∀ n ∈ g.nodes.toList, Visible n.name) : g.Named list := by
  intro root _ id n _ hn
  exact h n (Array.mem_toList_iff.mpr (Array.mem_of_getElem? hn))

theorem leadingSpaces_append {s : String} (h : s.toList.head? ≠ some ' ') (n : Nat) :
    leadingSpaces (indent n ++ s) = n := by
  have hstop : s.toList.takeWhile (fun c => decide (c = ' ')) = [] := by
    cases hs : s.toList with
    | nil => rfl
    | cons c cs =>
        rw [hs] at h
        exact List.takeWhile_cons_of_neg (by simpa using h)
  rw [leadingSpaces, String.toList_append, indent, String.toList_ofList,
    List.takeWhile_append_of_pos (by simp), hstop, List.append_nil, List.length_replicate]

theorem Visible.describe {n : Node} (h : Visible n.name) : n.describe.toList.head? ≠ some ' ' := by
  obtain ⟨hne, hhead⟩ := h
  have hname : n.name.toList ≠ [] := fun hnil => hne (String.toList_eq_nil_iff.mp hnil)
  obtain ⟨c, cs, hcs⟩ := List.exists_cons_of_ne_nil hname
  rw [hcs] at hhead
  simp only [Node.describe, String.toList_append, hcs, List.cons_append]
  exact hhead

/-- What stands in the unfolding of a slot exists and is reached from there. -/
theorem reaches_of_mem_rows {slot : Option TaskId} {t : Tree} (h : g.unfold depth slot = .ok t)
    {r : Row} (hr : r ∈ t.rows level) (hid : r.entry = some id) :
    (∃ root, slot = some root ∧ g.Reaches root id) ∧ ∃ n, g.get? id = some n := by
  induction depth generalizing level slot t with
  | zero =>
      cases slot with
      | none =>
          cases h
          rw [List.mem_singleton.mp hr] at hid
          cases hid
      | some root => cases h
  | succ depth ih =>
      cases slot with
      | none =>
          cases h
          rw [List.mem_singleton.mp hr] at hid
          cases hid
      | some root =>
          obtain ⟨n, slots, hn, hslots, rfl⟩ := unfold_eq_ok_iff.mp h
          rw [Tree.rows, Tree.rowsOfSlots_eq] at hr
          rcases List.mem_cons.mp hr with rfl | hr
          · cases hid
            exact ⟨⟨id, rfl, .refl id⟩, n, hn⟩
          · obtain ⟨t, ht, hr⟩ := List.mem_flatMap.mp hr
            obtain ⟨slot, hslot, hunfold⟩ := exists_of_mem_result hslots ht
            obtain ⟨⟨sub, rfl, hreach⟩, hexists⟩ := ih hunfold hr
            exact ⟨⟨root, rfl, .head ⟨n, hn, hslot⟩ hreach⟩, hexists⟩

/-- **A line stands behind as many spaces as its row says**, if the names are visible. -/
theorem leadingSpaces_rowLine (h : g.trees list = .ok trees) (hnamed : g.Named list) {r : Row}
    (hr : r ∈ trees.flatMap (Tree.rows 0)) : leadingSpaces (g.rowLine r) = r.indentation := by
  obtain ⟨level, entry⟩ := r
  cases entry with
  | none =>
      -- the space in front of the word is one of those that count
      have hword : indent (2 * level) ++ " NULL" = indent (2 * level + 1) ++ "NULL" := by
        apply String.toList_injective
        simp [indent, List.replicate_succ']
      rw [rowLine, hword]
      exact leadingSpaces_append (by decide) _
  | some id =>
      obtain ⟨t, ht, hrow⟩ := List.mem_flatMap.mp hr
      obtain ⟨slot, hslot, hunfold⟩ := exists_of_mem_result h ht
      obtain ⟨⟨root, rfl, hreach⟩, n, hn⟩ := reaches_of_mem_rows hunfold hrow rfl
      have hline : g.rowLine ⟨level, some id⟩ = indent (2 * level) ++ n.describe := by
        simp only [rowLine, hn, Option.elim_some]
      rw [hline]
      exact leadingSpaces_append (hnamed root hslot id n hreach hn).describe _

end Graph

/-! ## Shapes -/

/-- What is left of a tree when one forgets which nodes stand in it. -/
inductive Shape where
  | hole
  | node (slots : List Shape)

namespace Tree

mutual

/-- The shape of a tree. -/
def shape : Tree → Shape
  | hole => .hole
  | node _ slots => .node (shapes slots)

/-- The shapes of trees side by side. -/
def shapes : List Tree → List Shape
  | [] => []
  | t :: slots => shape t :: shapes slots

end

@[simp] theorem shapes_eq (slots : List Tree) : shapes slots = slots.map shape := by
  induction slots with
  | nil => rfl
  | cons t slots ih => rw [shapes, List.map_cons, ih]

end Tree

namespace Shape

/-- Puts a tree in front of those that were put together so far, each with its level. An odd
indentation makes a hole. An even one makes a node, and the node takes for its slots what stands next
to it and is deeper. -/
def graft (indentation : Nat) (grown : List (Nat × Shape)) : List (Nat × Shape) :=
  let level := indentation / 2
  if indentation % 2 = 1 then (level, hole) :: grown
  else (level, node ((grown.takeWhile (level < ·.1)).map Prod.snd)) ::
    grown.dropWhile (level < ·.1)

/-- The shapes of the trees that have these indentations. -/
def regrow (indentations : List Nat) : List Shape :=
  (indentations.foldr graft []).map Prod.snd

/-- What was put together so far begins no deeper than at a level. -/
def StartsAbove (level : Nat) (grown : List (Nat × Shape)) : Prop :=
  ∀ e ∈ grown.head?, e.1 ≤ level

theorem graft_hole (level : Nat) (grown : List (Nat × Shape)) :
    graft (2 * level + 1) grown = (level, hole) :: grown := by
  have hlevel : (2 * level + 1) / 2 = level := by omega
  rw [graft, if_pos (by omega), hlevel]

/-- A node takes the slots in front of what is no deeper than itself. -/
theorem graft_node {level : Nat} {grown : List (Nat × Shape)} (h : StartsAbove level grown)
    (slots : List Shape) :
    graft (2 * level) (slots.map (level + 1, ·) ++ grown) = (level, node slots) :: grown := by
  have hlevel : 2 * level / 2 = level := by omega
  have hdeeper : ∀ e ∈ slots.map (level + 1, ·), decide (level < e.1) = true := by
    simp
  have htake : grown.takeWhile (fun e => decide (level < e.1)) = [] := by
    cases grown with
    | nil => rfl
    | cons e grown => exact List.takeWhile_cons_of_neg (by simpa [StartsAbove] using h)
  have hdrop : grown.dropWhile (fun e => decide (level < e.1)) = grown := by
    cases grown with
    | nil => rfl
    | cons e grown => exact List.dropWhile_cons_of_neg (by simpa [StartsAbove] using h)
  rw [graft, hlevel, if_neg (by omega), List.takeWhile_append_of_pos hdeeper,
    List.dropWhile_append_of_pos hdeeper, htake, hdrop, List.append_nil, List.map_map]
  exact congrArg (fun slots => (level, node slots) :: grown) (List.map_id slots)

/-- The rows of a tree put it in front of the others. -/
def Regrows (t : Tree) : Prop :=
  ∀ level grown, StartsAbove level grown →
    ((t.rows level).map Row.indentation).foldr graft grown = (level, t.shape) :: grown

theorem foldr_rows {level : Nat} {trees : List Tree} (htrees : ∀ t ∈ trees, Regrows t)
    {grown : List (Nat × Shape)} (h : StartsAbove level grown) :
    ((trees.flatMap (Tree.rows level)).map Row.indentation).foldr graft grown =
      (trees.map Tree.shape).map (level, ·) ++ grown := by
  induction trees with
  | nil => rfl
  | cons t trees ih =>
      obtain ⟨hfirst, hrest⟩ := List.forall_mem_cons.mp htrees
      rw [List.flatMap_cons, List.map_append, List.foldr_append, ih hrest]
      refine hfirst level _ ?_
      -- behind the tree comes the next one, or what stood there before
      cases trees with
      | nil => exact h
      | cons t' trees => exact fun e he => by cases he; exact Nat.le_refl _

theorem regrows (t : Tree) : Regrows t := by
  induction t using Tree.induction with
  | hole => exact fun level grown _ => graft_hole level grown
  | node id slots ih =>
      intro level grown h
      have hbehind : StartsAbove (level + 1) grown := fun e he => Nat.le_succ_of_le (h e he)
      rw [Tree.rows, Tree.rowsOfSlots_eq, List.map_cons, List.foldr_cons, foldr_rows ih hbehind,
        Tree.shape, Tree.shapes_eq]
      exact graft_node h _

/-- **Trees can be put together from the indentations of their rows.** -/
theorem regrow_indentations (trees : List Tree) :
    regrow ((trees.flatMap (Tree.rows 0)).map Row.indentation) = trees.map Tree.shape := by
  have hnothing : StartsAbove 0 [] := by rintro e ⟨⟩
  rw [regrow, foldr_rows (fun t _ => regrows t) hnothing, List.append_nil, List.map_map]
  exact List.map_id _

end Shape

namespace Graph

variable {g : Graph} {list : List (Option TaskId)} {trees : List Tree}

/-- The shapes of the trees are a function of the lines between the title and the rule. -/
theorem regrow_lines (h : g.trees list = .ok trees) (hnamed : g.Named list) :
    Shape.regrow (((trees.flatMap (Tree.rows 0)).map g.rowLine).map leadingSpaces) =
      trees.map Tree.shape := by
  rw [List.map_map, ← Shape.regrow_indentations]
  exact congrArg _ (List.map_congr_left fun r hr => leadingSpaces_rowLine h hnamed hr)

/-- **A dump shows the shape of its trees.** A well-formed list has a dump under every title. It is the
title line, which is as long as the rule, then one line for each row of the unfolded trees, in
pre-order, and the rule. If no name is empty or begins with a space, each line stands behind exactly as
many spaces as its row says: twice its level for a node, and one more for a hole. So a list of another
graph with the same dump unfolds into trees of the same shape. -/
theorem dump_shows_shape (h : g.WellFormed (list.filterMap id)) (hnamed : g.Named list)
    (title : String) :
    ∃ trees, g.trees list = .ok trees ∧
      g.dump list title =
        .ok (titleLine title :: (trees.flatMap (Tree.rows 0)).map g.rowLine ++ [rule]) ∧
      (titleLine title).length = rule.length ∧
      (∀ r ∈ trees.flatMap (Tree.rows 0), leadingSpaces (g.rowLine r) = r.indentation) ∧
      ∀ (g' : Graph) (list' : List (Option TaskId)), g'.WellFormed (list'.filterMap id) →
        g'.Named list' → g.dump list title = g'.dump list' title →
          ∃ trees', g'.trees list' = .ok trees' ∧ trees.map Tree.shape = trees'.map Tree.shape := by
  have hexists : ∀ {g : Graph} {list : List (Option TaskId)}, g.WellFormed (list.filterMap id) →
      ∃ trees, g.trees list = .ok trees :=
    fun h => exists_trees fun id hid => h id (List.mem_filterMap.mpr ⟨_, hid, rfl⟩)
  obtain ⟨trees, htrees⟩ := hexists h
  refine ⟨trees, htrees, dump_eq htrees title, length_titleLine title,
    fun r hr => leadingSpaces_rowLine htrees hnamed hr, ?_⟩
  intro g' list' h' hnamed' hsame
  obtain ⟨trees', htrees'⟩ := hexists h'
  rw [dump_eq htrees, dump_eq htrees', Except.ok.injEq, List.cons_append, List.cons_append,
    List.cons.injEq] at hsame
  have hlines := List.append_cancel_right hsame.2
  refine ⟨trees', htrees', ?_⟩
  rw [← regrow_lines htrees hnamed, ← regrow_lines htrees' hnamed', hlines]

/-! ### A shared node and its copies

The node stands in two slots, once under one id and once under two, with a hole between them. It has
the name that holes have in a dump. -/

/-- A node with the name of a hole. -/
def nullNode : Node := Node.ofKind ⟨0, "NULL", none, {}⟩

/-- A node above others. -/
def topNode (slots : List (Option TaskId)) : Node :=
  { Node.ofKind ⟨1, "top", none, {}⟩ with subTasks := slots }

/-- The node stands in two slots. -/
def sharing : Graph := ⟨#[nullNode, topNode [some ⟨0⟩, none, some ⟨0⟩]]⟩

/-- The node and its copy stand in the slots. -/
def copying : Graph := ⟨#[nullNode, nullNode, topNode [some ⟨0⟩, none, some ⟨1⟩]]⟩

theorem dump_shows_shape_copied :
    sharing.WellFormed [⟨1⟩] ∧ sharing.Named [some ⟨1⟩, none] ∧ copying.WellFormed [⟨2⟩] ∧
      copying.Named [some ⟨2⟩, none] ∧
      sharing.dump [some ⟨1⟩, none] "a list" = .ok ["----a-list---------------------------------",
        "top", "  NULL", "   NULL", "  NULL", " NULL",
        "-------------------------------------------"] ∧
      sharing.dump [some ⟨1⟩, none] "a list" = copying.dump [some ⟨2⟩, none] "a list" ∧
      ∃ trees trees', sharing.trees [some ⟨1⟩, none] = .ok trees ∧
        copying.trees [some ⟨2⟩, none] = .ok trees' ∧
        trees.map Tree.shape = trees'.map Tree.shape := by
  have hsharing : sharing.WellFormed [⟨1⟩] := wellFormed_of_older (by decide) (by decide)
  have hcopying : copying.WellFormed [⟨2⟩] := wellFormed_of_older (by decide) (by decide)
  have hnamed : sharing.Named [some ⟨1⟩, none] := named_of_nodes (by decide)
  have hnamed' : copying.Named [some ⟨2⟩, none] := named_of_nodes (by decide)
  have hsame : sharing.dump [some ⟨1⟩, none] "a list" = copying.dump [some ⟨2⟩, none] "a list" := rfl
  obtain ⟨trees, htrees, -, -, -, hshapes⟩ := dump_shows_shape hsharing hnamed "a list"
  obtain ⟨trees', htrees', hshape⟩ := hshapes copying [some ⟨2⟩, none] hcopying hnamed' hsame
  exact ⟨hsharing, hnamed, hcopying, hnamed', by decide +kernel, hsame, trees, trees', htrees,
    htrees', hshape⟩

end Graph

end RenderPlan
