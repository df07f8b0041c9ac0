/-
# RenderPlan.Proofs.Bench.Grid -- the frame is a grid of cells

A frame is a grid. Each row has a cell for each column and one behind them for its composite, and
the nodes of the frame are the cells, row by row (`build_eq`). So a cell is found by its row and its
column, and the kind of a node tells which cell it is.

Positions and sizes are 32-bit words. If the sums and the edges are below the limits of words
(`Arguments.Fits`), nothing wraps around, and the edges of a cell are the numbers that one expects
(`spans_tile`, `spans_composite`). That is so for frames that are well below these limits
(`Arguments.Ordinary`). Then two cells overlap if they are in one row, and if they are both composites or
both tiles that are so near to each other that the overlap bridges the distance (`overlaps_cells_iff`).
-/
import RenderPlan.Bench.Frame
import RenderPlan.Proofs.Hazard.Conflicts
import Mathlib.Tactic.Ring

namespace RenderPlan

/-- The node as it is when it was stored first at this place. -/
def Node.storedAt (i : Nat) (n : Node) : Node := { n with kind := { n.kind with serial := i } }

theorem Node.overlaps_iff_of_targets {n m : Node} {s t : Buffer} (hn : n.target = some s)
    (hm : m.target = some t) :
    n.Overlaps m ↔ s.serial = t.serial ∧ n.rect.Intersects m.rect := by
  rw [overlaps_iff, hn, hm]
  constructor
  · rintro ⟨_, _, ⟨⟩, ⟨⟩, h⟩
    exact h
  · exact fun h => ⟨s, t, rfl, rfl, h⟩

/-! ## Edges as natural numbers -/

namespace Rect

/-- The edges of the rectangle are these numbers. -/
structure Spans (r : Rect) (x₀ y₀ x₁ y₁ : Nat) : Prop where
  minX : r.minX.toInt = x₀
  minY : r.minY.toInt = y₀
  maxX : r.maxX.toInt = x₁
  maxY : r.maxY.toInt = y₁

theorem Spans.intersects_iff {r s : Rect} {x₀ y₀ x₁ y₁ u₀ v₀ u₁ v₁ : Nat}
    (hr : r.Spans x₀ y₀ x₁ y₁) (hs : s.Spans u₀ v₀ u₁ v₁) :
    r.Intersects s ↔ (x₀ < x₁ ∧ y₀ < y₁) ∧ (u₀ < u₁ ∧ v₀ < v₁) ∧
      x₀ < u₁ ∧ u₀ < x₁ ∧ y₀ < v₁ ∧ v₀ < y₁ := by
  simp only [Rect.intersects_iff, Rect.isValid_iff, hr.minX, hr.minY, hr.maxX, hr.maxY, hs.minX,
    hs.minY, hs.maxX, hs.maxY, Int.ofNat_lt]

end Rect

namespace Bench

/-! ## Rows and columns -/

namespace Arguments

variable {a : Arguments}

/-- How many tiles stand side by side. -/
def columns (a : Arguments) : Nat := (a.width.toNat + a.tile.toNat - 1) / a.tile.toNat

/-- How many rows there are. -/
def rows (a : Arguments) : Nat := (a.height.toNat + a.tile.toNat - 1) / a.tile.toNat

/-- How many tiles there are. -/
def tiles (a : Arguments) : Nat := a.columns * a.rows

/-- The frame is not empty, and it is below the limits of 32-bit words. -/
structure Ordinary (a : Arguments) : Prop where
  width_pos : 1 ≤ a.width.toNat
  height_pos : 1 ≤ a.height.toNat
  tile_pos : 1 ≤ a.tile.toNat
  width_lt : a.width.toNat < 2 ^ 31
  height_lt : a.height.toNat < 2 ^ 31
  reach_lt : a.width.toNat + a.tile.toNat + a.overlap.toNat < 2 ^ 32
  nodes_lt : a.tiles + a.rows < 2 ^ 32

/-- No sum is beyond the limit of 32-bit words and no edge beyond that of signed ones, and the tiles can
be counted in a word. -/
structure Fits (a : Arguments) : Prop where
  width_lt : a.width.toNat < 2 ^ 31
  height_lt : a.height.toNat < 2 ^ 31
  reach_lt : a.columns * a.tile.toNat + a.overlap.toNat < 2 ^ 32
  tiles_lt : a.tiles < 2 ^ 32

theorem lt_ceil_iff {limit step k : Nat} (hstep : 1 ≤ step) :
    k < (limit + step - 1) / step ↔ k * step < limit := by
  rw [Nat.lt_iff_add_one_le, Nat.le_div_iff_mul_le hstep, Nat.add_one_mul]
  omega

/-- A column begins within the frame. -/
theorem lt_columns_iff (ht : 1 ≤ a.tile.toNat) {c : Nat} :
    c < a.columns ↔ c * a.tile.toNat < a.width.toNat :=
  lt_ceil_iff ht

/-- A row begins within the frame. -/
theorem lt_rows_iff (ht : 1 ≤ a.tile.toNat) {r : Nat} :
    r < a.rows ↔ r * a.tile.toNat < a.height.toNat :=
  lt_ceil_iff ht

theorem columns_pos (ht : 1 ≤ a.tile.toNat) (hw : 1 ≤ a.width.toNat) : 0 < a.columns := by
  rw [lt_columns_iff ht, Nat.zero_mul]
  exact hw

theorem rows_pos (ht : 1 ≤ a.tile.toNat) (hh : 1 ≤ a.height.toNat) : 0 < a.rows := by
  rw [lt_rows_iff ht, Nat.zero_mul]
  exact hh

/-- The last column begins within the frame, so its tile reaches less than a tile and the overlap
beyond it. -/
theorem Ordinary.fits (ha : a.Ordinary) : a.Fits where
  width_lt := ha.width_lt
  height_lt := ha.height_lt
  reach_lt := by
    obtain ⟨c, hc⟩ : ∃ c, a.columns = c + 1 :=
      ⟨a.columns - 1, (Nat.sub_add_cancel (columns_pos ha.tile_pos ha.width_pos)).symm⟩
    have hlast : c * a.tile.toNat < a.width.toNat := (lt_columns_iff ha.tile_pos).mp (by omega)
    have hlimit := ha.reach_lt
    rw [hc, Nat.add_one_mul]
    omega
  tiles_lt := by
    have hlimit := ha.nodes_lt
    omega

/-- The number of a tile, counted row by row. -/
def numberOf (a : Arguments) (r c : Nat) : Nat := r * a.columns + c

theorem numberOf_lt {r c : Nat} (hr : r < a.rows) (hc : c < a.columns) : a.numberOf r c < a.tiles := by
  calc a.numberOf r c < r * a.columns + a.columns := Nat.add_lt_add_left hc _
    _ = (r + 1) * a.columns := (Nat.add_one_mul ..).symm
    _ ≤ a.rows * a.columns := Nat.mul_le_mul_right _ hr
    _ = a.tiles := Nat.mul_comm ..

/-- The tile is empty. -/
def Empty (a : Arguments) (r c : Nat) : Prop := a.numberOf r c % 7 = 6

instance (r c : Nat) : Decidable (a.Empty r c) := inferInstanceAs (Decidable (_ = _))

/-- Where a cell is stored. The composite of a row stands behind the last column. -/
def place (a : Arguments) (r c : Nat) : TaskId := ⟨r * (a.columns + 1) + c⟩

theorem place_succ_row (a : Arguments) (r : Nat) :
    (a.place (r + 1) 0).index = (a.place r a.columns).index + 1 := by
  simp only [place]
  ring

/-- A later row stands behind. -/
theorem place_lt_of_row_lt {r r' c c' : Nat} (hc : c ≤ a.columns) (hr : r < r') :
    (a.place r c).index < (a.place r' c').index := by
  have hle : (r + 1) * (a.columns + 1) ≤ r' * (a.columns + 1) := Nat.mul_le_mul_right _ hr
  rw [Nat.add_one_mul] at hle
  simp only [place]
  omega

end Arguments

/-! ## The cells -/

section Cells

variable (a : Arguments)

/-- The node of a cell: a tile, or behind the last column the composite of the row. -/
def cellNode (r c : Nat) : Node :=
  let y := UInt32.ofNat (r * a.tile.toNat)
  let n := if c < a.columns then
      tileNode a (UInt32.ofNat (a.numberOf r c)) (UInt32.ofNat (c * a.tile.toNat)) y
    else compositeNode a y ((List.range a.columns).map (a.place r))
  n.storedAt (a.place r c).index

/-- The first `n` cells, row by row. -/
def grid (n : Nat) : Graph :=
  ⟨((List.range n).map fun i => cellNode a (i / (a.columns + 1)) (i % (a.columns + 1))).toArray⟩

variable {a}

@[simp] theorem size_grid (n : Nat) : (grid a n).size = n := by
  simp [grid, Graph.size]

theorem cellNode_of_lt {r c : Nat} (hc : c < a.columns) :
    cellNode a r c = (tileNode a (UInt32.ofNat (a.numberOf r c))
      (UInt32.ofNat (c * a.tile.toNat)) (UInt32.ofNat (r * a.tile.toNat))).storedAt
        (a.place r c).index := by
  rw [cellNode, if_pos hc]

theorem cellNode_composite (r : Nat) :
    cellNode a r a.columns = (compositeNode a (UInt32.ofNat (r * a.tile.toNat))
      ((List.range a.columns).map (a.place r))).storedAt (a.place r a.columns).index := by
  rw [cellNode, if_neg (Nat.lt_irrefl _)]

theorem cellNode_of_place {r c : Nat} (hc : c ≤ a.columns) :
    cellNode a ((a.place r c).index / (a.columns + 1)) ((a.place r c).index % (a.columns + 1)) =
      cellNode a r c := by
  have hlt := Nat.lt_succ_of_le hc
  rw [Arguments.place, Nat.mul_comm, Nat.mul_add_div (Nat.succ_pos _), Nat.div_eq_of_lt hlt,
    Nat.add_zero, Nat.mul_add_mod, Nat.mod_eq_of_lt hlt]

/-- A cell is found at its place. -/
theorem get?_grid {n r c : Nat} (hc : c ≤ a.columns) (hn : (a.place r c).index < n) :
    (grid a n).get? (a.place r c) = some (cellNode a r c) := by
  rw [Graph.get?, grid, List.getElem?_toArray, List.getElem?_map, List.getElem?_range hn,
    Option.map_some, cellNode_of_place hc]

/-- The next cell is stored behind the others. -/
theorem grid_insert {r c : Nat} (hc : c ≤ a.columns) :
    (grid a (a.place r c).index).insert (cellNode a r c) = grid a ((a.place r c).index + 1) := by
  rw [Graph.insert, grid, grid, List.range_succ, List.map_append, List.map_singleton,
    cellNode_of_place hc, List.push_toArray]

/-! ## The frame -/

theorem addTiles_eq (r : Nat) (roots : List TaskId) {k : Nat} (hk : k ≤ a.columns) :
    ((List.range k).map fun c => UInt32.ofNat (c * a.tile.toNat)).foldl
        (Frame.addTile a (UInt32.ofNat (r * a.tile.toNat)))
        (⟨grid a (a.place r 0).index, roots, UInt32.ofNat (a.numberOf r 0)⟩, []) =
      (⟨grid a (a.place r k).index, roots, UInt32.ofNat (a.numberOf r k)⟩,
        (List.range k).map (a.place r)) := by
  induction k with
  | zero => rfl
  | succ k ih =>
      have hstored : (tileNode a (UInt32.ofNat (a.numberOf r k)) (UInt32.ofNat (k * a.tile.toNat))
          (UInt32.ofNat (r * a.tile.toNat))).storedAt (grid a (a.place r k).index).size =
            cellNode a r k := by
        rw [size_grid, cellNode_of_lt hk]
      have hcell : (grid a (a.place r k).index).insertNew (tileNode a (UInt32.ofNat (a.numberOf r k))
          (UInt32.ofNat (k * a.tile.toNat)) (UInt32.ofNat (r * a.tile.toNat))) =
            grid a (a.place r (k + 1)).index := by
        rw [Graph.insertNew]
        exact (congrArg _ hstored).trans (grid_insert (Nat.le_of_lt hk))
      have hnumber : UInt32.ofNat (a.numberOf r k) + 1 = UInt32.ofNat (a.numberOf r (k + 1)) :=
        (UInt32.ofNat_add ..).symm
      have hid : (grid a (a.place r k).index).nextId = a.place r k := by
        rw [Graph.nextId, size_grid]
      rw [List.range_succ, List.map_append, List.foldl_append, ih (Nat.le_of_lt hk), List.map_append]
      simp only [List.map_singleton, List.foldl_cons, List.foldl_nil, Frame.addTile, hcell, hnumber,
        hid]

theorem addRow_eq (r : Nat) (roots : List TaskId) :
    Frame.addRow a ⟨grid a (a.place r 0).index, roots, UInt32.ofNat (a.numberOf r 0)⟩
        (UInt32.ofNat (r * a.tile.toNat)) =
      ⟨grid a (a.place (r + 1) 0).index, roots ++ [a.place r a.columns],
        UInt32.ofNat (a.numberOf (r + 1) 0)⟩ := by
  have htiles := addTiles_eq (a := a) r roots (Nat.le_refl _)
  have hstored : (compositeNode a (UInt32.ofNat (r * a.tile.toNat))
      ((List.range a.columns).map (a.place r))).storedAt (grid a (a.place r a.columns).index).size =
        cellNode a r a.columns := by
    rw [size_grid, cellNode_composite]
  have hcell : (grid a (a.place r a.columns).index).insertNew
      (compositeNode a (UInt32.ofNat (r * a.tile.toNat)) ((List.range a.columns).map (a.place r))) =
        grid a (a.place (r + 1) 0).index := by
    rw [Graph.insertNew, Arguments.place_succ_row]
    exact (congrArg _ hstored).trans (grid_insert (Nat.le_refl _))
  have hid : (grid a (a.place r a.columns).index).nextId = a.place r a.columns := by
    rw [Graph.nextId, size_grid]
  have hnumber : a.numberOf r a.columns = a.numberOf (r + 1) 0 := by
    rw [Arguments.numberOf, Arguments.numberOf, Nat.add_one_mul, Nat.add_zero]
  have hrow : (multiples a.width a.tile).foldl (Frame.addTile a (UInt32.ofNat (r * a.tile.toNat)))
      (⟨grid a (a.place r 0).index, roots, UInt32.ofNat (a.numberOf r 0)⟩, []) = _ := htiles
  rw [Frame.addRow, hrow]
  simp only [hcell, hid, hnumber]

variable (a) in
/-- The composites of a frame, in order. -/
def composites : List TaskId := (List.range a.rows).map fun r => a.place r a.columns

variable (a) in
/-- The whole frame. -/
def frameGraph : Graph := grid a (a.place a.rows 0).index

/-- **The frame is the grid.** -/
theorem build_eq : Frame.build a =
    ⟨frameGraph a, composites a, UInt32.ofNat (a.numberOf a.rows 0)⟩ := by
  have hrows : ∀ k, ((List.range k).map fun r => UInt32.ofNat (r * a.tile.toNat)).foldl
      (Frame.addRow a) ⟨.empty, [], 0⟩ =
        ⟨grid a (a.place k 0).index, (List.range k).map fun r => a.place r a.columns,
          UInt32.ofNat (a.numberOf k 0)⟩ := by
    intro k
    induction k with
    | zero => simp [Arguments.place, Arguments.numberOf, grid, Graph.empty]
    | succ k ih =>
        rw [List.range_succ, List.map_append, List.foldl_append, ih, List.map_append]
        exact addRow_eq k _
  exact hrows a.rows

/-- A cell of the frame is found at its place. -/
theorem get?_frameGraph {r c : Nat} (hr : r < a.rows) (hc : c ≤ a.columns) :
    (frameGraph a).get? (a.place r c) = some (cellNode a r c) :=
  get?_grid hc (Arguments.place_lt_of_row_lt hc hr)

theorem subTasks_tile {r c : Nat} (hc : c < a.columns) : (cellNode a r c).subTasks = [] := by
  rw [cellNode_of_lt hc]
  rfl

theorem subTasks_composite (r : Nat) :
    (cellNode a r a.columns).subTasks = ((List.range a.columns).map (a.place r)).map some := by
  rw [cellNode_composite]
  rfl

theorem children_tile {r c : Nat} (hc : c < a.columns) : (cellNode a r c).children = [] := by
  rw [Node.children, subTasks_tile hc]
  rfl

theorem children_cellNode (r : Nat) :
    (cellNode a r a.columns).children = (List.range a.columns).map (a.place r) := by
  rw [Node.children, subTasks_composite, List.filterMap_map]
  exact List.filterMap_some

/-! ## Where the cells are -/

/-- A word below the largest signed one is the same number with a sign. -/
theorem toInt_toInt32 {x : UInt32} (h : x.toNat < 2 ^ 31) : x.toInt32.toInt = x.toNat := by
  have hlt : 2 * x.toBitVec.toNat < 2 ^ 32 := by
    rw [UInt32.toNat_toBitVec]
    omega
  exact BitVec.toInt_eq_toNat_of_lt hlt

theorem toNat_min (x y : UInt32) : (min x y).toNat = min x.toNat y.toNat := by
  show (if x ≤ y then x else y).toNat = _
  split
  · next hle => exact (Nat.min_eq_left (UInt32.le_iff_toNat_le.mp hle)).symm
  · next hlt =>
      exact (Nat.min_eq_right (Nat.le_of_not_le fun h => hlt (UInt32.le_iff_toNat_le.mpr h))).symm

/-- An edge on the far side, where the sum does not wrap around. -/
theorem toNat_farEdge {position extent limit : UInt32}
    (hsum : position.toNat + extent.toNat < 2 ^ 32) :
    (farEdge position extent limit).toNat = min (position.toNat + extent.toNat) limit.toNat := by
  rw [farEdge, toNat_min, UInt32.toNat_add, Nat.mod_eq_of_lt hsum]

theorem toInt_farEdge {position extent limit : UInt32}
    (hsum : position.toNat + extent.toNat < 2 ^ 32) (hlimit : limit.toNat < 2 ^ 31) :
    (farEdge position extent limit).toInt32.toInt =
      (min (position.toNat + extent.toNat) limit.toNat : Nat) := by
  have hedge : (farEdge position extent limit).toNat = _ := toNat_farEdge hsum
  rw [toInt_toInt32 (by rw [hedge]; omega), hedge]

section Edges

variable {r c : Nat} (ht : 1 ≤ a.tile.toNat)

include ht

theorem toNat_column (hc : c < a.columns) :
    (UInt32.ofNat (c * a.tile.toNat)).toNat = c * a.tile.toNat := by
  have hlt := (Arguments.lt_columns_iff ht).mp hc
  exact UInt32.toNat_ofNat_of_lt' (Nat.lt_trans hlt a.width.toNat_lt)

theorem toNat_row (hr : r < a.rows) :
    (UInt32.ofNat (r * a.tile.toNat)).toNat = r * a.tile.toNat := by
  have hlt := (Arguments.lt_rows_iff ht).mp hr
  exact UInt32.toNat_ofNat_of_lt' (Nat.lt_trans hlt a.height.toNat_lt)

variable (ha : a.Fits)

include ha

/-- The sum for the lower edge of a row. If a tile is higher than the largest signed word, there is but
one row. -/
theorem lowerSum_lt (hr : r < a.rows) : r * a.tile.toNat + a.tile.toNat < 2 ^ 32 := by
  have hlt := (Arguments.lt_rows_iff ht).mp hr
  have hheight := ha.height_lt
  have hword := a.tile.toNat_lt
  rcases Nat.eq_zero_or_pos r with rfl | hpos
  · rwa [Nat.zero_mul, Nat.zero_add]
  · have hle : a.tile.toNat ≤ r * a.tile.toNat := Nat.le_mul_of_pos_left _ hpos
    omega

omit ht in
/-- The sum for the right edge of a tile. -/
theorem rightSum_lt (hc : c < a.columns) :
    c * a.tile.toNat + (a.tile.toNat + a.overlap.toNat) < 2 ^ 32 := by
  have hle : (c + 1) * a.tile.toNat ≤ a.columns * a.tile.toNat := Nat.mul_le_mul_right _ hc
  have hreach := ha.reach_lt
  rw [Nat.add_one_mul] at hle
  omega

theorem toInt_lowerEdge (hr : r < a.rows) :
    (farEdge (UInt32.ofNat (r * a.tile.toNat)) a.tile a.height).toInt32.toInt =
      (min (r * a.tile.toNat + a.tile.toNat) a.height.toNat : Nat) := by
  have hsum := lowerSum_lt ht ha hr
  have hrow := toNat_row ht hr
  rw [toInt_farEdge (by rwa [hrow]) ha.height_lt, hrow]

/-- A tile begins at its column, and ends with its reach or at the edge of the frame. -/
theorem spans_tile (hr : r < a.rows) (hc : c < a.columns) :
    (cellNode a r c).rect.Spans (c * a.tile.toNat) (r * a.tile.toNat)
      (min (c * a.tile.toNat + (a.tile.toNat + a.overlap.toNat)) a.width.toNat)
      (min (r * a.tile.toNat + a.tile.toNat) a.height.toNat) := by
  have hx := (Arguments.lt_columns_iff ht).mp hc
  have hy := (Arguments.lt_rows_iff ht).mp hr
  have hsum := rightSum_lt ha hc
  have hwidth := ha.width_lt
  have hheight := ha.height_lt
  have hcolumn := toNat_column ht hc
  have hrow := toNat_row ht hr
  have hextent : (a.tile + a.overlap).toNat = a.tile.toNat + a.overlap.toNat := by
    rw [UInt32.toNat_add, Nat.mod_eq_of_lt (by omega)]
  rw [cellNode_of_lt hc]
  constructor
  · exact (toInt_toInt32 (by omega)).trans (by rw [hcolumn])
  · exact (toInt_toInt32 (by omega)).trans (by rw [hrow])
  · refine (toInt_farEdge (by omega) hwidth).trans ?_
    rw [hcolumn, hextent]
  · exact toInt_lowerEdge ht ha hr

/-- A composite is as wide as the frame. -/
theorem spans_composite (hr : r < a.rows) :
    (cellNode a r a.columns).rect.Spans 0 (r * a.tile.toNat) a.width.toNat
      (min (r * a.tile.toNat + a.tile.toNat) a.height.toNat) := by
  have hy := (Arguments.lt_rows_iff ht).mp hr
  have hheight := ha.height_lt
  have hrow := toNat_row ht hr
  rw [cellNode_composite]
  constructor
  · rfl
  · exact (toInt_toInt32 (by omega)).trans (by rw [hrow])
  · exact toInt_toInt32 ha.width_lt
  · exact toInt_lowerEdge ht ha hr

end Edges

section Ordinary

variable {r r' c c' : Nat} (ha : a.Ordinary)

include ha

omit ha in
/-- Rows do not touch each other. -/
theorem rows_meet_iff {t h : Nat} (ht : 1 ≤ t) (hr : r * t < h) (hr' : r' * t < h) :
    r * t < min (r' * t + t) h ∧ r' * t < min (r * t + t) h ↔ r = r' := by
  constructor
  · rintro ⟨hlt, hlt'⟩
    have hle : r < r' + 1 := Nat.lt_of_mul_lt_mul_right (a := t) (by rw [Nat.add_one_mul]; omega)
    have hle' : r' < r + 1 := Nat.lt_of_mul_lt_mul_right (a := t) (by rw [Nat.add_one_mul]; omega)
    omega
  · rintro rfl
    omega

/-- **Which cells overlap.** They are in one row, and either both are composites, or both are tiles and
the one reaches the other. -/
theorem overlaps_cells_iff (hr : r < a.rows) (hc : c ≤ a.columns) (hr' : r' < a.rows)
    (hc' : c' ≤ a.columns) :
    (cellNode a r c).Overlaps (cellNode a r' c') ↔ r = r' ∧
      (c = a.columns ∧ c' = a.columns ∨ c < a.columns ∧ c' < a.columns ∧
        c * a.tile.toNat < c' * a.tile.toNat + (a.tile.toNat + a.overlap.toNat) ∧
        c' * a.tile.toNat < c * a.tile.toNat + (a.tile.toNat + a.overlap.toNat)) := by
  have hy := (Arguments.lt_rows_iff ha.tile_pos).mp hr
  have hy' := (Arguments.lt_rows_iff ha.tile_pos).mp hr'
  have hmeet := rows_meet_iff ha.tile_pos hy hy'
  have htile := ha.tile_pos
  have hwidth := ha.width_pos
  have htarget : ∀ {r c}, c < a.columns → (cellNode a r c).target = some (layer a) := by
    intro r c hc
    rw [cellNode_of_lt hc]
    rfl
  have hcanvas : ∀ r, (cellNode a r a.columns).target = some (canvas a) := by
    intro r
    rw [cellNode_composite]
    rfl
  rcases Nat.lt_or_eq_of_le hc with hc | rfl
  · rcases Nat.lt_or_eq_of_le hc' with hc' | rfl
    · have hx := (Arguments.lt_columns_iff htile).mp hc
      have hx' := (Arguments.lt_columns_iff htile).mp hc'
      rw [Node.overlaps_iff_of_targets (htarget hc) (htarget hc'),
        (spans_tile htile ha.fits hr hc).intersects_iff (spans_tile htile ha.fits hr' hc'), ← hmeet]
      omega
    · rw [Node.overlaps_iff_of_targets (htarget hc) (hcanvas r')]
      simp [layer, canvas, Nat.ne_of_lt hc]
  · rcases Nat.lt_or_eq_of_le hc' with hc' | rfl
    · rw [Node.overlaps_iff_of_targets (hcanvas r) (htarget hc')]
      simp [layer, canvas, Nat.ne_of_lt hc']
    · rw [Node.overlaps_iff_of_targets (hcanvas r) (hcanvas r'),
        (spans_composite htile ha.fits hr).intersects_iff (spans_composite htile ha.fits hr'), ← hmeet]
      omega

/-- The name of a tile says whether it is empty. -/
theorem name_tile (hr : r < a.rows) (hc : c < a.columns) :
    (cellNode a r c).name = if a.Empty r c then "tile-empty" else "tile" := by
  have hlt := Arguments.numberOf_lt hr hc
  have hnodes := ha.nodes_lt
  have hnumber : (UInt32.ofNat (a.numberOf r c)).toNat = a.numberOf r c :=
    UInt32.toNat_ofNat_of_lt' (by show _ < 2 ^ 32; omega)
  have hempty : UInt32.ofNat (a.numberOf r c) % 7 = 6 ↔ a.Empty r c := by
    rw [← UInt32.toNat_inj, UInt32.toNat_mod, hnumber]
    exact Iff.rfl
  rw [cellNode_of_lt hc]
  show (if UInt32.ofNat (a.numberOf r c) % 7 = 6 then "tile-empty" else "tile") = _
  simp only [hempty]

end Ordinary

end Cells

end Bench

end RenderPlan
