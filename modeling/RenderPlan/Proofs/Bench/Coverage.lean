/-
# RenderPlan.Proofs.Bench.Coverage -- the tiles cover the frame

A frame is cut up as it should be (`Arguments.Covered`) if its rectangles lie in it, its tiles leave no
pixel out, and neighbours share as many columns as the overlap says, or as the frame has left. On the
way there sums are formed and edges are taken for signed words; `Arguments.Exact` says that none of them
leaves the words that hold it.

Nothing keeps arguments from being too large for that, since a right edge is compared with the width
only after the sum was formed. What is said here is exact: the arithmetic is as it should be if and only
if the arguments are below the limits (`Arguments.Fits`), and then the frame is, too
(`tessellates_iff_fits`). Beyond these limits a tile can be empty in the middle of the frame
(`not_covered_wrapping`).
-/
import RenderPlan.Bench.Session
import RenderPlan.Proofs.Bench.Grid
import Mathlib.Data.Int.Interval
import Mathlib.Data.Set.Card

namespace RenderPlan

namespace Rect

variable {r s : Rect} {x₀ y₀ x₁ y₁ : Nat}

/-- The columns of pixels that a rectangle reaches over. -/
def columns (r : Rect) : Set Int := {x | r.minX.toInt ≤ x ∧ x < r.maxX.toInt}

theorem Spans.isValid_iff (h : r.Spans x₀ y₀ x₁ y₁) : r.IsValid ↔ x₀ < x₁ ∧ y₀ < y₁ := by
  simp only [Rect.isValid_iff, h.minX, h.minY, h.maxX, h.maxY, Int.ofNat_lt]

theorem Spans.mem_iff (h : r.Spans x₀ y₀ x₁ y₁) {p : Pixel} :
    p ∈ r ↔ x₀ ≤ p.x ∧ p.x < x₁ ∧ y₀ ≤ p.y ∧ p.y < y₁ := by
  rw [Rect.mem_iff, h.minX, h.minY, h.maxX, h.maxY]

/-- How many columns two rectangles share. -/
theorem Spans.ncard_inter {u₀ v₀ u₁ v₁ : Nat} (hr : r.Spans x₀ y₀ x₁ y₁) (hs : s.Spans u₀ v₀ u₁ v₁) :
    (r.columns ∩ s.columns).ncard = min x₁ u₁ - max x₀ u₀ := by
  have hinter : r.columns ∩ s.columns = Finset.Ico (max (x₀ : Int) u₀) (min (x₁ : Int) u₁) := by
    rw [columns, columns, hr.minX, hr.maxX, hs.minX, hs.maxX, Finset.coe_Ico]
    exact Set.Ico_inter_Ico
  rw [hinter, Set.ncard_coe_finset, Int.card_Ico]
  omega

end Rect

namespace Bench

namespace Arguments

/-- The pixel lies in the frame. -/
def Shows (a : Arguments) (p : Pixel) : Prop :=
  0 ≤ p.x ∧ p.x < a.width.toNat ∧ 0 ≤ p.y ∧ p.y < a.height.toNat

/-- A word that is taken for a signed one stays the same number. -/
def Keeps (x : UInt32) : Prop := x.toInt32.toInt = x.toNat

/-- No arithmetic of the frame overflows or wraps around: the sums for lower and right edges are below
the limit, the tiles are counted right, and all edges stay the same numbers as signed words. -/
structure Exact (a : Arguments) : Prop where
  lower_sums : ∀ y ∈ multiples a.height a.tile, y.toNat + a.tile.toNat < 2 ^ 32
  right_sums : ∀ x ∈ multiples a.width a.tile, x.toNat + a.tile.toNat + a.overlap.toNat < 2 ^ 32
  number : (Frame.build a).number.toNat =
    (multiples a.height a.tile).length * (multiples a.width a.tile).length
  upper_edges : ∀ y ∈ multiples a.height a.tile, Keeps y
  lower_edges : ∀ y ∈ multiples a.height a.tile, Keeps (farEdge y a.tile a.height)
  left_edges : ∀ x ∈ multiples a.width a.tile, Keeps x
  right_edges : ∀ x ∈ multiples a.width a.tile, Keeps (farEdge x (a.tile + a.overlap) a.width)
  width : Keeps a.width

/-- The frame is cut up as it should be. Its tiles are the sub-tasks of its composites. -/
structure Covered (a : Arguments) : Prop where
  /-- All rectangles are valid and lie in the frame. -/
  inside : ∀ id n, (Frame.build a).graph.get? id = some n →
    n.rect.IsValid ∧ ∀ p ∈ n.rect, a.Shows p
  /-- Each pixel of the frame lies in a tile. -/
  covers : ∀ p, a.Shows p → ∃ top ∈ (Frame.build a).roots, ∃ tile n,
    (Frame.build a).graph.HasSubTask top tile ∧ (Frame.build a).graph.get? tile = some n ∧ p ∈ n.rect
  /-- Tiles side by side share the overlap, or what is left of the frame. -/
  shares : ∀ top ∈ (Frame.build a).roots, ∀ composite, (Frame.build a).graph.get? top = some composite →
    ∀ i left right m n, composite.children[i]? = some left → composite.children[i + 1]? = some right →
      (Frame.build a).graph.get? left = some m → (Frame.build a).graph.get? right = some n →
        ((m.rect.columns ∩ n.rect.columns).ncard : Int) =
          min (a.overlap.toNat : Int) (a.width.toNat - n.rect.minX.toInt)

variable {a : Arguments}

/-! ## Arithmetic -/

theorem keeps_iff {x : UInt32} : Keeps x ↔ x.toNat < 2 ^ 31 := by
  constructor
  · intro h
    have hlt := x.toInt32.toInt_lt
    rw [h] at hlt
    exact Int.ofNat_lt.mp hlt
  · exact toInt_toInt32

theorem mem_rows {y : UInt32} :
    y ∈ multiples a.height a.tile ↔ ∃ r < a.rows, UInt32.ofNat (r * a.tile.toNat) = y := by
  simp only [multiples, List.mem_map, List.mem_range, rows]

theorem mem_columns {x : UInt32} :
    x ∈ multiples a.width a.tile ↔ ∃ c < a.columns, UInt32.ofNat (c * a.tile.toNat) = x := by
  simp only [multiples, List.mem_map, List.mem_range, columns]

theorem keeps_farEdge {position extent limit : UInt32} (h : limit.toNat < 2 ^ 31) :
    Keeps (farEdge position extent limit) := by
  rw [keeps_iff, farEdge, toNat_min]
  exact Nat.lt_of_le_of_lt (Nat.min_le_right ..) h

theorem toNat_number : (Frame.build a).number.toNat = a.tiles % 2 ^ 32 := by
  rw [build_eq]
  show (UInt32.ofNat (a.rows * a.columns + 0)).toNat = _
  rw [UInt32.toNat_ofNat', Nat.add_zero, Nat.mul_comm]
  rfl

theorem length_multiples :
    (multiples a.height a.tile).length * (multiples a.width a.tile).length = a.tiles := by
  simp only [multiples, List.length_map, List.length_range, tiles, rows, columns, Nat.mul_comm]

theorem Fits.exact (ht : 1 ≤ a.tile.toNat) (ha : a.Fits) : a.Exact where
  lower_sums y hy := by
    obtain ⟨r, hr, rfl⟩ := mem_rows.mp hy
    rw [toNat_row ht hr]
    exact lowerSum_lt ht ha hr
  right_sums x hx := by
    obtain ⟨c, hc, rfl⟩ := mem_columns.mp hx
    rw [toNat_column ht hc, Nat.add_assoc]
    exact rightSum_lt ha hc
  number := by rw [toNat_number, length_multiples, Nat.mod_eq_of_lt ha.tiles_lt]
  upper_edges y hy := by
    obtain ⟨r, hr, rfl⟩ := mem_rows.mp hy
    rw [keeps_iff, toNat_row ht hr]
    exact Nat.lt_trans ((lt_rows_iff ht).mp hr) ha.height_lt
  lower_edges _ _ := keeps_farEdge ha.height_lt
  left_edges x hx := by
    obtain ⟨c, hc, rfl⟩ := mem_columns.mp hx
    rw [keeps_iff, toNat_column ht hc]
    exact Nat.lt_trans ((lt_columns_iff ht).mp hc) ha.width_lt
  right_edges _ _ := keeps_farEdge ha.width_lt
  width := keeps_iff.mpr ha.width_lt

/-- The last row ends with the frame, and the last column has the largest sum. -/
theorem Exact.fits (ht : 1 ≤ a.tile.toNat) (hw : 1 ≤ a.width.toNat) (hh : 1 ≤ a.height.toNat)
    (h : a.Exact) : a.Fits where
  width_lt := keeps_iff.mp h.width
  height_lt := by
    have hpos := rows_pos ht hh
    have hr : a.rows - 1 < a.rows := by omega
    have hy := mem_rows.mpr ⟨_, hr, rfl⟩
    have hedge := keeps_iff.mp (h.lower_edges _ hy)
    rw [toNat_farEdge (h.lower_sums _ hy), toNat_row ht hr] at hedge
    have hend : ¬ a.rows - 1 + 1 < a.rows := by omega
    rw [lt_rows_iff ht, Nat.add_one_mul] at hend
    omega
  reach_lt := by
    have hpos := columns_pos ht hw
    have hc : a.columns - 1 < a.columns := by omega
    have hsum := h.right_sums _ (mem_columns.mpr ⟨_, hc, rfl⟩)
    rw [toNat_column ht hc, ← Nat.add_one_mul, Nat.sub_add_cancel hpos] at hsum
    exact hsum
  tiles_lt := by
    have hnumber := h.number
    rw [length_multiples, toNat_number] at hnumber
    rw [← hnumber]
    exact Nat.mod_lt _ (by decide)

/-! ## The cells of the frame -/

theorem inside_of_spans {r : Rect} {x₀ y₀ x₁ y₁ : Nat} (h : r.Spans x₀ y₀ x₁ y₁) (hx : x₀ < x₁)
    (hy : y₀ < y₁) (hwidth : x₁ ≤ a.width.toNat) (hheight : y₁ ≤ a.height.toNat) :
    r.IsValid ∧ ∀ p ∈ r, a.Shows p := by
  refine ⟨h.isValid_iff.mpr ⟨hx, hy⟩, fun p hp => ?_⟩
  obtain ⟨hleft, hright, hupper, hlower⟩ := h.mem_iff.mp hp
  exact ⟨by omega, by omega, by omega, by omega⟩

/-- Every node of the frame is the one of a cell. -/
theorem exists_cell {id : TaskId} {n : Node} (h : (frameGraph a).get? id = some n) :
    ∃ r < a.rows, ∃ c ≤ a.columns, id = a.place r c ∧ n = cellNode a r c := by
  have hid : id.index < a.rows * (a.columns + 1) := by
    obtain ⟨hlt, -⟩ := Array.getElem?_eq_some_iff.mp h
    have hsize : (frameGraph a).nodes.size = a.rows * (a.columns + 1) := size_grid _
    rwa [hsize] at hlt
  have hrow : id.index / (a.columns + 1) < a.rows :=
    (Nat.div_lt_iff_lt_mul (Nat.succ_pos _)).mpr hid
  have hcolumn : id.index % (a.columns + 1) ≤ a.columns :=
    Nat.le_of_lt_succ (Nat.mod_lt _ (Nat.succ_pos _))
  have hplace : id = a.place (id.index / (a.columns + 1)) (id.index % (a.columns + 1)) := by
    rw [place, Nat.mul_comm, Nat.div_add_mod]
  refine ⟨_, hrow, _, hcolumn, hplace, ?_⟩
  rw [hplace, get?_frameGraph hrow hcolumn] at h
  exact (Option.some.inj h).symm

/-- The tiles of a row, by their numbers in it. -/
theorem get?_children {r i : Nat} {id : TaskId}
    (h : (cellNode a r a.columns).children[i]? = some id) : i < a.columns ∧ id = a.place r i := by
  rw [children_cellNode, List.getElem?_map, Option.map_eq_some_iff] at h
  obtain ⟨c, hc, rfl⟩ := h
  obtain ⟨hlt, rfl⟩ := List.getElem?_eq_some_iff.mp hc
  rw [List.length_range] at hlt
  exact ⟨hlt, by rw [List.getElem_range]⟩

section Cells

variable (ht : 1 ≤ a.tile.toNat) (ha : a.Fits)

include ht ha

/-- All cells lie in the frame. -/
theorem cell_inside {r c : Nat} (hr : r < a.rows) (hc : c ≤ a.columns) (hw : 1 ≤ a.width.toNat) :
    (cellNode a r c).rect.IsValid ∧ ∀ p ∈ (cellNode a r c).rect, a.Shows p := by
  have hy := (lt_rows_iff ht).mp hr
  rcases Nat.lt_or_eq_of_le hc with hc | rfl
  · have hx := (lt_columns_iff ht).mp hc
    exact inside_of_spans (spans_tile ht ha hr hc) (by omega) (by omega) (by omega) (by omega)
  · exact inside_of_spans (spans_composite ht ha hr) (by omega) (by omega) (by omega) (by omega)

/-- A pixel lies in the tile that begins at the multiples of the tile size next to it. -/
theorem exists_tile {p : Pixel} (hp : a.Shows p) :
    ∃ r < a.rows, ∃ c < a.columns, p ∈ (cellNode a r c).rect := by
  obtain ⟨x, y⟩ := p
  obtain ⟨hx, hxw, hy, hyh⟩ :
    0 ≤ x ∧ x < a.width.toNat ∧ 0 ≤ y ∧ y < a.height.toNat := hp
  obtain ⟨x, rfl⟩ := Int.eq_ofNat_of_zero_le hx
  obtain ⟨y, rfl⟩ := Int.eq_ofNat_of_zero_le hy
  have hleft := Nat.div_mul_le_self x a.tile.toNat
  have hright := Nat.lt_div_mul_add (a := x) ht
  have hupper := Nat.div_mul_le_self y a.tile.toNat
  have hlower := Nat.lt_div_mul_add (a := y) ht
  have hc : x / a.tile.toNat < a.columns := (lt_columns_iff ht).mpr (by omega)
  have hr : y / a.tile.toNat < a.rows := (lt_rows_iff ht).mpr (by omega)
  refine ⟨_, hr, _, hc, (spans_tile ht ha hr hc).mem_iff.mpr ?_⟩
  exact ⟨Int.ofNat_le.mpr hleft, Int.ofNat_lt.mpr (by omega), Int.ofNat_le.mpr hupper,
    Int.ofNat_lt.mpr (by omega)⟩

/-- What two tiles side by side share begins with the right one and ends with the left one. -/
theorem ncard_shared {r c : Nat} (hr : r < a.rows) (hc : c + 1 < a.columns) :
    (((cellNode a r c).rect.columns ∩ (cellNode a r (c + 1)).rect.columns).ncard : Int) =
      min (a.overlap.toNat : Int) (a.width.toNat - (cellNode a r (c + 1)).rect.minX.toInt) := by
  have hx := (lt_columns_iff ht).mp hc
  have hleft := spans_tile ht ha hr (Nat.lt_of_succ_lt hc)
  have hright := spans_tile ht ha hr hc
  rw [hleft.ncard_inter hright, hright.minX]
  rw [Nat.add_one_mul] at hx ⊢
  omega

end Cells

theorem Fits.covered (ht : 1 ≤ a.tile.toNat) (hw : 1 ≤ a.width.toNat) (ha : a.Fits) :
    a.Covered := by
  constructor
  case inside =>
    intro id n hn
    rw [build_eq] at hn
    obtain ⟨r, hr, c, hc, -, rfl⟩ := exists_cell hn
    exact cell_inside ht ha hr hc hw
  case covers =>
    intro p hp
    obtain ⟨r, hr, c, hc, hmem⟩ := exists_tile ht ha hp
    rw [build_eq]
    refine ⟨a.place r a.columns, List.mem_map.mpr ⟨r, List.mem_range.mpr hr, rfl⟩, a.place r c,
      cellNode a r c, ⟨_, get?_frameGraph hr (Nat.le_refl _), ?_⟩,
      get?_frameGraph hr (Nat.le_of_lt hc), hmem⟩
    rw [subTasks_composite]
    exact List.mem_map_of_mem (List.mem_map_of_mem (List.mem_range.mpr hc))
  case shares =>
    intro top htop composite hcomposite i left right m n hleft hright hm hn
    rw [build_eq] at htop hcomposite hm hn
    obtain ⟨r, hr, rfl⟩ := List.mem_map.mp htop
    rw [List.mem_range] at hr
    rw [get?_frameGraph hr (Nat.le_refl _)] at hcomposite
    cases hcomposite
    obtain ⟨hi, rfl⟩ := get?_children hleft
    obtain ⟨hi', rfl⟩ := get?_children hright
    rw [get?_frameGraph hr (Nat.le_of_lt hi)] at hm
    rw [get?_frameGraph hr (Nat.le_of_lt hi')] at hn
    cases hm
    cases hn
    exact ncard_shared ht ha hr hi'

/-- **When the frame is cut up as it should be.** Whatever sizes are accepted, no arithmetic leaves its
words and the tiles cover the frame if and only if the sizes are below the limits. -/
theorem tessellates_iff_fits (hw : a.width ≠ 0) (hh : a.height ≠ 0) (ht : a.tile ≠ 0) :
    a.Exact ∧ a.Covered ↔ a.Fits := by
  have hpos : ∀ {x : UInt32}, x ≠ 0 → 1 ≤ x.toNat := fun h =>
    Nat.pos_of_ne_zero fun hx => h (UInt32.toNat_inj.mp hx)
  constructor
  · rintro ⟨hexact, -⟩
    exact hexact.fits (hpos ht) (hpos hw) (hpos hh)
  · intro hfits
    exact ⟨hfits.exact (hpos ht), hfits.covered (hpos ht) (hpos hw)⟩

/-- As large as a frame can be, with an overlap that makes the last sum the largest word. -/
def brimming : Arguments :=
  { width := 2147483647, height := 2147483647, tile := 1073741824, overlap := 2147483647 }

theorem tessellates_iff_fits_brimming :
    brimming.width ≠ 0 ∧ brimming.height ≠ 0 ∧ brimming.tile ≠ 0 ∧
      brimming.Exact ∧ brimming.Covered := by
  have hw : brimming.width ≠ 0 := by decide
  have hh : brimming.height ≠ 0 := by decide
  have ht : brimming.tile ≠ 0 := by decide
  have hfits : brimming.Fits := by constructor <;> decide
  exact ⟨hw, hh, ht, (tessellates_iff_fits hw hh ht).mpr hfits⟩

/-- One tile in a small frame. The sum for its right edge is zero after it wrapped around. -/
def wrapping : Arguments := { width := 10, height := 10, tile := 10, overlap := 4294967286 }

/-- **A tile can be empty in the middle of the frame.** These arguments are accepted, and the only tile
of the frame ends where it begins. -/
theorem not_covered_wrapping :
    (∃ pool, startPool 2 wrapping = .ok pool) ∧ ¬ wrapping.Covered := by
  constructor
  · exact ⟨_, rfl⟩
  · intro h
    obtain ⟨hvalid, -⟩ := h.inside ⟨0⟩ (tileNode wrapping 0 0 0) (by rfl)
    exact absurd hvalid (by decide)

end Arguments

end Bench

end RenderPlan
