/-
# RenderPlan.Geometry.Rect -- rectangles of buffer pixels

A rectangle has four signed 32-bit edges and is half-open on both axes: the pixel `(x, y)` lies in
it when `minX ≤ x < maxX` and `minY ≤ y < maxY`. Any four edges make a rectangle. One whose edges
are not in order on both axes holds no pixel; it is called invalid, has no width and no height, and
meets nothing. The rectangle `(0, 0)-(0, 0)` is the way to say that no rectangle was set.

`Rect.Intersects` is the test that the ordering of tasks rests on. It compares edges only; `Pixel`
and membership give the meaning it has to agree with.

The bounds of a task's content are a box of doubles. They describe content, not pixels: they are carried
along and shown in dumps, and nothing is computed from them.
-/
import RenderPlan.Decimal.Double

namespace RenderPlan

/-- An axis-aligned rectangle of pixels, without its right and bottom edges. -/
structure Rect where
  minX : Int32
  minY : Int32
  maxX : Int32
  maxY : Int32
  deriving DecidableEq, Repr

/-- A pixel position. Positions outside the range of the edges exist and lie in no rectangle. -/
structure Pixel where
  x : Int
  y : Int
  deriving DecidableEq, Repr

namespace Rect

/-- The rectangle that stands for "none set". -/
def unset : Rect := ⟨0, 0, 0, 0⟩

instance : Inhabited Rect := ⟨unset⟩

instance : Membership Pixel Rect where
  mem r p := r.minX.toInt ≤ p.x ∧ p.x < r.maxX.toInt ∧ r.minY.toInt ≤ p.y ∧ p.y < r.maxY.toInt

theorem mem_iff {r : Rect} {p : Pixel} :
    p ∈ r ↔ r.minX.toInt ≤ p.x ∧ p.x < r.maxX.toInt ∧ r.minY.toInt ≤ p.y ∧ p.y < r.maxY.toInt :=
  Iff.rfl

/-- The edges are in order on both axes, so there is at least one pixel. -/
def IsValid (r : Rect) : Prop := r.minX < r.maxX ∧ r.minY < r.maxY

instance (r : Rect) : Decidable r.IsValid :=
  inferInstanceAs (Decidable (_ ∧ _))

theorem isValid_iff {r : Rect} :
    r.IsValid ↔ r.minX.toInt < r.maxX.toInt ∧ r.minY.toInt < r.maxY.toInt := by
  simp only [IsValid, Int32.lt_iff_toInt_lt]

/-- Both rectangles are valid and their ranges overlap on both axes. Touching edges do not
overlap. -/
def Intersects (r s : Rect) : Prop :=
  r.IsValid ∧ s.IsValid ∧ r.minX < s.maxX ∧ s.minX < r.maxX ∧ r.minY < s.maxY ∧ s.minY < r.maxY

instance (r s : Rect) : Decidable (r.Intersects s) :=
  inferInstanceAs (Decidable (_ ∧ _))

theorem intersects_iff {r s : Rect} :
    r.Intersects s ↔ r.IsValid ∧ s.IsValid ∧
      r.minX.toInt < s.maxX.toInt ∧ s.minX.toInt < r.maxX.toInt ∧
      r.minY.toInt < s.maxY.toInt ∧ s.minY.toInt < r.maxY.toInt := by
  simp only [Intersects, Int32.lt_iff_toInt_lt]

theorem Intersects.symm {r s : Rect} (h : r.Intersects s) : s.Intersects r := by
  obtain ⟨hr, hs, hx, hx', hy, hy'⟩ := h
  exact ⟨hs, hr, hx', hx, hy', hy⟩

/-- The distance from `lo` up to `hi`. It is taken over the integers, since two edges can be
further apart than the largest signed edge. -/
def span (lo hi : Int32) : UInt32 := UInt32.ofNat (hi.toInt - lo.toInt).toNat

/-- Width in pixels, zero for an invalid rectangle. -/
def width (r : Rect) : UInt32 := if r.IsValid then span r.minX r.maxX else 0

/-- Height in pixels, zero for an invalid rectangle. -/
def height (r : Rect) : UInt32 := if r.IsValid then span r.minY r.maxY else 0

/-- The largest coordinate of an edge. -/
def maxEdge : Nat := 0x7FFFFFFF

/-- The rectangle from the origin to `(w, h)`. A size beyond the largest edge is cut down to it. -/
def ofSize (w h : UInt32) : Rect :=
  ⟨0, 0, Int32.ofNat (min w.toNat maxEdge), Int32.ofNat (min h.toNat maxEdge)⟩

/-- The short form used in dumps. -/
def text (r : Rect) : String :=
  s!"({r.minX.toInt}, {r.minY.toInt})-({r.maxX.toInt}, {r.maxY.toInt})"

/-- The form with named edges used when a whole node is shown. -/
def debugText (r : Rect) : String :=
  "RectI \x7b min_x: " ++ toString r.minX.toInt ++ ", min_y: " ++ toString r.minY.toInt ++
    ", max_x: " ++ toString r.maxX.toInt ++ ", max_y: " ++ toString r.maxY.toInt ++ " \x7d"

end Rect

/-! ## Bounds -/

/-- Two opposite corners of a box. Nothing orders them. -/
structure Bounds where
  x0 : Decimal.Double
  y0 : Decimal.Double
  x1 : Decimal.Double
  y1 : Decimal.Double
  deriving DecidableEq, Repr

namespace Bounds

/-- Both corners with six decimals each. -/
def text (b : Bounds) : String :=
  "(" ++ b.x0.fixed 6 ++ ", " ++ b.y0.fixed 6 ++ ")-(" ++
    b.x1.fixed 6 ++ ", " ++ b.y1.fixed 6 ++ ")"

end Bounds

end RenderPlan
