/-
# RenderPlan.Proofs.Geometry.Pixels -- what the edges of rectangles say about pixels

A rectangle is four words, and everything is decided by comparing them and taking their differences.
What is meant are the pixels in it. Here both are the same for all values of the edges: two rectangles
pass the test if and only if some pixel lies in both (`intersects_iff_exists_pixel`), and width times
height is the number of pixels (`encard_pixels`). No difference leaves its word, although edges can be
further apart than the largest edge (`toNat_span`).
-/
import RenderPlan.Geometry.Rect
import Mathlib.Data.Int.Interval
import Mathlib.Data.Set.Card

namespace RenderPlan

namespace Rect

variable {r s : Rect}

/-! ## Common pixels -/

/-- On one axis: two ranges have a position in common if neither is empty and each begins before the
other one ends. -/
theorem exists_common_iff {a b c d : Int} :
    (∃ x, (a ≤ x ∧ x < b) ∧ c ≤ x ∧ x < d) ↔ a < b ∧ c < d ∧ a < d ∧ c < b := by
  constructor
  · rintro ⟨x, ⟨hax, hxb⟩, hcx, hxd⟩
    omega
  · rintro ⟨hab, hcd, had, hcb⟩
    -- the later one of the two beginnings
    exact ⟨max a c, ⟨le_max_left a c, max_lt hab hcb⟩, le_max_right a c, max_lt had hcd⟩

/-- Axes are independent of each other. -/
theorem exists_pixel_iff :
    (∃ p : Pixel, p ∈ r ∧ p ∈ s) ↔
      (∃ x, (r.minX.toInt ≤ x ∧ x < r.maxX.toInt) ∧ s.minX.toInt ≤ x ∧ x < s.maxX.toInt) ∧
        ∃ y, (r.minY.toInt ≤ y ∧ y < r.maxY.toInt) ∧ s.minY.toInt ≤ y ∧ y < s.maxY.toInt := by
  constructor
  · rintro ⟨p, ⟨hx₀, hx₁, hy₀, hy₁⟩, hu₀, hu₁, hv₀, hv₁⟩
    exact ⟨⟨p.x, ⟨hx₀, hx₁⟩, hu₀, hu₁⟩, ⟨p.y, ⟨hy₀, hy₁⟩, hv₀, hv₁⟩⟩
  · rintro ⟨⟨x, ⟨hx₀, hx₁⟩, hu₀, hu₁⟩, ⟨y, ⟨hy₀, hy₁⟩, hv₀, hv₁⟩⟩
    exact ⟨⟨x, y⟩, ⟨hx₀, hx₁, hy₀, hy₁⟩, hu₀, hu₁, hv₀, hv₁⟩

theorem intersects_iff_exists_pixel : r.Intersects s ↔ ∃ p : Pixel, p ∈ r ∧ p ∈ s := by
  rw [exists_pixel_iff, exists_common_iff, exists_common_iff, intersects_iff, isValid_iff, isValid_iff]
  constructor
  · rintro ⟨⟨hx, hy⟩, ⟨hu, hv⟩, hxu, hux, hyv, hvy⟩
    exact ⟨⟨hx, hu, hxu, hux⟩, hy, hv, hyv, hvy⟩
  · rintro ⟨⟨hx, hu, hxu, hux⟩, hy, hv, hyv, hvy⟩
    exact ⟨⟨hx, hy⟩, ⟨hu, hv⟩, hxu, hux, hyv, hvy⟩

/-! ## Width and height -/

/-- The distance of two edges is at most that of the smallest and the largest one, which is the largest
word. -/
theorem toNat_span (lo hi : Int32) : (span lo hi).toNat = (hi.toInt - lo.toInt).toNat := by
  have hlo := lo.le_toInt
  have hhi := hi.toInt_lt
  rw [span, UInt32.toNat_ofNat']
  exact Nat.mod_eq_of_lt (by omega)

theorem toNat_span_of_lt {lo hi : Int32} (h : lo.toInt < hi.toInt) :
    ((span lo hi).toNat : Int) = hi.toInt - lo.toInt := by
  rw [toNat_span, Int.toNat_of_nonneg (Int.sub_nonneg_of_le h.le)]

theorem toNat_width (r : Rect) :
    (r.width.toNat : Int) = if r.IsValid then r.maxX.toInt - r.minX.toInt else 0 := by
  unfold width
  split
  case isTrue h => exact toNat_span_of_lt (isValid_iff.mp h).1
  case isFalse => rfl

-- from the smallest edge to the largest one
example : (⟨Int32.minValue, 0, Int32.maxValue, 1⟩ : Rect).width = 4294967295 := by decide

theorem toNat_height (r : Rect) :
    (r.height.toNat : Int) = if r.IsValid then r.maxY.toInt - r.minY.toInt else 0 := by
  unfold height
  split
  case isTrue h => exact toNat_span_of_lt (isValid_iff.mp h).2
  case isFalse => rfl

/-! ## The number of pixels -/

/-- The pixels of a rectangle. -/
def pixels (r : Rect) : Set Pixel := {p | p ∈ r}

/-- As pairs of coordinates, the pixels are a product of two ranges. -/
theorem image_pixels (r : Rect) :
    (fun p : Pixel => (p.x, p.y)) '' r.pixels =
      {x | r.minX.toInt ≤ x ∧ x < r.maxX.toInt} ×ˢ {y | r.minY.toInt ≤ y ∧ y < r.maxY.toInt} := by
  ext ⟨x, y⟩
  constructor
  · rintro ⟨p, ⟨hx₀, hx₁, hy₀, hy₁⟩, ⟨⟩⟩
    exact ⟨⟨hx₀, hx₁⟩, hy₀, hy₁⟩
  · rintro ⟨⟨hx₀, hx₁⟩, hy₀, hy₁⟩
    exact ⟨⟨x, y⟩, ⟨hx₀, hx₁, hy₀, hy₁⟩, rfl⟩

theorem encard_range (a b : Int) : {x | a ≤ x ∧ x < b}.encard = ((b - a).toNat : Nat) := by
  have hrange : {x | a ≤ x ∧ x < b} = (Finset.Ico a b : Set Int) := by
    rw [Finset.coe_Ico]
    rfl
  rw [hrange, Set.encard_coe_eq_coe_finsetCard, Int.card_Ico]

/-- A rectangle that is not valid has an axis without positions, so the product of the spans is zero
although one of them need not be. -/
theorem width_mul_height (r : Rect) :
    r.width.toNat * r.height.toNat =
      (r.maxX.toInt - r.minX.toInt).toNat * (r.maxY.toInt - r.minY.toInt).toNat := by
  unfold width height
  split
  case isTrue => rw [toNat_span, toNat_span]
  case isFalse h =>
    rw [isValid_iff, not_and_or, Int.not_lt, Int.not_lt] at h
    symm
    rw [UInt32.toNat_zero, Nat.zero_mul, Nat.mul_eq_zero]
    exact h.imp (fun hx => Int.toNat_of_nonpos (Int.sub_nonpos_of_le hx))
      (fun hy => Int.toNat_of_nonpos (Int.sub_nonpos_of_le hy))

theorem encard_pixels (r : Rect) : r.pixels.encard = (r.width.toNat * r.height.toNat : Nat) := by
  have hinj : Function.Injective fun p : Pixel => (p.x, p.y) := by
    rintro ⟨x, y⟩ ⟨u, v⟩ ⟨⟩
    rfl
  calc r.pixels.encard = ((fun p : Pixel => (p.x, p.y)) '' r.pixels).encard :=
        (hinj.encard_image _).symm
    _ = (r.maxX.toInt - r.minX.toInt).toNat * (r.maxY.toInt - r.minY.toInt).toNat := by
        rw [image_pixels, Set.encard_prod, encard_range, encard_range]
    _ = (r.width.toNat * r.height.toNat : Nat) := by rw [width_mul_height, Nat.cast_mul]

/-- **Edges show exactly what pixels there are.** Whatever the edges of two rectangles are, the test
finds out whether some pixel lies in both, in either order. The number of pixels of a rectangle is its
width times its height. Both are the differences of the edges as integers, so neither overflows, and
they are zero if the edges are not in order on both axes. -/
theorem edges_show_pixels (r s : Rect) :
    (r.Intersects s ↔ ∃ p : Pixel, p ∈ r ∧ p ∈ s) ∧
      (r.Intersects s ↔ s.Intersects r) ∧
      r.pixels.encard = (r.width.toNat * r.height.toNat : Nat) ∧
      (r.width.toNat : Int) = (if r.IsValid then r.maxX.toInt - r.minX.toInt else 0) ∧
      (r.height.toNat : Int) = (if r.IsValid then r.maxY.toInt - r.minY.toInt else 0) :=
  ⟨intersects_iff_exists_pixel, ⟨Intersects.symm, Intersects.symm⟩, encard_pixels r, toNat_width r,
    toNat_height r⟩

end Rect

end RenderPlan
