/-
# RenderPlan.Decimal.Digits -- decimal numbers, their normal form and their text

`digits * 10 ^ exponent` has many spellings of one value; the normal one has no zero at the end of
its digits. `Digits.text` writes the value with a point if its leading digit is neither too small
nor too large for that, and else with an exponent. Next to a point there is always a digit, so that
the text cannot be taken for an integer.
-/

namespace RenderPlan.Decimal

/-- The number `digits * 10 ^ exponent`. -/
structure Digits where
  digits : Nat
  exponent : Int
  deriving DecidableEq, Repr

/-- What differs from one place of use to the other. Numbers from `10 ^ 16` on always have an
exponent. -/
structure Style where
  /-- Numbers below `10 ^ least` have an exponent. -/
  least : Int
  /-- An exponent that is not negative has a plus sign. -/
  plus : Bool
  deriving DecidableEq, Repr

namespace Digits

/-- Zero has the exponent zero, and any other number has a last digit that is not zero. -/
def IsNormal (d : Digits) : Prop :=
  (d.digits = 0 → d.exponent = 0) ∧ (d.digits ≠ 0 → d.digits % 10 ≠ 0)

/-- The same number without zeros at the end. -/
def normal (digits : Nat) (exponent : Int) : Digits :=
  if digits = 0 then ⟨0, 0⟩
  else if digits % 10 = 0 then normal (digits / 10) (exponent + 1)
  else ⟨digits, exponent⟩
termination_by digits
decreasing_by omega

theorem isNormal_normal (digits : Nat) (exponent : Int) : (normal digits exponent).IsNormal := by
  fun_induction normal digits exponent with
  | case1 => simp [IsNormal]
  | case2 _ _ _ _ ih => exact ih
  | case3 => grind [IsNormal]

theorem normal_eq_self {d : Digits} (h : d.IsNormal) : normal d.digits d.exponent = d := by
  unfold normal
  obtain ⟨digits, exponent⟩ := d
  grind [IsNormal]

/-- The number in text. -/
def text (style : Style) (d : Digits) : String :=
  let ⟨digits, exponent⟩ := normal d.digits d.exponent
  let ds := Nat.toDigits 10 digits
  let lead := exponent + ds.length - 1
  if lead < style.least ∨ 16 ≤ lead then
    let tail := ds.drop 1
    String.ofList (ds.take 1 ++ (if tail = [] then [] else '.' :: tail)) ++ "e" ++
      (if style.plus ∧ 0 ≤ lead then "+" else "") ++ toString lead
  else if 0 ≤ exponent then
    String.ofList (ds ++ List.replicate exponent.toNat '0') ++ ".0"
  else
    let places := (-exponent).toNat
    let ds := List.replicate (places + 1 - ds.length) '0' ++ ds
    String.ofList (ds.take (ds.length - places) ++ '.' :: ds.drop (ds.length - places))

end Digits

end RenderPlan.Decimal
