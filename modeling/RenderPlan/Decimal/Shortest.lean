/-
# RenderPlan.Decimal.Shortest -- the fewest digits that read back

A double stands for all reals that round to it. Its shortest text has the fewest decimal digits
that lie in that interval, and of those the ones nearest to the double. The search tries one digit
after another: on the grid of that many digits only the two neighbours of the double can be the
nearest point inside.
-/
import RenderPlan.Decimal.Double

namespace RenderPlan.Decimal

/-- Whether `d * 10 ^ e` lies in the interval of the double `m * 2 ^ q`. All is counted in quarters
of the last place: the upper end is half a place above, and so is the lower end below, unless the
double is the least of its binade and its lower neighbour is nearer. The ends belong to the
interval when `m` is even. -/
def readsBack (m : Nat) (q : Int) (d : Nat) (e : Int) : Bool :=
  let low := if m = Double.fullMantissa ∧ Double.minExponent < q then 4 * m - 1 else 4 * m - 2
  let high := 4 * m + 2
  let unit := (Ratio.binary 1 (q - 2)).decimalScaled e
  let value := d * unit.den
  if m % 2 = 0 then low * unit.num ≤ value && value ≤ high * unit.num
  else low * unit.num < value && value < high * unit.num

/-- The point of the grid `10 ^ e` that is nearest to `m * 2 ^ q` among those that read back. -/
def nearestOnGrid (m : Nat) (q : Int) (e : Int) : Option Digits :=
  let r := (Ratio.binary m q).decimalScaled e
  let below := r.num / r.den
  let above := below + 1
  let okBelow := below ≠ 0 && readsBack m q below e
  let okAbove := readsBack m q above e
  let twice := 2 * (r.num % r.den)
  match okBelow, okAbove with
  | true, true =>
    if twice < r.den ∨ (twice = r.den ∧ below % 2 = 0) then some ⟨below, e⟩ else some ⟨above, e⟩
  | true, false => some ⟨below, e⟩
  | false, true => some ⟨above, e⟩
  | false, false => none

/-- The exponent of the leading digit of `num / den`, found by counting digits. -/
def leadingExponent (r : Ratio) : Int :=
  let guess : Int := (toString r.num).length - (toString r.den).length
  let s := r.decimalScaled guess
  if s.den ≤ s.num then guess else guess - 1

/-- Tries grids with more and more digits. -/
def search (m : Nat) (q : Int) : Nat → Int → Digits
  | 0, e => ⟨(((Ratio.binary m q).decimalScaled e).num), e⟩
  | tries + 1, e =>
    match nearestOnGrid m q e with
    | some d => d
    | none => search m q tries (e - 1)

/-- The shortest digits of `m * 2 ^ q`. Seventeen digits are always enough. -/
def shortest (m : Nat) (q : Int) : Digits := search m q 18 (leadingExponent (.binary m q))

namespace Double

/-- The sign and the shortest digits of a double, if it is finite. -/
def shortest? : Double → Option (Bool × Digits)
  | .finite negative m q => some (negative, if m = 0 then ⟨0, 0⟩ else shortest m q)
  | _ => none

/-- The shortest text of a double. -/
def shortestText (style : Style) (x : Double) : String :=
  match x with
  | .nan => "NaN"
  | .infinite negative => if negative then "-inf" else "inf"
  | .finite negative m q =>
    (if negative then "-" else "") ++ (if m = 0 then ⟨0, 0⟩ else shortest m q : Digits).text style

end Double

end RenderPlan.Decimal
