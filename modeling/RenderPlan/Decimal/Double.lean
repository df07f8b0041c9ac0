/-
# RenderPlan.Decimal.Double -- binary floating point numbers of double precision

A finite double is `± m * 2 ^ q`, where `m` has fifty-three bits and `q` is at least -1074. Doubles
too small for that have `q = -1074` and fewer bits. Zero is one of them, and it has a sign.

No arithmetic is done on doubles here. They are read from decimals, by rounding once, and written
as decimals. Both go through fractions of natural numbers, which need not be in lowest terms. Their
scalings keep both parts whole, so a fraction stands for a binary or a decimal number of any exponent
exactly.

`Double.fixed` writes the exact value of a double, rounded once to the wanted number of decimals, a
tie going to the even neighbour. A sign is kept even when all digits are zero, so negative zero and
small negative numbers are told apart from zero.
-/
import RenderPlan.Decimal.Digits

namespace RenderPlan.Decimal

/-! ## Fractions -/

/-- The quotient `n / d` rounded to the nearest natural number, a tie to the even neighbour. -/
def roundDiv (n d : Nat) : Nat :=
  let q := n / d
  let twice := 2 * (n % d)
  if twice < d then q
  else if d < twice then q + 1
  else if q % 2 = 0 then q else q + 1

/-- A fraction. -/
structure Ratio where
  num : Nat
  den : Nat

namespace Ratio

/-- `m * 2 ^ q`. -/
def binary (m : Nat) (q : Int) : Ratio :=
  if 0 ≤ q then ⟨m <<< q.toNat, 1⟩ else ⟨m, 1 <<< (-q).toNat⟩

/-- The fraction divided by `2 ^ q`. -/
def binaryScaled (r : Ratio) (q : Int) : Ratio :=
  if 0 ≤ q then ⟨r.num, r.den <<< q.toNat⟩ else ⟨r.num <<< (-q).toNat, r.den⟩

/-- The fraction divided by `10 ^ e`. -/
def decimalScaled (r : Ratio) (e : Int) : Ratio :=
  if 0 ≤ e then ⟨r.num, r.den * Nat.pow 10 e.toNat⟩ else ⟨r.num * Nat.pow 10 (-e).toNat, r.den⟩

/-- The nearest natural number, a tie to the even neighbour. -/
def round (r : Ratio) : Nat := roundDiv r.num r.den

end Ratio

/-! ## Doubles -/

/-- A double. -/
inductive Double where
  | nan
  | infinite (negative : Bool)
  | finite (negative : Bool) (mantissa : Nat) (exponent : Int)
  deriving DecidableEq, Repr

namespace Double

/-- The least exponent. -/
def minExponent : Int := -1074

/-- The greatest exponent. -/
def maxExponent : Int := 971

/-- The least mantissa with all its bits. -/
def fullMantissa : Nat := 0x10000000000000

def zero : Double := .finite false 0 minExponent

/-- The exponent of the double nearest to a fraction that is not zero. The sizes of both parts tell
it but for one. -/
def exponentFor (r : Ratio) : Int :=
  let guess : Int := r.num.log2 - r.den.log2 - 52
  let s := r.binaryScaled guess
  max minExponent (if s.num < fullMantissa * s.den then guess - 1 else guess)

/-- The double with a mantissa that rounding may have carried to one bit more. -/
def ofRounded (negative : Bool) (m : Nat) (q : Int) : Double :=
  let (m, q) := if m = 2 * fullMantissa then (fullMantissa, q + 1) else (m, q)
  if maxExponent < q then .infinite negative else .finite negative m q

/-- The double nearest to a decimal, a tie to the even mantissa. Decimals far outside the range of
doubles are not looked at closely. -/
def nearest (negative : Bool) (d : Digits) : Double :=
  let lead := d.exponent + (Nat.toDigits 10 d.digits).length
  if d.digits = 0 ∨ lead < -400 then .finite negative 0 minExponent
  else if 400 < lead then .infinite negative
  else
    let r := (⟨d.digits, 1⟩ : Ratio).decimalScaled (-d.exponent)
    let q := exponentFor r
    ofRounded negative (r.binaryScaled q).round q

end Double

/-! ## A fixed number of decimals -/

/-- The decimal digits of `n`, padded on the left with zeros to `width`. -/
def padded (width n : Nat) : String :=
  let digits := toString n
  String.ofList (List.replicate (width - digits.length) '0') ++ digits

namespace Double

/-- The multiple of `10 ^ -places` nearest to `m * 2 ^ q`, as a count of that unit. -/
def scaled (places m : Nat) (q : Int) : Nat :=
  ((Ratio.binary m q).decimalScaled (-places)).round

/-- The number with exactly `places` decimals. -/
def fixed (places : Nat) : Double → String
  | .nan => "NaN"
  | .infinite negative => if negative then "-inf" else "inf"
  | .finite negative m q =>
    let n := scaled places m q
    (if negative then "-" else "") ++ toString (n / Nat.pow 10 places) ++ "." ++
      padded places (n % Nat.pow 10 places)

end Double

end RenderPlan.Decimal
