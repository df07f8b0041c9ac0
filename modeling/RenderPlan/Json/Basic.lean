/-
# RenderPlan.Json.Basic -- JSON values

A value keeps what the text said as far as a later reader may ask: the members of an object stay in
order and may repeat a key, and an integer is told apart from a number with a decimal point or an
exponent. Integers are those that a 64-bit word holds, signed or unsigned; a longer run of digits
is a decimal, and so is minus zero. A decimal keeps its value but not its spelling.

A text inside a value may escape half of a surrogate pair. Such a text names no sequence of
characters, so it is `none`: it may stand where nobody reads it.
-/
import RenderPlan.Decimal.Double

namespace RenderPlan

/-- A decimal number with its sign. Zero has a sign too. -/
structure DecimalNumber where
  negative : Bool
  magnitude : Decimal.Digits
  deriving DecidableEq, Repr

/-- A JSON value. -/
inductive Json where
  | null
  | bool (b : Bool)
  | integer (n : Int)
  | decimal (d : DecimalNumber)
  | string (text : Option String)
  | array (items : List Json)
  | object (members : List (Option String × Json))

namespace Json

instance : Inhabited Json := ⟨null⟩

/-- A text. -/
def ofString (s : String) : Json := string (some s)

/-- A natural number. -/
def ofNat (n : Nat) : Json := integer n

/-- An object with the given keys, in order. -/
def ofMembers (members : List (String × Json)) : Json :=
  object (members.map fun m => (some m.1, m.2))

/-- The integers that are kept as integers. -/
def FitsWord (n : Int) : Prop := -0x8000000000000000 ≤ n ∧ n < 0x10000000000000000

instance (n : Int) : Decidable (FitsWord n) := inferInstanceAs (Decidable (_ ∧ _))

end Json

namespace DecimalNumber

/-- The nearest double. -/
def toDouble (d : DecimalNumber) : Decimal.Double := .nearest d.negative d.magnitude

/-- The number in text. -/
def text (d : DecimalNumber) : String :=
  (if d.negative then "-" else "") ++ d.magnitude.text ⟨-5, true⟩

end DecimalNumber

end RenderPlan
