/-
# RenderPlan.Json.Record -- records as objects or arrays

A record with named fields in a fixed order may be written in two ways: as an object, whose members
may stand in any order and may include members of other names, or as an array of the fields in
order, which may end early. `Json.record?` reads both and leaves it to the reader of the record
what an absent field means. A field that is given twice is refused, and so is an array that is too
long.
-/
import RenderPlan.Json.Basic

namespace RenderPlan.Json

/-- The values of all members with a key, in order. -/
def valuesOf (key : String) (members : List (Option String × Json)) : List Json :=
  (members.filter fun m => m.1 = some key).map (·.2)

/-- The value of a field, `some none` if it is absent, `none` if it is given twice. -/
def single? : List Json → Option (Option Json)
  | [] => some none
  | [v] => some (some v)
  | _ => none

/-- The value of each field, in the order of the names. Every key has to be a sequence of
characters, also one that is not asked for. -/
def record? (names : List String) : Json → Option (List (Option Json))
  | object members =>
    if members.all fun m => m.1.isSome then
      names.mapM fun name => single? (valuesOf name members)
    else none
  | array items =>
    if items.length ≤ names.length then
      some (items.map some ++ List.replicate (names.length - items.length) none)
    else none
  | _ => none

/-- A truth value. -/
def bool? : Json → Option Bool
  | bool b => some b
  | _ => none

/-- An unsigned 64-bit word. -/
def word? : Json → Option UInt64
  | integer n => if 0 ≤ n ∧ n < 0x10000000000000000 then some (UInt64.ofNat n.toNat) else none
  | _ => none

/-- A word, or null for none. -/
def optionalWord? : Json → Option (Option UInt64)
  | null => some none
  | j => (word? j).map some

/-- A signed 32-bit integer. -/
def int32? : Json → Option Int32
  | integer n => if -0x80000000 ≤ n ∧ n < 0x80000000 then some (Int32.ofInt n) else none
  | _ => none

/-- A text, if it is a sequence of characters. -/
def text? : Json → Option String
  | string t => t
  | _ => none

/-- A name out of an enumeration, written as the name or as an object that maps it to null. -/
def name? : Json → Option String
  | string t => t
  | object [(key, null)] => key
  | _ => none

end RenderPlan.Json
