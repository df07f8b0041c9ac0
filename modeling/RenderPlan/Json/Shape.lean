/-
# RenderPlan.Json.Shape -- what a value should be, and where it is not

A `Shape` says what a reader expects of a value. `mismatch?` goes through a value from the left to
the right and tells the first place that does not fit, in the words of a `Mismatch`. A reader that
only accepts or refuses needs neither; they are for telling people what is wrong.

Places are columns of the value's text without white space, counted in bytes. The column of a
scalar is its last one. An array or an object where a scalar is expected is noticed before it
begins, so the column is the one in front of it.

Whoever keeps numbers in doubles sees, of every number that is no 64-bit integer, only the nearest
double. `Json.inDoubles` writes a value as such a reader would write it again: with the shortest
digits that stand for the same double.
-/
import RenderPlan.Decimal.Shortest
import RenderPlan.Json.Printer
import RenderPlan.Text.Quoted

namespace RenderPlan

/-! ## Numbers as doubles -/

/-- The shortest number with the same nearest double. A number that has no finite one is kept. -/
def DecimalNumber.inDoubles (d : DecimalNumber) : DecimalNumber :=
  match d.toDouble.shortest? with
  | some (negative, magnitude) => ⟨negative, .normal magnitude.digits magnitude.exponent⟩
  | none => d

namespace Json

mutual

/-- The value with every number that is no integer as a double. -/
def inDoubles : Json → Json
  | decimal d => decimal d.inDoubles
  | array items => array (itemsInDoubles items)
  | object members => object (membersInDoubles members)
  | j => j

/-- The items of an array. -/
def itemsInDoubles : List Json → List Json
  | [] => []
  | item :: items => inDoubles item :: itemsInDoubles items

/-- The members of an object. -/
def membersInDoubles : List (Option String × Json) → List (Option String × Json)
  | [] => []
  | (key, value) :: members => (key, inDoubles value) :: membersInDoubles members

end

/-! ## Shapes -/

/-- What a reader expects. -/
inductive Shape where
  | truth
  | word
  /-- A word, or null. -/
  | optionalWord
  /-- The fields of a named record, in an object or in an array. None has to be there. -/
  | record (name : String) (fields : List (String × Shape))

/-- What a reader found. -/
inductive Found where
  | null
  | truth (b : Bool)
  | integer (n : Int)
  /-- A number that is no integer. -/
  | decimal (digits : String)
  | text (s : String)
  | sequence
  | map
  deriving DecidableEq, Repr

/-- Why a value does not fit. -/
inductive Reason where
  | wrongType (found : Found) (expected : String)
  | outOfRange (n : Int) (expected : String)
  /-- A field is given twice. -/
  | repeatedField (name : String)
  /-- An array has more items than the record has fields. -/
  | trailingItems
  deriving DecidableEq, Repr

/-- Why and where a value does not fit. -/
structure Mismatch where
  reason : Reason
  column : Nat
  deriving DecidableEq, Repr

/-! ## Wording -/

/-- The name of what is expected. -/
def Shape.name : Shape → String
  | truth => "a boolean"
  | word | optionalWord => "usize"
  | record name _ => "struct " ++ name

/-- What was found, in words. -/
def Found.message : Found → String
  | null => "null"
  | truth b => "boolean `" ++ (if b then "true" else "false") ++ "`"
  | integer n => "integer `" ++ toString n ++ "`"
  | decimal digits => "floating point `" ++ digits ++ "`"
  | text s => "string " ++ Text.debugQuote s
  | sequence => "sequence"
  | map => "map"

/-- The reason in words. -/
def Reason.message : Reason → String
  | wrongType found expected => "invalid type: " ++ found.message ++ ", expected " ++ expected
  | outOfRange n expected =>
    "invalid value: " ++ (Found.integer n).message ++ ", expected " ++ expected
  | repeatedField name => "duplicate field `" ++ name ++ "`"
  | trailingItems => "trailing characters"

/-- The reason and the place in words. -/
def Mismatch.message (m : Mismatch) : String :=
  m.reason.message ++ " at line 1 column " ++ toString m.column

/-! ## Search -/

/-- What a reader finds in a value. -/
def found : Json → Found
  | null => .null
  | bool b => .truth b
  | integer n => .integer n
  | decimal d => .decimal d.text
  | string s => .text (s.getD "\ufffd")
  | array _ => .sequence
  | object _ => .map

/-- The number of bytes of the text of a value. -/
def width (j : Json) : Nat := j.render.utf8ByteSize

/-- A value of the wrong type. `start` is how many bytes stand in front of it. -/
def wrongType (start : Nat) (j : Json) (expected : Shape) : Mismatch :=
  ⟨.wrongType j.found expected.name, match j with
    | array _ | object _ => start
    | _ => start + j.width⟩

mutual

/-- The first place where a value does not fit. `start` is how many bytes stand in front of the
value. -/
def mismatch? (start : Nat) : Json → Shape → Option Mismatch
  | object members, .record _ fields => memberMismatch? fields [] (start + 1) members
  | array items, .record _ fields => itemMismatch? (start + 1) items (fields.map Prod.snd)
  | bool _, .truth => none
  | null, .optionalWord => none
  | integer n, .word | integer n, .optionalWord =>
    if 0 ≤ n then none else some ⟨.outOfRange n Shape.word.name, start + (integer n).width⟩
  | j, shape => some (wrongType start j shape)

/-- The first member of an object that does not fit. Members of other names are passed over; `seen`
are the fields that were given already. -/
def memberMismatch? (fields : List (String × Shape)) (seen : List String) (start : Nat) :
    List (Option String × Json) → Option Mismatch
  | [] => none
  | (key, value) :: members =>
    let key := key.getD "\ufffd"
    let afterKey := start + (quote key).utf8ByteSize
    let next := afterKey + 1 + value.width + 1
    match fields.lookup key with
    | none => memberMismatch? fields seen next members
    | some shape =>
      if key ∈ seen then some ⟨.repeatedField key, afterKey⟩
      else match mismatch? (afterKey + 1) value shape with
        | some m => some m
        | none => memberMismatch? fields (key :: seen) next members

/-- The first item of an array that does not fit the field at its position. -/
def itemMismatch? (start : Nat) : List Json → List Shape → Option Mismatch
  | [], _ => none
  | _ :: _, [] => some ⟨.trailingItems, start + 1⟩
  | item :: items, shape :: shapes =>
    match mismatch? start item shape with
    | some m => some m
    | none => itemMismatch? (start + item.width + 1) items shapes

end

end Json

end RenderPlan
