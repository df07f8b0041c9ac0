/-
# RenderPlan.Queue.Params -- parameters that travel with a submission

A submission may carry one value. Who reads it asks for a type, and finds nothing when the value is
of another type: numbers are not converted, so a signed integer is not found as an unsigned word.
-/

namespace RenderPlan

/-- A value with its type. -/
inductive ParamValue where
  | int (n : Int64)
  | word (n : UInt32)
  | text (s : String)
  | truth (b : Bool)
  deriving DecidableEq, Repr

/-- The parameters of a submission. -/
structure RunParams where
  data : Option ParamValue
  deriving DecidableEq, Repr

namespace RunParams

/-- No value. -/
def none : RunParams := ⟨.none⟩

/-- Parameters that carry a value. -/
def ofValue (v : ParamValue) : RunParams := ⟨some v⟩

/-- The value, if it is a signed integer. -/
def int? (p : RunParams) : Option Int64 :=
  match p.data with
  | some (.int n) => some n
  | _ => .none

/-- The value, if it is an unsigned 32-bit word. -/
def word? (p : RunParams) : Option UInt32 :=
  match p.data with
  | some (.word n) => some n
  | _ => .none

/-- The value, if it is a text. -/
def text? (p : RunParams) : Option String :=
  match p.data with
  | some (.text s) => some s
  | _ => .none

/-- The value, if it is a truth value. -/
def truth? (p : RunParams) : Option Bool :=
  match p.data with
  | some (.truth b) => some b
  | _ => .none

/-- The form shown to people: whether there is a value, not which. -/
def debugText (p : RunParams) : String :=
  "RunParams \x7b has_data: " ++ (if p.data.isSome then "true" else "false") ++ " \x7d"

end RunParams

end RenderPlan
