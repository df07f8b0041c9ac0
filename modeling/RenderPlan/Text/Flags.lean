/-
# RenderPlan.Text.Flags -- words of flags as text

A word of flags is written as the names of the flags that are set, in the order of a table, with
the bits that no name covers as one hexadecimal number at the end: `A | C | 0x80`. Read back, the
parts may come in any order and with any white space around them, a number may stand anywhere, and
the same flag may be named twice. The empty text is the empty word, an empty part is a fault.
-/
import RenderPlan.Text.Blank

namespace RenderPlan.Text

/-- The names of single flags, in the order in which they are written. -/
abbrev FlagTable := List (String × UInt32)

namespace FlagTable

/-- All bits that have a name. -/
def known (table : FlagTable) : UInt32 := table.foldl (fun acc f => acc ||| f.2) 0

/-- The digits of `n` in base sixteen, in lower case. -/
def hex (n : UInt32) : String := String.ofList (Nat.toDigits 16 n.toNat)

/-- The parts of the written form. -/
def parts (table : FlagTable) (bits : UInt32) : List String :=
  let named := (table.filter fun f => bits &&& f.2 != 0).map (·.1)
  let rest := bits &&& ~~~table.known
  if rest = 0 then named else named ++ ["0x" ++ hex rest]

/-- The written form; the empty word is the empty text. -/
def write (table : FlagTable) (bits : UInt32) : String := " | ".intercalate (table.parts bits)

/-- The written form with a name in front, as in `Mask(A | B)`. Here the empty word is shown as
`0x0`. -/
def debugText (table : FlagTable) (type : String) (bits : UInt32) : String :=
  type ++ "(" ++ (if bits = 0 then "0x0" else table.write bits) ++ ")"

/-- The value of a digit in base sixteen, in either case. -/
def hexValue? (c : Char) : Option Nat :=
  if '0' ≤ c ∧ c ≤ '9' then some (c.toNat - '0'.toNat)
  else if 'a' ≤ c ∧ c ≤ 'f' then some (c.toNat - 'a'.toNat + 10)
  else if 'A' ≤ c ∧ c ≤ 'F' then some (c.toNat - 'A'.toNat + 10)
  else none

/-- The value of a sequence of digits in base sixteen. -/
def hexNumber? (digits : List Char) : Option Nat :=
  digits.foldl (fun acc c => do return 16 * (← acc) + (← hexValue? c)) (some 0)

/-- The word written as at least one digit in base sixteen, with an optional plus sign in front.
A value that does not fit is refused. -/
def readHex? (cs : List Char) : Option UInt32 := do
  let digits := match cs with
    | '+' :: rest => rest
    | _ => cs
  if digits = [] then none
  let n ← hexNumber? digits
  if n < 0x100000000 then some (UInt32.ofNat n) else none

/-- One part: a number after `0x`, or a name of the table. -/
def readPart? (table : FlagTable) (cs : List Char) : Option UInt32 :=
  match cs with
  | '0' :: 'x' :: digits => readHex? digits
  | _ => (table.find? fun f => f.1.toList = cs).map (·.2)

/-- The word that a text stands for. -/
def read? (table : FlagTable) (text : String) : Option UInt32 :=
  let cs := trim text.toList
  if cs = [] then some 0
  else (pieces '|' text.toList).foldl
    (fun acc part => do return (← acc) ||| (← table.readPart? (trim part))) (some 0)

end FlagTable

end RenderPlan.Text
