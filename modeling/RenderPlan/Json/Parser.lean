/-
# RenderPlan.Json.Parser -- reading JSON text

`Json.parse?` accepts exactly one value with white space around it. White space is space, tab,
line feed and carriage return; numbers have no superfluous zero and no sign but minus; control
characters stand in no text. There is no limit on nesting.

Each scanner takes the characters that are left and hands back what it read with the characters
after it. The mutual part counts down a bound that the length of the text sets: every second call
uses up a character.
-/
import RenderPlan.Json.Basic
import RenderPlan.Text.Flags

namespace RenderPlan.Json

/-! ## Blanks, words and texts -/

/-- White space between the parts of a value. -/
def isSpace (c : Char) : Bool := c = ' ' || c = '\t' || c = '\n' || c = '\r'

def skipSpace (cs : List Char) : List Char := cs.dropWhile isSpace

/-- What follows a word, if the text starts with it. -/
def afterWord? (word cs : List Char) : Option (List Char) :=
  if word.isPrefixOf cs then some (cs.drop word.length) else none

/-- The character that a one-letter escape stands for. -/
def escaped? : Char → Option Char
  | '"' => some '"'
  | '\\' => some '\\'
  | '/' => some '/'
  | 'b' => some '\x08'
  | 'f' => some '\x0c'
  | 'n' => some '\n'
  | 'r' => some '\r'
  | 't' => some '\t'
  | _ => none

/-- The codes of a text up to its closing quote. A code is a code point, or half of a surrogate
pair where an escape says so. -/
def scanCodes? : List Char → Option (List Nat × List Char)
  | [] => none
  | '"' :: rest => some ([], rest)
  | '\\' :: 'u' :: a :: b :: c :: d :: rest => do
    let code ← Text.FlagTable.hexNumber? [a, b, c, d]
    let (codes, rest) ← scanCodes? rest
    some (code :: codes, rest)
  | '\\' :: c :: rest => do
    let c ← escaped? c
    let (codes, rest) ← scanCodes? rest
    some (c.toNat :: codes, rest)
  | c :: rest =>
    if c.toNat < 0x20 ∨ c = '\\' then none
    else do
      let (codes, rest) ← scanCodes? rest
      some (c.toNat :: codes, rest)

/-- The code is the first half of a surrogate pair. -/
def isLeading (n : Nat) : Bool := 0xD800 ≤ n && n ≤ 0xDBFF

/-- The code is the second half of a surrogate pair. -/
def isTrailing (n : Nat) : Bool := 0xDC00 ≤ n && n ≤ 0xDFFF

/-- The characters of a sequence of codes, if every half of a pair has its other half. -/
def decodeCodes? : List Nat → Option (List Char)
  | [] => some []
  | [n] => if isLeading n || isTrailing n then none else some [Char.ofNat n]
  | n :: m :: rest =>
    if isLeading n then
      if isTrailing m then
        (decodeCodes? rest).map (Char.ofNat (0x10000 + (n - 0xD800) * 0x400 + (m - 0xDC00)) :: ·)
      else none
    else if isTrailing n then none
    else (decodeCodes? (m :: rest)).map (Char.ofNat n :: ·)

/-- The rest of a text after its opening quote. -/
def scanText? (cs : List Char) : Option (Option String × List Char) := do
  let (codes, rest) ← scanCodes? cs
  some ((decodeCodes? codes).map String.ofList, rest)

/-! ## Numbers -/

/-- The value of a sequence of decimal digits. -/
def digitsValue (ds : List Char) : Nat :=
  ds.foldl (fun acc d => 10 * acc + (d.toNat - '0'.toNat)) 0

/-- The leading digits, and what follows them. -/
def spanDigits (cs : List Char) : List Char × List Char :=
  (cs.takeWhile Char.isDigit, cs.dropWhile Char.isDigit)

/-- The digits before the point: a single zero, or a sequence that does not begin with one. -/
def scanWhole? (cs : List Char) : Option (List Char × List Char) :=
  match spanDigits cs with
  | ([], _) => none
  | ('0' :: _ :: _, _) => none
  | whole => some whole

/-- The digits behind a point, none if there is no point. -/
def scanPlaces? : List Char → Option (Option (List Char) × List Char)
  | '.' :: rest =>
    match spanDigits rest with
    | ([], _) => none
    | (ds, rest) => some (some ds, rest)
  | cs => some (none, cs)

/-- The exponent, none if there is no mark for one. -/
def scanExponent? : List Char → Option (Option Int × List Char)
  | [] => some (none, [])
  | c :: rest =>
    if c = 'e' ∨ c = 'E' then
      let (sign, rest) : Int × List Char := match rest with
        | '+' :: rest => (1, rest)
        | '-' :: rest => (-1, rest)
        | _ => (1, rest)
      match spanDigits rest with
      | ([], _) => none
      | (ds, rest) => some (some (sign * digitsValue ds), rest)
    else some (none, c :: rest)

/-- A number from its parts. -/
def numberOf (negative : Bool) (whole : List Char) (places : Option (List Char))
    (exponent : Option Int) : Json :=
  let ds := whole ++ places.getD []
  let n : Int := if negative then -digitsValue ds else digitsValue ds
  if places.isNone ∧ exponent.isNone ∧ FitsWord n ∧ ¬(negative ∧ n = 0) then integer n
  else decimal ⟨negative, .normal (digitsValue ds) (exponent.getD 0 - (places.getD []).length)⟩

/-- A number. -/
def scanNumber? (cs : List Char) : Option (Json × List Char) := do
  let (negative, cs) := match cs with
    | '-' :: rest => (true, rest)
    | _ => (false, cs)
  let (whole, cs) ← scanWhole? cs
  let (places, cs) ← scanPlaces? cs
  let (exponent, cs) ← scanExponent? cs
  some (numberOf negative whole places exponent, cs)

/-! ## Values -/

mutual

/-- A value, with white space in front of it. -/
def scanValue? : Nat → List Char → Option (Json × List Char)
  | 0, _ => none
  | n + 1, cs =>
    match skipSpace cs with
    | [] => none
    | '"' :: rest => (scanText? rest).map fun r => (string r.1, r.2)
    | '[' :: rest =>
      match skipSpace rest with
      | ']' :: rest => some (array [], rest)
      | rest => (scanItems? n rest).map fun r => (array r.1, r.2)
    | '{' :: rest =>
      match skipSpace rest with
      | '}' :: rest => some (object [], rest)
      | rest => (scanMembers? n rest).map fun r => (object r.1, r.2)
    | 'n' :: rest => (afterWord? ['u', 'l', 'l'] rest).map fun r => (null, r)
    | 't' :: rest => (afterWord? ['r', 'u', 'e'] rest).map fun r => (bool true, r)
    | 'f' :: rest => (afterWord? ['a', 'l', 's', 'e'] rest).map fun r => (bool false, r)
    | c :: rest => scanNumber? (c :: rest)

/-- The items of an array, at least one, up to the closing bracket. -/
def scanItems? : Nat → List Char → Option (List Json × List Char)
  | 0, _ => none
  | n + 1, cs => do
    let (item, cs) ← scanValue? n cs
    match skipSpace cs with
    | ']' :: rest => some ([item], rest)
    | ',' :: rest => do
      let (items, rest) ← scanItems? n rest
      some (item :: items, rest)
    | _ => none

/-- The members of an object, at least one, up to the closing brace. -/
def scanMembers? : Nat → List Char → Option (List (Option String × Json) × List Char)
  | 0, _ => none
  | n + 1, cs =>
    match skipSpace cs with
    | '"' :: cs => do
      let (key, cs) ← scanText? cs
      match skipSpace cs with
      | ':' :: cs => do
        let (value, cs) ← scanValue? n cs
        match skipSpace cs with
        | '}' :: rest => some ([(key, value)], rest)
        | ',' :: rest => do
          let (members, rest) ← scanMembers? n rest
          some ((key, value) :: members, rest)
        | _ => none
      | _ => none
    | _ => none

end

/-- The value that a text holds, if it is well-formed. -/
def parse? (text : String) : Option Json := do
  let cs := text.toList
  let (value, rest) ← scanValue? (2 * cs.length + 2) cs
  if skipSpace rest = [] then some value else none

end RenderPlan.Json
