/-
# RenderPlan.Json.Printer -- writing JSON text

`Json.render` writes a value without any white space. A text is quoted with as few escapes as
possible: the quote, the backslash and the control characters.
-/
import RenderPlan.Json.Basic

namespace RenderPlan.Json

/-- A digit in base sixteen, in lower case. -/
def hexDigit (n : Nat) : Char := (Nat.digitChar (n % 16))

/-- One character inside quotes. -/
def escapeChar (c : Char) : List Char :=
  if c = '"' then ['\\', '"']
  else if c = '\\' then ['\\', '\\']
  else if c = '\x08' then ['\\', 'b']
  else if c = '\x0c' then ['\\', 'f']
  else if c = '\n' then ['\\', 'n']
  else if c = '\r' then ['\\', 'r']
  else if c = '\t' then ['\\', 't']
  else if c.toNat < 0x20 then ['\\', 'u', '0', '0', hexDigit (c.toNat / 16), hexDigit c.toNat]
  else [c]

/-- A text in quotes. -/
def quote (s : String) : String :=
  String.ofList ('"' :: (s.toList.flatMap escapeChar ++ ['"']))

mutual

/-- A value without white space. A text that names no sequence of characters is written as the
replacement character. -/
def render : Json → String
  | null => "null"
  | bool b => if b then "true" else "false"
  | integer n => toString n
  | decimal d => d.text
  | string text => quote (text.getD "\ufffd")
  | array items => "[" ++ ",".intercalate (renderItems items) ++ "]"
  | object members => "\x7b" ++ ",".intercalate (renderMembers members) ++ "\x7d"

/-- Each item of an array. -/
def renderItems : List Json → List String
  | [] => []
  | item :: items => render item :: renderItems items

/-- Each member of an object, key and value. -/
def renderMembers : List (Option String × Json) → List String
  | [] => []
  | (key, value) :: members =>
    (quote (key.getD "\ufffd") ++ ":" ++ render value) :: renderMembers members

end

end RenderPlan.Json
