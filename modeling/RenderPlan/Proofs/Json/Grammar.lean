/-
# RenderPlan.Proofs.Json.Grammar -- how values are spelled

`Spells cs p` says that the characters `cs` are a part of a JSON text, and what this part means. It is a
relation, since a value has many spellings: white space may stand around a value and around the signs
between values, a character of a text may be escaped, and a number may have an exponent. It is the
grammar of JSON with a meaning beside each rule, and there is no limit on how deep values are nested.

No scanner is mentioned here, so that the grammar can tell what a scanner should accept. Only the value of
a number is taken from its digits in the same way (`numberOf`).
-/
import RenderPlan.Json.Parser

namespace RenderPlan.Json

/-! ## White space and numbers -/

/-- The characters of white space. -/
def blanks : List Char := [' ', '\t', '\n', '\r']

/-- White space between parts. -/
def Blank (ws : List Char) : Prop := ∀ c ∈ ws, c ∈ blanks

/-- At least one digit, and nothing else. -/
structure Digits (ds : List Char) : Prop where
  nonempty : ds ≠ []
  digits : ∀ d ∈ ds, d.isDigit = true

/-- Digits in front of a point. Only the digit zero on its own begins with a zero. -/
structure Whole (ds : List Char) : Prop extends Digits ds where
  zero : ds.head? = some '0' → ds = ['0']

/-- A point with digits behind it, or nothing. -/
inductive Places : List Char → Option (List Char) → Prop where
  | absent : Places [] none
  | present {ds : List Char} : Digits ds → Places ('.' :: ds) (some ds)

/-- The sign of an exponent, or nothing. -/
inductive ExponentSign : List Char → Int → Prop where
  | absent : ExponentSign [] 1
  | plus : ExponentSign ['+'] 1
  | minus : ExponentSign ['-'] (-1)

/-- An exponent, or nothing. -/
inductive Exponent : List Char → Option Int → Prop where
  | absent : Exponent [] none
  | present {mark : Char} {sign ds : List Char} {s : Int} : mark = 'e' ∨ mark = 'E' →
      ExponentSign sign s → Digits ds → Exponent (mark :: (sign ++ ds)) (some (s * digitsValue ds))

/-- A number. -/
inductive Number : List Char → Json → Prop where
  | mk {whole point mark : List Char} {places : Option (List Char)} {exponent : Option Int}
      (negative : Bool) : Whole whole → Places point places → Exponent mark exponent →
      Number ((if negative then ['-'] else []) ++ (whole ++ (point ++ mark)))
        (numberOf negative whole places exponent)

/-! ## Texts -/

/-- The letters that are escapes of one character. -/
def escapes : List (Char × Char) :=
  [('"', '"'), ('\\', '\\'), ('/', '/'), ('b', '\x08'), ('f', '\x0c'), ('n', '\n'), ('r', '\r'),
    ('t', '\t')]

/-- What stands between quotes, as codes. A code is that of a character, or one that is written with four
digits in base sixteen. -/
inductive Codes : List Char → List Nat → Prop where
  | nil : Codes [] []
  | plain {c : Char} {cs : List Char} {ns : List Nat} : 0x20 ≤ c.toNat → c ≠ '"' → c ≠ '\\' →
      Codes cs ns → Codes (c :: cs) (c.toNat :: ns)
  | escape {letter c : Char} {cs : List Char} {ns : List Nat} : (letter, c) ∈ escapes →
      Codes cs ns → Codes ('\\' :: letter :: cs) (c.toNat :: ns)
  | code {a b c d : Char} {n : Nat} {cs : List Char} {ns : List Nat} :
      Text.FlagTable.hexNumber? [a, b, c, d] = some n → Codes cs ns →
      Codes ('\\' :: 'u' :: a :: b :: c :: d :: cs) (n :: ns)

/-- The characters that codes mean. Each is its own code, or a pair of codes out of two ranges that are not
those of characters. -/
inductive Decodes : List Nat → List Char → Prop where
  | nil : Decodes [] []
  | one {ns : List Nat} {cs : List Char} (c : Char) : Decodes ns cs → Decodes (c.toNat :: ns) (c :: cs)
  | pair {high low : Nat} {ns : List Nat} {cs : List Char} (c : Char) : high < 0x400 → low < 0x400 →
      c.toNat = 0x10000 + high * 0x400 + low → Decodes ns cs →
      Decodes ((0xD800 + high) :: (0xDC00 + low) :: ns) (c :: cs)

/-- A text in quotes. If a half of a pair is missing, it means no sequence of characters. -/
inductive Quoted : List Char → Option String → Prop where
  | text {cs : List Char} {ns : List Nat} {s : List Char} : Codes cs ns → Decodes ns s →
      Quoted ('"' :: (cs ++ ['"'])) (some (String.ofList s))
  | halves {cs : List Char} {ns : List Nat} : Codes cs ns → (∀ s, ¬ Decodes ns s) →
      Quoted ('"' :: (cs ++ ['"'])) none

/-! ## Values -/

/-- What a part of a text means. -/
inductive Part where
  | value (j : Json)
  /-- A value with white space around it. -/
  | spaced (j : Json)
  /-- The items of an array, at least one. -/
  | items (js : List Json)
  | member (m : Option String × Json)
  /-- The members of an object, at least one. -/
  | members (ms : List (Option String × Json))

/-- The characters spell this part. -/
inductive Spells : List Char → Part → Prop where
  | null : Spells ['n', 'u', 'l', 'l'] (.value .null)
  | yes : Spells ['t', 'r', 'u', 'e'] (.value (.bool true))
  | no : Spells ['f', 'a', 'l', 's', 'e'] (.value (.bool false))
  | number {cs : List Char} {j : Json} : Number cs j → Spells cs (.value j)
  | string {cs : List Char} {t : Option String} : Quoted cs t → Spells cs (.value (.string t))
  | emptyArray {ws : List Char} : Blank ws → Spells ('[' :: (ws ++ [']'])) (.value (.array []))
  | array {cs : List Char} {js : List Json} : Spells cs (.items js) →
      Spells ('[' :: (cs ++ [']'])) (.value (.array js))
  | emptyObject {ws : List Char} : Blank ws → Spells ('{' :: (ws ++ ['}'])) (.value (.object []))
  | object {cs : List Char} {ms : List (Option String × Json)} : Spells cs (.members ms) →
      Spells ('{' :: (cs ++ ['}'])) (.value (.object ms))
  | spaced {ws cs ws' : List Char} {j : Json} : Blank ws → Spells cs (.value j) → Blank ws' →
      Spells (ws ++ (cs ++ ws')) (.spaced j)
  | lastItem {cs : List Char} {j : Json} : Spells cs (.spaced j) → Spells cs (.items [j])
  | item {cs cs' : List Char} {j : Json} {js : List Json} : Spells cs (.spaced j) →
      Spells cs' (.items js) → Spells (cs ++ ',' :: cs') (.items (j :: js))
  | colon {ws key ws' cs : List Char} {t : Option String} {j : Json} : Blank ws → Quoted key t →
      Blank ws' → Spells cs (.spaced j) → Spells (ws ++ (key ++ (ws' ++ ':' :: cs))) (.member (t, j))
  | lastMember {cs : List Char} {m : Option String × Json} : Spells cs (.member m) →
      Spells cs (.members [m])
  | member {cs cs' : List Char} {m : Option String × Json} {ms : List (Option String × Json)} :
      Spells cs (.member m) → Spells cs' (.members ms) →
      Spells (cs ++ ',' :: cs') (.members (m :: ms))

/-- The text holds this value, with white space around it. -/
def Holds (text : String) (j : Json) : Prop := Spells text.toList (.spaced j)

end RenderPlan.Json
