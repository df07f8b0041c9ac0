/-
# RenderPlan.Json.Library -- what writes values as JSON and reads them

Settings do not deal with JSON themselves. They are written and read by a library, which is told the
fields of a record and works with codecs: how a value of some type is written and how it is read. A
`Library` is what such a library provides, without saying how.

`Library.own` is a library. It writes and reads by `Json.render` and `Json.parse?`, and a record is one
in the sense of `Json.record?`: absent fields are as in the default, unknown members are passed over.
Its codecs also know the shape of what they read, only to say what is wrong with a value that is
refused.
-/
import RenderPlan.Json.Parser
import RenderPlan.Json.Record
import RenderPlan.Json.Shape

namespace RenderPlan.Json

/-- A field of a record. -/
structure Field (Codec : Type → Type) (α : Type) where
  name : String
  Value : Type
  codec : Codec Value
  get : α → Value
  set : Value → α → α

/-- The record with what is read for the field. An absent field stays as it is. -/
def Field.fill? {Codec : Type → Type} {α : Type} (f : Field Codec α) (read? : Json → Option f.Value)
    (r : α) : Option Json → Option α
  | none => some r
  | some j => (read? j).map fun v => f.set v r

/-- What writes values as JSON and reads them. -/
structure Library where
  Codec : Type → Type
  truth : Codec Bool
  word : Codec UInt64
  /-- A word, or null for none. -/
  optionalWord : Codec (Option UInt64)
  /-- Records with these fields. Each that is absent in a value is as in `default`. -/
  record {α : Type} (name : String) (default : α) (fields : List (Field Codec α)) : Codec α
  encode {α : Type} : Codec α → α → Json
  /-- What is read from a value, if it fits. -/
  decode? {α : Type} : Codec α → Json → Option α
  toText {α : Type} : Codec α → α → String
  /-- What is read from a text. One that holds no value is refused without a place, and one that holds
  a value that does not fit with the first place where it does not. -/
  ofText {α : Type} : Codec α → String → Except (Option Mismatch) α

/-! ## A library -/

/-- How the values of a type are written and read, and their shape. -/
structure Codec (α : Type) where
  shape : Shape
  encode : α → Json
  decode? : Json → Option α

namespace Codec

def truth : Codec Bool := ⟨.truth, .bool, bool?⟩

def word : Codec UInt64 := ⟨.word, fun n => .ofNat n.toNat, word?⟩

def optionalWord : Codec (Option UInt64) where
  shape := .optionalWord
  encode
    | none => .null
    | some n => .ofNat n.toNat
  decode? := optionalWord?

variable {α : Type}

/-- The record with what is read for each of the fields. -/
def fillAll? : List (Field Codec α) → List (Option Json) → α → Option α
  | f :: fields, given :: values, r => do
    let r ← f.fill? f.codec.decode? r given
    fillAll? fields values r
  | _, _, r => some r

def record (name : String) (default : α) (fields : List (Field Codec α)) : Codec α where
  shape := .record name (fields.map fun f => (f.name, f.codec.shape))
  encode r := .ofMembers (fields.map fun f => (f.name, f.codec.encode (f.get r)))
  decode? j := do
    let values ← j.record? (fields.map Field.name)
    fillAll? fields values default

/-- Reads a text. Numbers in a value that does not fit are shown as doubles. -/
def ofText (codec : Codec α) (text : String) : Except (Option Mismatch) α :=
  match parse? text with
  | none => .error none
  | some j =>
    match codec.decode? j with
    | some a => .ok a
    | none => .error (mismatch? 0 j.inDoubles codec.shape)

end Codec

/-- The library at hand. -/
def Library.own : Library where
  Codec := Json.Codec
  truth := .truth
  word := .word
  optionalWord := .optionalWord
  record := .record
  encode := Json.Codec.encode
  decode? := Json.Codec.decode?
  toText codec a := (codec.encode a).render
  ofText := Json.Codec.ofText

end RenderPlan.Json
