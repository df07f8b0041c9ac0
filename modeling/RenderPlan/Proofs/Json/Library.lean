/-
# RenderPlan.Proofs.Json.Library -- records through any library

What is known about a library for JSON is `Library.Documented`: a text that it writes holds the value that
it encodes, what it reads from a text is decided by the value that the text holds, and the codecs of scalars
and of records do what they are for. Nothing is said about deep nesting, about arrays in place of records or
about a field that is given twice.

From this it follows that records survive. `Kept` says of any codec what survives: whatever is left of an
encoded value (`Trims`) is read as the value without what was dropped. A record is kept if each of its fields
is (`Kept.record`), so scalars come first and then records of them, one inside another.

The library at hand is as documented (`own_documented`).
-/
import RenderPlan.Json.Library
import RenderPlan.Proofs.Json.Reading
import RenderPlan.Proofs.Json.Printing
import RenderPlan.Proofs.Json.Trimming

namespace RenderPlan.Json

/-! ## Nesting -/

mutual

/-- How deep arrays and objects are nested. -/
def depth : Json → Nat
  | array items => 1 + itemsDepth items
  | object members => 1 + membersDepth members
  | _ => 0

/-- The greatest depth of the items of an array. -/
def itemsDepth : List Json → Nat
  | [] => 0
  | item :: items => max (depth item) (itemsDepth items)

/-- The greatest depth of the members of an object. -/
def membersDepth : List (Option String × Json) → Nat
  | [] => 0
  | (_, value) :: members => max (depth value) (membersDepth members)

end

theorem depth_ofMembers_le {members : List (String × Json)} {n : Nat}
    (h : ∀ m ∈ members, m.2.depth ≤ n) : (ofMembers members).depth ≤ n + 1 := by
  have hmembers : membersDepth (members.map fun m => (some m.1, m.2)) ≤ n := by
    induction members with
    | nil => exact Nat.zero_le n
    | cons m members ih =>
        rw [List.forall_mem_cons] at h
        rw [List.map_cons, membersDepth]
        exact max_le h.1 (ih h.2)
  rw [ofMembers, depth]
  omega

/-! ## What is known about a library -/

variable {α : Type}

/-- The value that stands for these fields of a record. -/
def encodeFields (lib : Library) (fields : List (Field lib.Codec α)) (r : α) : Json :=
  .ofMembers (fields.map fun f => (f.name, lib.encode f.codec (f.get r)))

/-- The record with what is read for each of the fields; `given` are their values. -/
def fill? (lib : Library) (fields : List (Field lib.Codec α)) (given : String → Option Json) (r : α) :
    Option α :=
  fields.foldlM (fun r f => f.fill? (lib.decode? f.codec) r (given f.name)) r

/-- The library does what it should. -/
structure Library.Documented (lib : Library) : Prop where
  /-- A text that is written holds the value. -/
  writes : ∀ {α : Type} (codec : lib.Codec α) (a : α), Printable (lib.encode codec a) →
    Holds (lib.toText codec a) (lib.encode codec a)
  /-- A text is read as the value that it holds, unless this is nested too deep. -/
  reads : ∀ {α : Type} (codec : lib.Codec α) {text : String} {j : Json} {a : α}, Holds text j →
    j.depth < 128 → lib.decode? codec j = some a → lib.ofText codec text = .ok a
  encode_truth : ∀ b, lib.encode lib.truth b = .bool b
  decode_truth : ∀ b, lib.decode? lib.truth (.bool b) = some b
  encode_word : ∀ n, lib.encode lib.word n = .ofNat n.toNat
  decode_word : ∀ n : UInt64, lib.decode? lib.word (.ofNat n.toNat) = some n
  encode_no_word : lib.encode lib.optionalWord none = .null
  decode_no_word : lib.decode? lib.optionalWord .null = some none
  encode_some_word : ∀ n, lib.encode lib.optionalWord (some n) = .ofNat n.toNat
  decode_some_word : ∀ n : UInt64, lib.decode? lib.optionalWord (.ofNat n.toNat) = some (some n)
  /-- A record is written as an object with its fields in order. -/
  encode_record : ∀ {α : Type} (name : String) (default : α) (fields : List (Field lib.Codec α)) (r : α),
    lib.encode (lib.record name default fields) r = encodeFields lib fields r
  /-- In an object the fields may stand anywhere among other members. A field that is given has the value
  that is given, and one that is not is as in the default. -/
  decode_record : ∀ {α : Type} (name : String) (default : α) (fields : List (Field lib.Codec α))
    (members : List (Option String × Json)) (given : String → Option Json),
    (fields.map Field.name).Nodup → (∀ m ∈ members, m.1.isSome) →
    (∀ f ∈ fields, single? (valuesOf f.name members) = some (given f.name)) →
    lib.decode? (lib.record name default fields) (.object members) = fill? lib fields given default

/-! ## What survives -/

/-- Values survive that are written and read by this codec. `depth` is how deep they are nested. -/
structure Kept (lib : Library) (codec : lib.Codec α) (without : Dropped → α → α) (depth : Nat) : Prop where
  /-- What is not dropped is read. -/
  reads : ∀ {drop a j}, Trims drop (lib.encode codec a) j → lib.decode? codec j = some (without drop a)
  without_nothing : ∀ a, without .nothing a = a
  trims_nothing : ∀ a, Trims .nothing (lib.encode codec a) (lib.encode codec a)
  printable : ∀ a, Printable (lib.encode codec a)
  depth_le : ∀ a, (lib.encode codec a).depth ≤ depth

theorem Kept.mono {lib : Library} {codec : lib.Codec α} {without : Dropped → α → α} {m n : Nat}
    (h : Kept lib codec without m) (hmn : m ≤ n) : Kept lib codec without n where
  reads := h.reads
  without_nothing := h.without_nothing
  trims_nothing := h.trims_nothing
  printable := h.printable
  depth_le a := (h.depth_le a).trans hmn

/-- Nothing can be dropped from a scalar. -/
theorem Kept.scalar {lib : Library} {codec : lib.Codec α}
    (hdecode : ∀ a, lib.decode? codec (lib.encode codec a) = some a)
    (hscalar : ∀ a members, lib.encode codec a ≠ .object members)
    (hprintable : ∀ a, Printable (lib.encode codec a)) (hdepth : ∀ a, (lib.encode codec a).depth = 0) :
    Kept lib codec (fun _ a => a) 0 where
  reads {_ a _} h := by
    rw [h.eq_of_scalar (hscalar a)]
    exact hdecode a
  without_nothing _ := rfl
  trims_nothing a := .scalar (hscalar a)
  printable := hprintable
  depth_le a := (hdepth a).le

theorem printable_word (n : UInt64) : Printable (.ofNat n.toNat) :=
  .integer ⟨by omega, Int.ofNat_lt.mpr n.toNat_lt⟩

namespace Library.Documented

variable {lib : Library}

theorem kept_truth (h : lib.Documented) : Kept lib lib.truth (fun _ b => b) 0 := by
  refine .scalar ?_ ?_ ?_ ?_ <;> intro b <;> rw [h.encode_truth]
  · exact h.decode_truth b
  · exact fun _ => nofun
  · exact .bool b
  · rfl

theorem kept_word (h : lib.Documented) : Kept lib lib.word (fun _ n => n) 0 := by
  refine .scalar ?_ ?_ ?_ ?_ <;> intro n <;> rw [h.encode_word]
  · exact h.decode_word n
  · exact fun _ => nofun
  · exact printable_word n
  · rfl

theorem kept_optionalWord (h : lib.Documented) : Kept lib lib.optionalWord (fun _ o => o) 0 := by
  refine .scalar ?_ ?_ ?_ ?_ <;> rintro (_ | n)
  · rw [h.encode_no_word, h.decode_no_word]
  · rw [h.encode_some_word, h.decode_some_word]
  · rw [h.encode_no_word]
    exact fun _ => nofun
  · rw [h.encode_some_word]
    exact fun _ => nofun
  · rw [h.encode_no_word]
    exact .null
  · rw [h.encode_some_word]
    exact printable_word n
  · rw [h.encode_no_word, depth]
    all_goals exact fun _ => nofun
  · rw [h.encode_some_word]
    rfl

end Library.Documented

/-- The values of all these fields are kept. `keep drop o r` is the record `r` with those of the fields of `o`
that are not dropped. -/
inductive Keeps (lib : Library) (n : Nat) :
    List (Field lib.Codec α) → (Dropped → α → α → α) → Prop where
  | nil : Keeps lib n [] fun _ _ r => r
  | cons {f : Field lib.Codec α} {fields : List (Field lib.Codec α)}
      {without : Dropped → f.Value → f.Value} {keep : Dropped → α → α → α} :
      Kept lib f.codec without n → Keeps lib n fields keep →
      Keeps lib n (f :: fields) fun drop o r =>
        keep drop o (if drop.here f.name then r else f.set (without (drop.within f.name) (f.get o)) r)

namespace Keeps

variable {lib : Library} {n : Nat} {fields : List (Field lib.Codec α)} {keep : Dropped → α → α → α}

theorem kept (h : Keeps lib n fields keep) : ∀ f ∈ fields, ∃ without, Kept lib f.codec without n := by
  induction h with
  | nil => exact List.forall_mem_nil _
  | cons hf _ ih => exact List.forall_mem_cons.mpr ⟨⟨_, hf⟩, ih⟩

/-- What is read for the fields is what is kept of them. -/
theorem fill?_eq {drop : Dropped} {o : α} {inner : String → Json} (h : Keeps lib n fields keep)
    (hinner : ∀ f ∈ fields, drop.here f.name = false →
      Trims (drop.within f.name) (lib.encode f.codec (f.get o)) (inner f.name)) (r : α) :
    fill? lib fields (fun key => if drop.here key then none else some (inner key)) r =
      some (keep drop o r) := by
  induction h generalizing r with
  | nil => rfl
  | @cons f fields without keep hf _ ih =>
      rw [List.forall_mem_cons] at hinner
      have hfill : f.fill? (lib.decode? f.codec) r
          (if drop.here f.name then none else some (inner f.name)) =
            some (if drop.here f.name then r
              else f.set (without (drop.within f.name) (f.get o)) r) := by
        split
        · rfl
        · next hdrop =>
            rw [Field.fill?, hf.reads (hinner.1 (Bool.not_eq_true _ ▸ hdrop))]
            rfl
      rw [fill?, List.foldlM_cons, hfill]
      exact ih hinner.2 _

end Keeps

/-- **Records survive if the values of their fields do.** -/
theorem Kept.record {lib : Library} (hlib : lib.Documented) {name : String} {default : α}
    {fields : List (Field lib.Codec α)} {keep : Dropped → α → α → α} {without : Dropped → α → α} {n : Nat}
    (hfields : Keeps lib n fields keep) (hnodup : (fields.map Field.name).Nodup)
    (hwithout : ∀ drop o, keep drop o default = without drop o) (hnothing : ∀ o, without .nothing o = o) :
    Kept lib (lib.record name default fields) without (n + 1) := by
  have hnames : ∀ o : α,
      (fields.map fun f => (f.name, lib.encode f.codec (f.get o))).map Prod.fst =
        fields.map Field.name := fun o => by
    rw [List.map_map]
    rfl
  refine ⟨?_, hnothing, ?_, ?_, ?_⟩
  · intro drop o j h
    rw [hlib.encode_record, encodeFields] at h
    obtain ⟨members, inner, rfl, hkeys, hinner, hvalues⟩ := h.fields (hnames o ▸ hnodup)
    rw [hnames] at hvalues
    rw [List.forall_mem_map] at hinner
    have hread := hlib.decode_record name default fields members
      (fun key => if drop.here key then none else some (inner key)) hnodup hkeys
      fun f hf => hvalues f.name (List.mem_map_of_mem hf)
    rw [hread, hfields.fill?_eq hinner, hwithout]
  · intro o
    rw [hlib.encode_record]
    refine Json.trims_nothing (hnames o ▸ hnodup) (List.forall_mem_map.mpr fun f hf => ?_)
    obtain ⟨_, hkept⟩ := hfields.kept f hf
    exact hkept.trims_nothing (f.get o)
  · intro o
    rw [hlib.encode_record]
    refine .object (by simp) ?_
    simp only [List.map_map, List.forall_mem_map]
    intro f hf
    obtain ⟨_, hkept⟩ := hfields.kept f hf
    exact hkept.printable (f.get o)
  · intro o
    rw [hlib.encode_record]
    refine depth_ofMembers_le (List.forall_mem_map.mpr fun f hf => ?_)
    obtain ⟨_, hkept⟩ := hfields.kept f hf
    exact hkept.depth_le (f.get o)

/-! ## The library at hand -/

theorem word?_ofNat (n : UInt64) : word? (.ofNat n.toNat) = some n := by
  have hfits : (0 : Int) ≤ n.toNat ∧ (n.toNat : Int) < 0x10000000000000000 :=
    ⟨Int.natCast_nonneg _, Int.ofNat_lt.mpr n.toNat_lt⟩
  rw [ofNat, word?, if_pos hfits, Int.toNat_natCast, UInt64.ofNat_toNat]

theorem optionalWord?_ofNat (n : UInt64) : optionalWord? (.ofNat n.toNat) = some (some n) := by
  rw [ofNat, optionalWord?, ← ofNat, word?_ofNat]
  · rfl
  · nofun

theorem Codec.ofText_of_holds {codec : Codec α} {text : String} {j : Json} {a : α}
    (hholds : Holds text j) (hdecode : codec.decode? j = some a) : codec.ofText text = .ok a := by
  simp only [Codec.ofText, parse?_of_holds hholds, hdecode]

/-- Values that are found under the names of the fields go into the fields. -/
theorem fillAll?_map {fields : List (Field Codec α)} {given : String → Option Json} (r : α) :
    Codec.fillAll? fields (fields.map fun f => given f.name) r = fill? .own fields given r := by
  induction fields generalizing r with
  | nil => rfl
  | cons f fields ih =>
      change (f.fill? f.codec.decode? r (given f.name)).bind _ =
        (f.fill? f.codec.decode? r (given f.name)).bind (fill? .own fields given)
      exact congrArg (Option.bind _) (funext ih)

theorem record?_object {names : List String} {members : List (Option String × Json)}
    {given : String → Option Json} (hkeys : ∀ m ∈ members, m.1.isSome)
    (hgiven : ∀ key ∈ names, single? (valuesOf key members) = some (given key)) :
    (object members).record? names = some (names.map given) := by
  rw [record?, if_pos (List.all_eq_true.mpr hkeys)]
  induction names with
  | nil => rfl
  | cons key names ih =>
      rw [List.forall_mem_cons] at hgiven
      rw [List.mapM_cons, hgiven.1, ih hgiven.2]
      rfl

/-- **The library at hand is as documented.** -/
theorem own_documented : Library.own.Documented where
  writes _ _ h := holds_render h
  reads _ _ _ _ hholds _ hdecode := Codec.ofText_of_holds hholds hdecode
  encode_truth _ := rfl
  decode_truth _ := rfl
  encode_word _ := rfl
  decode_word n := by
    rw [show Library.own.decode? Library.own.word = word? from rfl, word?_ofNat]
  encode_no_word := rfl
  decode_no_word := rfl
  encode_some_word _ := rfl
  decode_some_word n := by
    rw [show Library.own.decode? Library.own.optionalWord = optionalWord? from rfl, optionalWord?_ofNat]
  encode_record _ _ _ _ := rfl
  decode_record name default fields members given _ hkeys hgiven := by
    have hvalues : (object members).record? (fields.map Field.name) =
        some ((fields.map Field.name).map given) :=
      record?_object hkeys (List.forall_mem_map.mpr hgiven)
    change ((object members).record? (fields.map Field.name)).bind _ = _
    rw [hvalues, List.map_map]
    exact fillAll?_map default

end RenderPlan.Json
