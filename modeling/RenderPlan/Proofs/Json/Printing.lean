/-
# RenderPlan.Proofs.Json.Printing -- what is printed is spelled

`Json.render` prints one of the spellings of a value, without any white space (`spells_render`). That is
so if the value can be printed as it is (`Printable`): its integers fit in words, its texts are sequences of
characters and no decimals are in it. A decimal is printed with digits of its own choice, so its spelling
means an equal number but not the same one.
-/
import RenderPlan.Json.Printer
import RenderPlan.Proofs.Json.Grammar
import Mathlib.Data.List.Basic
import Mathlib.Tactic.SplitIfs

namespace RenderPlan.Json

/-! ## Numbers -/

theorem digitsValue_toDigits (n : Nat) : digitsValue (Nat.toDigits 10 n) = n :=
  Nat.ofDigitChars_ten_toDigits

/-- Only zero is printed with a leading zero. -/
theorem whole_toDigits (n : Nat) : Whole (Nat.toDigits 10 n) where
  nonempty := Nat.toDigits_ne_nil
  digits _ hd := Nat.isDigit_of_mem_toDigits (by decide) (by decide) hd
  zero := by
    induction n using Nat.strongRecOn with
    | _ n ih =>
      rcases Nat.lt_or_ge n 10 with hlt | hge
      · have hsmall : ∀ d < 10, [Nat.digitChar d].head? = some '0' → [Nat.digitChar d] = ['0'] := by decide
        rw [Nat.toDigits_of_lt_base hlt]
        exact hsmall n hlt
      · have hfront := ih (n / 10) (Nat.div_lt_self (by omega) (by decide))
        have hvalue := digitsValue_toDigits (n / 10)
        rw [Nat.toDigits_of_base_le (by decide) hge, List.head?_append_of_ne_nil _ Nat.toDigits_ne_nil]
        intro hhead
        rw [hfront hhead] at hvalue
        have hzero : n / 10 = 0 := hvalue.symm
        omega

/-- An integer that fits is printed as a number without a point and without an exponent. -/
theorem number_integer {n : Int} (h : FitsWord n) : Number (toString n).toList (.integer n) := by
  rcases n with m | m
  · have hnumber := Number.mk false (whole_toDigits m) .absent .absent
    have hvalue : numberOf false (Nat.toDigits 10 m) none none = .integer m := by
      simp only [numberOf, Option.getD_none, List.append_nil, digitsValue_toDigits]
      exact if_pos ⟨rfl, rfl, h, fun hneg => Bool.false_ne_true hneg.1⟩
    have htext : (toString (Int.ofNat m)).toList = Nat.toDigits 10 m := by
      rw [Int.toString_eq_repr, Int.repr, Nat.repr_eq_ofList_toDigits, String.toList_ofList]
    rw [hvalue] at hnumber
    rw [htext]
    simpa using hnumber
  · have hnumber := Number.mk true (whole_toDigits (m + 1)) .absent .absent
    have hvalue : numberOf true (Nat.toDigits 10 (m + 1)) none none = .integer (Int.negSucc m) := by
      simp only [numberOf, Option.getD_none, List.append_nil, digitsValue_toDigits]
      exact if_pos ⟨rfl, rfl, h, fun hneg => absurd hneg.2 (by omega)⟩
    have htext : (toString (Int.negSucc m)).toList = '-' :: Nat.toDigits 10 (m + 1) := by
      rw [Int.toString_eq_repr, Int.repr, Nat.repr_eq_ofList_toDigits, String.toList_append]
      exact congrArg ('-' :: ·) String.toList_ofList
    rw [hvalue] at hnumber
    rw [htext]
    simpa using hnumber

/-! ## Texts -/

/-- A character is written as itself or as an escape that means it. -/
theorem codes_escapeChar (c : Char) {cs : List Char} {ns : List Nat} (h : Codes cs ns) :
    Codes (escapeChar c ++ cs) (c.toNat :: ns) := by
  unfold escapeChar
  split_ifs with h₁ h₂ h₃ h₄ h₅ h₆ h₇ h₈
  case pos | pos | pos | pos | pos | pos | pos =>
    subst c
    exact .escape (by decide) h
  · have hcode : ∀ n < 0x20,
        Text.FlagTable.hexNumber? ['0', '0', hexDigit (n / 16), hexDigit n] = some n := by decide
    exact .code (hcode _ h₈) h
  · exact .plain (Nat.le_of_not_lt h₈) h₁ h₂ h

theorem codes_flatMap (cs : List Char) : Codes (cs.flatMap escapeChar) (cs.map Char.toNat) := by
  induction cs with
  | nil => exact .nil
  | cons c cs ih =>
      rw [List.flatMap_cons, List.map_cons]
      exact codes_escapeChar c ih

theorem decodes_map (cs : List Char) : Decodes (cs.map Char.toNat) cs := by
  induction cs with
  | nil => exact .nil
  | cons c cs ih => exact .one c ih

theorem quoted_quote (s : String) : Quoted (quote s).toList (some s) := by
  have htext := Quoted.text (codes_flatMap s.toList) (decodes_map s.toList)
  rwa [String.ofList_toList, ← String.toList_ofList (l := '"' :: _)] at htext

/-! ## Values -/

/-- The value is printed as it is. -/
inductive Printable : Json → Prop where
  | null : Printable .null
  | bool (b : Bool) : Printable (.bool b)
  | integer {n : Int} : FitsWord n → Printable (.integer n)
  | string (s : String) : Printable (.string (some s))
  | array {items : List Json} : (∀ j ∈ items, Printable j) → Printable (.array items)
  | object {members : List (Option String × Json)} : (∀ m ∈ members, m.1.isSome) →
      (∀ m ∈ members, Printable m.2) → Printable (.object members)

theorem Spells.unspaced {cs : List Char} {j : Json} (h : Spells cs (.value j)) :
    Spells cs (.spaced j) := by
  have hblank : Blank [] := List.forall_mem_nil _
  have hspaced := Spells.spaced hblank h hblank
  rwa [List.nil_append, List.append_nil] at hspaced

theorem spells_items {items : List Json} (hne : items ≠ [])
    (h : ∀ j ∈ items, Spells (render j).toList (.value j)) :
    Spells (",".intercalate (renderItems items)).toList (.items items) := by
  induction items with
  | nil => exact absurd rfl hne
  | cons j items ih =>
      have hj := (h j List.mem_cons_self).unspaced
      cases items with
      | nil =>
          rw [renderItems, renderItems, String.intercalate_singleton]
          exact .lastItem hj
      | cons k items =>
          have hrest := ih (List.cons_ne_nil _ _) fun i hi => h i (List.mem_cons_of_mem _ hi)
          rw [renderItems] at hrest ⊢
          rw [renderItems, String.intercalate_cons_cons, String.toList_append, String.toList_append,
            List.append_assoc]
          exact .item hj hrest

theorem spells_member {key : String} {j : Json} (h : Spells (render j).toList (.value j)) :
    Spells (quote key ++ ":" ++ render j).toList (.member (some key, j)) := by
  have hblank : Blank [] := List.forall_mem_nil _
  have hmember := Spells.colon hblank (quoted_quote key) hblank h.unspaced
  rw [List.nil_append, List.nil_append] at hmember
  rw [String.toList_append, String.toList_append, List.append_assoc]
  exact hmember

theorem spells_members {members : List (Option String × Json)} (hne : members ≠ [])
    (hkeys : ∀ m ∈ members, m.1.isSome) (h : ∀ m ∈ members, Spells (render m.2).toList (.value m.2)) :
    Spells (",".intercalate (renderMembers members)).toList (.members members) := by
  induction members with
  | nil => exact absurd rfl hne
  | cons m members ih =>
      obtain ⟨key, j⟩ := m
      obtain ⟨key, rfl⟩ := Option.isSome_iff_exists.mp (hkeys _ List.mem_cons_self)
      have hm : Spells (quote key ++ ":" ++ render j).toList (.member (some key, j)) :=
        spells_member (h _ List.mem_cons_self)
      cases members with
      | nil =>
          rw [renderMembers, renderMembers, String.intercalate_singleton]
          exact .lastMember hm
      | cons k members =>
          have hrest := ih (List.cons_ne_nil _ _) (fun i hi => hkeys i (List.mem_cons_of_mem _ hi))
            fun i hi => h i (List.mem_cons_of_mem _ hi)
          rw [renderMembers] at hrest ⊢
          rw [renderMembers, String.intercalate_cons_cons, String.toList_append, String.toList_append,
            List.append_assoc]
          exact .member hm hrest

/-- **What is printed is spelled.** -/
theorem spells_render {j : Json} (h : Printable j) : Spells (render j).toList (.value j) := by
  induction h with
  | null => exact .null
  | bool b =>
      cases b with
      | true => exact .yes
      | false => exact .no
  | integer hfits => exact .number (number_integer hfits)
  | string s => exact .string (quoted_quote s)
  | @array items _ ih =>
      cases items with
      | nil => exact .emptyArray (List.forall_mem_nil _)
      | cons item items =>
          have hitems := spells_items (List.cons_ne_nil _ _) ih
          rw [render, String.toList_append, String.toList_append, List.append_assoc]
          exact .array hitems
  | @object members hkeys _ ih =>
      cases members with
      | nil => exact .emptyObject (List.forall_mem_nil _)
      | cons m members =>
          have hmembers := spells_members (List.cons_ne_nil _ _) hkeys ih
          rw [render, String.toList_append, String.toList_append, List.append_assoc]
          exact .object hmembers

/-- A printed value is held by its text. -/
theorem holds_render {j : Json} (h : Printable j) : Holds (render j) j := (spells_render h).unspaced

end RenderPlan.Json
