/-
# RenderPlan.Proofs.Json.Trimming -- records with less and with more

Somebody who writes a record by hand leaves out what should stay at its default, writes the rest in any
order, and may add members of other names, from an older or a newer version. `Trims drop full given` says
that `given` is made of the record `full` in this way. Which fields were dropped is told by the names on the
way to them, so each record inside another one has fields of its own.

What is left is an object in which exactly the fields that were not dropped are given (`Trims.fields`).
-/
import RenderPlan.Json.Record
import Mathlib.Data.List.Perm.Basic
import Mathlib.Data.List.Nodup

namespace RenderPlan.Json

/-- Whether a field is dropped, by the names of the fields around it and its own. -/
abbrev Dropped := List String → Bool

namespace Dropped

/-- What is dropped inside a field. -/
def within (drop : Dropped) (key : String) : Dropped := fun path => drop (key :: path)

/-- The field is dropped itself. -/
def here (drop : Dropped) (key : String) : Bool := drop [key]

/-- The names that are left. -/
def keys (drop : Dropped) (names : List String) : List String := names.filter fun key => !drop.here key

/-- Nothing is dropped. -/
def nothing : Dropped := fun _ => false

end Dropped

/-- `given` has the fields of `full` that were not dropped, in any order, and members of other names. What
is not an object stays as it is. -/
inductive Trims : Dropped → Json → Json → Prop where
  | scalar {drop : Dropped} {j : Json} : (∀ members, j ≠ .object members) → Trims drop j j
  | object {drop : Dropped} {full : List (String × Json)} {given others : List (Option String × Json)}
      (inner : String → Json) :
      (∀ m ∈ full, drop.here m.1 = false → Trims (drop.within m.1) m.2 (inner m.1)) →
      (∀ m ∈ others, ∃ key, m.1 = some key ∧ key ∉ full.map Prod.fst) →
      given.Perm ((drop.keys (full.map Prod.fst)).map (fun key => (some key, inner key)) ++ others) →
      Trims drop (.ofMembers full) (.object given)

/-- What is not an object is not trimmed. -/
theorem Trims.eq_of_scalar {drop : Dropped} {j j' : Json} (h : Trims drop j j')
    (hj : ∀ members, j ≠ .object members) : j' = j := by
  cases h with
  | scalar => rfl
  | object => exact absurd rfl (hj _)

theorem ofMembers_injective {members members' : List (String × Json)}
    (h : ofMembers members = ofMembers members') : members = members' := by
  refine List.map_injective_iff.mpr ?_ (object.inj h)
  rintro ⟨key, j⟩ ⟨key', j'⟩ heq
  cases heq
  rfl

/-! ## Fields of trimmed records -/

section Fields

variable {drop : Dropped} {names : List String} {inner : String → Json} {key : String}
  {others : List (Option String × Json)}

theorem valuesOf_perm {members members' : List (Option String × Json)} (h : members.Perm members') :
    (valuesOf key members).Perm (valuesOf key members') :=
  (h.filter _).map _

theorem valuesOf_append (members members' : List (Option String × Json)) :
    valuesOf key (members ++ members') = valuesOf key members ++ valuesOf key members' := by
  rw [valuesOf, List.filter_append, List.map_append]
  rfl

/-- Members of other names have no value for a field. -/
theorem valuesOf_others (hkey : key ∈ names)
    (hothers : ∀ m ∈ others, ∃ key, m.1 = some key ∧ key ∉ names) : valuesOf key others = [] := by
  rw [valuesOf, List.map_eq_nil_iff, List.filter_eq_nil_iff]
  intro m hm heq
  obtain ⟨key', hm', hnot⟩ := hothers m hm
  rw [decide_eq_true_eq, hm', Option.some.injEq] at heq
  exact hnot (heq ▸ hkey)

/-- A field that was kept has its value once. -/
theorem valuesOf_kept (hnodup : names.Nodup) (hkey : key ∈ names) :
    valuesOf key ((drop.keys names).map fun key => (some key, inner key)) =
      if drop.here key then [] else [inner key] := by
  have hvalues : valuesOf key ((drop.keys names).map fun key => (some key, inner key)) =
      ((drop.keys names).filter (· == key)).map inner := by
    simp [valuesOf, List.filter_map, Function.comp_def, beq_eq_decide]
  rw [hvalues, List.filter_beq]
  split
  · next hdrop =>
      have hcount : (drop.keys names).count key = 0 := by
        rw [List.count_eq_zero, Dropped.keys, List.mem_filter, hdrop]
        exact fun h => Bool.false_ne_true h.2
      rw [hcount]
      rfl
  · next hdrop =>
      have hmem : key ∈ drop.keys names := by
        rw [Bool.not_eq_true] at hdrop
        rw [Dropped.keys, List.mem_filter, hdrop]
        exact ⟨hkey, rfl⟩
      have hcount : (drop.keys names).count key = 1 := List.count_eq_one_of_mem (hnodup.filter _) hmem
      rw [hcount]
      rfl

theorem single?_trimmed {given : List (Option String × Json)} (hnodup : names.Nodup) (hkey : key ∈ names)
    (hothers : ∀ m ∈ others, ∃ key, m.1 = some key ∧ key ∉ names)
    (hgiven : given.Perm ((drop.keys names).map (fun key => (some key, inner key)) ++ others)) :
    single? (valuesOf key given) = some (if drop.here key then none else some (inner key)) := by
  have hperm : (valuesOf key given).Perm _ := valuesOf_perm hgiven
  rw [valuesOf_append, valuesOf_others hkey hothers, List.append_nil, valuesOf_kept hnodup hkey] at hperm
  split at hperm
  · next hdrop =>
      rw [List.perm_nil.mp hperm, if_pos hdrop]
      rfl
  · next hdrop =>
      rw [List.perm_singleton.mp hperm, if_neg hdrop]
      rfl

end Fields

/-- **What is left of a record is an object with the fields that were kept.** The others are absent. -/
theorem Trims.fields {drop : Dropped} {full : List (String × Json)} {j : Json}
    (h : Trims drop (.ofMembers full) j) (hnodup : (full.map Prod.fst).Nodup) :
    ∃ (members : List (Option String × Json)) (inner : String → Json), j = .object members ∧
      (∀ m ∈ members, m.1.isSome) ∧
      (∀ m ∈ full, drop.here m.1 = false → Trims (drop.within m.1) m.2 (inner m.1)) ∧
      ∀ key ∈ full.map Prod.fst, single? (valuesOf key members) =
        some (if drop.here key then none else some (inner key)) := by
  generalize hfull : Json.ofMembers full = f at h
  cases h with
  | scalar hscalar => exact absurd hfull.symm (hscalar _)
  | @object _ full' given others inner hinner hothers hgiven =>
      obtain rfl := ofMembers_injective hfull
      refine ⟨given, inner, rfl, ?_, hinner, fun key hkey => single?_trimmed hnodup hkey hothers hgiven⟩
      intro m hm
      rcases List.mem_append.mp (hgiven.mem_iff.mp hm) with hm | hm
      · obtain ⟨key, -, rfl⟩ := List.mem_map.mp hm
        rfl
      · obtain ⟨key, hkey, -⟩ := hothers m hm
        rw [hkey]
        rfl

theorem lookup_of_mem {full : List (String × Json)} (hnodup : (full.map Prod.fst).Nodup)
    {m : String × Json} (hm : m ∈ full) : full.lookup m.1 = some m.2 := by
  induction full with
  | nil => cases hm
  | cons m' full ih =>
      obtain ⟨key, j⟩ := m'
      rw [List.map_cons, List.nodup_cons] at hnodup
      rcases List.mem_cons.mp hm with rfl | hrest
      · exact List.lookup_cons_self
      · have hne : (m.1 == key) = false := by
          rw [beq_eq_false_iff_ne]
          rintro rfl
          exact hnodup.1 (List.mem_map.mpr ⟨m, hrest, rfl⟩)
        rw [List.lookup_cons, hne]
        exact ih hnodup.2 hrest

/-- A record is what is left of it if nothing is dropped. -/
theorem trims_nothing {full : List (String × Json)} (hnodup : (full.map Prod.fst).Nodup)
    (h : ∀ m ∈ full, Trims .nothing m.2 m.2) : Trims .nothing (.ofMembers full) (.ofMembers full) := by
  have hlookup : ∀ m ∈ full, (full.lookup m.1).getD .null = m.2 := by
    intro m hm
    rw [lookup_of_mem hnodup hm, Option.getD_some]
  have hkeys : ∀ names, Dropped.nothing.keys names = names := fun names => List.filter_true names
  have hothers : ∀ m ∈ ([] : List (Option String × Json)),
      ∃ key, m.1 = some key ∧ key ∉ full.map Prod.fst := List.forall_mem_nil _
  refine .object (fun key => (full.lookup key).getD .null) ?_ hothers ?_
  · intro m hm _
    rw [hlookup m hm]
    exact h m hm
  · rw [List.append_nil, hkeys, List.map_map]
    refine List.Perm.of_eq (List.map_congr_left fun m hm => ?_)
    exact congrArg (some m.1, ·) (hlookup m hm).symm

end RenderPlan.Json
