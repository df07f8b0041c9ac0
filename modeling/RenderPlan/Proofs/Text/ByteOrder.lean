/-
# RenderPlan.Proofs.Text.ByteOrder -- texts in the order of their bytes

Texts are compared character by character here, and byte by byte where they are stored. The two
orders are one (`lt_iff_bytes_lt`): of two different characters the smaller one has the smaller
encoding, and neither encoding begins the other, so what follows them does not matter.
-/
import Mathlib.Data.List.Lex
import Mathlib.Data.String.Basic

namespace RenderPlan.Text

/-- The bytes of a text. -/
def bytes (s : String) : List UInt8 := s.toByteArray.data.toList

theorem bytes_eq_flatMap (s : String) : bytes s = s.toList.flatMap String.utf8EncodeChar := by
  rw [bytes, ← String.utf8Encode_toList, List.utf8Encode, List.toList_data_toByteArray]

theorem val_lt_of_char (c : Char) : c.val.toNat < 0x110000 := by
  rcases c.valid with h | ⟨_, h⟩
  · omega
  · exact h

/-- The smaller character decides, whatever follows. -/
theorem encode_append_lt {c d : Char} (h : c < d) (l m : List UInt8) :
    String.utf8EncodeChar c ++ l < String.utf8EncodeChar d ++ m := by
  have hval : c.val.toNat < d.val.toNat := UInt32.lt_iff_toNat_lt.mp (Char.lt_def.mp h)
  have hmax : d.val.toNat < 0x110000 := val_lt_of_char d
  simp only [String.utf8EncodeChar]
  generalize c.val.toNat = v at hval ⊢
  generalize d.val.toNat = w at hval hmax ⊢
  -- the digits to the base 64, from the last one on
  have hdigits : ∀ n : Nat, n / 64 / 64 = n / 4096 ∧ n / 4096 / 64 = n / 262144 := fun n =>
    ⟨Nat.div_div_eq_div_mul n 64 64, Nat.div_div_eq_div_mul n 4096 64⟩
  obtain ⟨hv, hv'⟩ := hdigits v
  obtain ⟨hw, hw'⟩ := hdigits w
  clear hdigits
  split_ifs
  all_goals try omega
  all_goals
    simp only [List.cons_append, List.nil_append, List.cons_lt_cons_iff, UInt8.lt_iff_toNat_lt,
      ← UInt8.toNat_inj, UInt8.toNat_ofNat']
    simp (disch := omega) only [Nat.mod_eq_of_lt]
    omega

theorem flatMap_encode_lt {l m : List Char} (h : l < m) :
    l.flatMap String.utf8EncodeChar < m.flatMap String.utf8EncodeChar := by
  induction l generalizing m with
  | nil =>
      cases m with
      | nil => exact absurd h (lt_irrefl _)
      | cons d m =>
          rw [List.flatMap_cons]
          cases henc : String.utf8EncodeChar d with
          | nil => exact absurd henc String.utf8EncodeChar_ne_nil
          | cons b bs => exact List.nil_lt_cons ..
  | cons c l ih =>
      cases m with
      | nil => exact absurd h (List.not_lt_nil _)
      | cons d m =>
          rw [List.flatMap_cons, List.flatMap_cons]
          rcases List.cons_lt_cons_iff.mp h with hlt | ⟨rfl, hlt⟩
          · exact encode_append_lt hlt _ _
          · exact List.append_left_lt (ih hlt)

/-- **Texts are ordered as their bytes are.** -/
theorem lt_iff_bytes_lt {s t : String} : s < t ↔ bytes s < bytes t := by
  have hforward : ∀ {s t : String}, s < t → bytes s < bytes t := by
    intro s t h
    rw [bytes_eq_flatMap, bytes_eq_flatMap]
    exact flatMap_encode_lt (String.lt_iff_toList_lt.mp h)
  refine ⟨hforward, fun h => ?_⟩
  rcases lt_trichotomy s t with hlt | rfl | hgt
  · exact hlt
  · exact absurd h (List.lt_irrefl _)
  · exact absurd h (List.lt_asymm (hforward hgt))

end RenderPlan.Text
