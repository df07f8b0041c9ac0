/-
# RenderPlan.Proofs.Category.Membership -- masks as sets

`c ∈ m` says that the bit of the category `c` is set, and the operations on masks act on membership
as they do on sets. Masks may have bits that name no category, so two masks with the same members
need not be equal, and a mask without members need not be empty.
-/
import RenderPlan.Category.Mask

namespace RenderPlan

variable {a b : Mask} {c d : Category}

theorem Category.index_injective (h : c.index = d.index) : c = d := by
  have hsome := congrArg ofIndex? h
  rw [ofIndex?_index, ofIndex?_index] at hsome
  exact Option.some.inj hsome

theorem Category.exists_index {i : Nat} (h : i < count) : ∃ c : Category, c.index = i := by
  match i, h with
  | 0, _ => exact ⟨common, rfl⟩
  | 1, _ => exact ⟨preSpecialize, rfl⟩
  | 2, _ => exact ⟨specialize, rfl⟩
  | 3, _ => exact ⟨postSpecialize, rfl⟩
  | 4, _ => exact ⟨convert, rfl⟩
  | 5, _ => exact ⟨linear, rfl⟩
  | 6, _ => exact ⟨list, rfl⟩

namespace Mask

theorem toBitVec_mask (c : Category) : c.mask.bits.toBitVec = BitVec.twoPow 32 c.index := by
  cases c <;> rfl

theorem index_lt_width (c : Category) : c.index < 32 := by
  cases c <;> decide

/-- A category is in a mask if its bit is set. -/
theorem mem_iff_getLsbD : c ∈ a ↔ a.bits.toBitVec.getLsbD c.index = true := by
  have hmem : c ∈ a ↔ a ∩ c.mask = c.mask := decide_eq_true_iff
  have hbits : a ∩ c.mask = c.mask ↔
      a.bits.toBitVec &&& BitVec.twoPow 32 c.index = BitVec.twoPow 32 c.index := by
    rw [← toBitVec_mask, ← UInt32.toBitVec_and, UInt32.toBitVec_inj]
    exact ⟨congrArg Mask.bits, fun h => congrArg Mask.mk h⟩
  rw [hmem, hbits, BitVec.and_twoPow]
  cases a.bits.toBitVec.getLsbD c.index with
  | true => simp
  | false =>
      simp only [Bool.false_eq_true, if_false, iff_false]
      intro hzero
      have hbit := congrArg (fun v => v.getLsbD c.index) hzero
      simp [index_lt_width] at hbit

@[simp] theorem mem_union : c ∈ a ∪ b ↔ c ∈ a ∨ c ∈ b := by
  simp only [mem_iff_getLsbD, bits_union, UInt32.toBitVec_or, BitVec.getLsbD_or, Bool.or_eq_true]

@[simp] theorem mem_inter : c ∈ a ∩ b ↔ c ∈ a ∧ c ∈ b := by
  simp only [mem_iff_getLsbD, bits_inter, UInt32.toBitVec_and, BitVec.getLsbD_and,
    Bool.and_eq_true]

@[simp] theorem mem_sdiff : c ∈ a \ b ↔ c ∈ a ∧ c ∉ b := by
  simp [mem_iff_getLsbD, bits_sdiff, index_lt_width]

@[simp] theorem union_self : a ∪ a = a := congrArg Mask.mk (UInt32.or_self ..)

@[simp] theorem union_empty : a ∪ ∅ = a := congrArg Mask.mk (UInt32.or_zero ..)

@[simp] theorem empty_union : ∅ ∪ a = a := congrArg Mask.mk (UInt32.zero_or ..)

@[simp] theorem notMem_empty : c ∉ (∅ : Mask) := by
  cases c <;> decide

@[simp] theorem mem_full : c ∈ full := by
  cases c <;> decide

/-- A mask that brings in no other bits changes nothing. -/
theorem union_eq_left (h : (b \ a).isEmpty = true) : a ∪ b = a := by
  have hzero : b.bits &&& ~~~a.bits = 0 := of_decide_eq_true h
  refine congrArg mk (UInt32.toBitVec_inj.mp ?_)
  apply BitVec.eq_of_getLsbD_eq
  intro i hi
  have hbit := congrArg (fun v => v.toBitVec.getLsbD i) hzero
  simp only [UInt32.toBitVec_and, UInt32.toBitVec_not, BitVec.getLsbD_and, BitVec.getLsbD_not,
    UInt32.toBitVec_or, BitVec.getLsbD_or] at hbit ⊢
  simp [hi] at hbit
  grind

theorem mem_foldl_union {α : Type} {f : α → Mask} {l : List α} {acc : Mask} :
    c ∈ l.foldl (fun acc a => acc ∪ f a) acc ↔ c ∈ acc ∨ ∃ a ∈ l, c ∈ f a := by
  induction l generalizing acc with
  | nil => simp
  | cons a l ih => simp [ih, or_assoc]

theorem notMem_of_isEmpty (h : a.isEmpty) : c ∉ a := by
  have hzero : a = ∅ := congrArg Mask.mk (of_decide_eq_true h)
  rw [hzero]
  exact notMem_empty

/-- Masks with a common member intersect. -/
theorem intersects_of_mem (ha : c ∈ a) (hb : c ∈ b) : a.intersects b = true := by
  cases h : (a ∩ b).isEmpty with
  | false => simp [intersects, h]
  | true => exact absurd (mem_inter.mpr ⟨ha, hb⟩) (notMem_of_isEmpty h)

theorem notMem_of_not_intersects (h : a.intersects b = false) (hb : c ∈ b) : c ∉ a := by
  intro ha
  rw [intersects_of_mem ha hb] at h
  cases h

/-! ## Strict masks -/

theorem isStrict_full : full.isStrict = true := by
  decide

theorem full_inter_of_isStrict (ha : a.isStrict = true) : full.bits &&& a.bits = a.bits :=
  congrArg bits (of_decide_eq_true ha : full ∩ a = a)

theorem isStrict_inter (ha : a.isStrict = true) : (a ∩ b).isStrict = true := by
  refine decide_eq_true (congrArg mk ?_ : full ∩ (a ∩ b) = a ∩ b)
  rw [bits_inter, ← UInt32.and_assoc, full_inter_of_isStrict ha]

theorem isStrict_inter_right (hb : b.isStrict = true) : (a ∩ b).isStrict = true := by
  have hcomm : a ∩ b = b ∩ a := congrArg mk (UInt32.and_comm ..)
  rw [hcomm]
  exact isStrict_inter hb

theorem isStrict_sdiff (ha : a.isStrict = true) : (a \ b).isStrict = true := by
  refine decide_eq_true (congrArg mk ?_ : full ∩ (a \ b) = a \ b)
  rw [bits_sdiff, ← UInt32.and_assoc, full_inter_of_isStrict ha]

theorem isStrict_empty : (∅ : Mask).isStrict = true := by
  decide

theorem isStrict_union (ha : a.isStrict = true) (hb : b.isStrict = true) :
    (a ∪ b).isStrict = true := by
  refine decide_eq_true (congrArg mk ?_ : full ∩ (a ∪ b) = a ∪ b)
  apply UInt32.toBitVec_inj.mp
  apply BitVec.eq_of_getLsbD_eq
  intro i _
  have hbitA := congrArg (fun v => v.toBitVec.getLsbD i) (full_inter_of_isStrict ha)
  have hbitB := congrArg (fun v => v.toBitVec.getLsbD i) (full_inter_of_isStrict hb)
  simp only [bits_union, UInt32.toBitVec_and, UInt32.toBitVec_or, BitVec.getLsbD_and,
    BitVec.getLsbD_or] at hbitA hbitB ⊢
  grind

theorem isStrict_iff_getLsbD : a.isStrict = true ↔
    ∀ i : Nat, a.bits.toBitVec.getLsbD i = true → full.bits.toBitVec.getLsbD i = true := by
  constructor
  · intro h i hi
    rw [← full_inter_of_isStrict h, UInt32.toBitVec_and, BitVec.getLsbD_and,
      Bool.and_eq_true] at hi
    exact hi.1
  · intro h
    refine decide_eq_true (congrArg mk (UInt32.toBitVec_inj.mp ?_) : full ∩ a = a)
    refine BitVec.eq_of_getLsbD_eq fun i _ => ?_
    rw [UInt32.toBitVec_and, BitVec.getLsbD_and, Bool.and_eq_right_iff_imp]
    exact h i

theorem isStrict_union_iff :
    (a ∪ b).isStrict = true ↔ a.isStrict = true ∧ b.isStrict = true := by
  refine ⟨fun h => ?_, fun h => isStrict_union h.1 h.2⟩
  simp only [isStrict_iff_getLsbD, bits_union, UInt32.toBitVec_or, BitVec.getLsbD_or,
    Bool.or_eq_true] at h ⊢
  exact ⟨fun i hi => h i (Or.inl hi), fun i hi => h i (Or.inr hi)⟩

/-- Taking categories out of a mask does not make it strict. -/
theorem isStrict_sdiff_iff (hb : b.isStrict = true) :
    (a \ b).isStrict = true ↔ a.isStrict = true := by
  refine ⟨fun h => ?_, isStrict_sdiff⟩
  simp only [isStrict_iff_getLsbD, bits_sdiff, UInt32.toBitVec_and, UInt32.toBitVec_not,
    BitVec.getLsbD_and, BitVec.getLsbD_not, Bool.and_eq_true] at h hb ⊢
  intro i hi
  by_cases hout : b.bits.toBitVec.getLsbD i = true
  · exact hb i hout
  · exact h i ⟨hi, by simpa [hout] using BitVec.lt_of_getLsbD hi⟩

theorem isStrict_mask (c : Category) : c.mask.isStrict = true := by
  cases c <;> decide

theorem isStrict_below (c : Category) : c.below.isStrict = true := by
  cases c <;> decide

/-! ### Truncated masks -/

theorem truncate_eq_self (ha : a.isStrict = true) : a.truncate = a := by
  refine congrArg mk ?_
  rw [UInt32.and_comm, full_inter_of_isStrict ha]

theorem isStrict_truncate : a.truncate.isStrict = true :=
  isStrict_inter_right isStrict_full

@[simp] theorem truncate_truncate : a.truncate.truncate = a.truncate :=
  truncate_eq_self isStrict_truncate

@[simp] theorem truncate_empty : (∅ : Mask).truncate = ∅ := truncate_eq_self isStrict_empty

theorem isStrict_of_isEmpty (h : a.isEmpty = true) : a.isStrict = true := by
  have hzero : a = ∅ := congrArg mk (of_decide_eq_true h)
  rw [hzero]
  exact isStrict_empty

theorem truncate_union : (a ∪ b).truncate = a.truncate ∪ b.truncate :=
  congrArg mk (UInt32.toBitVec_inj.mp BitVec.and_or_distrib_right)

theorem truncate_sdiff : (a \ b).truncate = a.truncate \ b := by
  refine congrArg mk ?_
  rw [bits_sdiff, truncate, bits_inter, UInt32.and_assoc, UInt32.and_assoc,
    UInt32.and_comm full.bits]

@[simp] theorem mem_truncate : c ∈ a.truncate ↔ c ∈ a := by
  simp [truncate]

/-- A strict mask does not see the other bits. -/
theorem truncate_inter_of_isStrict (hb : b.isStrict = true) : a.truncate ∩ b = a ∩ b := by
  refine congrArg mk ?_
  rw [truncate, bits_inter, UInt32.and_assoc, full_inter_of_isStrict hb]

theorem truncate_intersects_of_isStrict (hb : b.isStrict = true) :
    a.truncate.intersects b = a.intersects b := by
  unfold intersects
  rw [truncate_inter_of_isStrict hb]

/-! ### Strict masks and their categories -/

/-- A strict mask that is not empty has a category. -/
theorem exists_mem_of_isStrict (ha : a.isStrict = true) (h : a.isEmpty = false) : ∃ c, c ∈ a := by
  by_cases hall : ∃ c, c ∈ a
  · exact hall
  · exfalso
    have hzero : a.bits.toBitVec = 0#32 := by
      apply BitVec.eq_of_getLsbD_eq
      intro i _
      rw [BitVec.getLsbD_zero]
      by_cases hi : i < Category.count
      · obtain ⟨c, rfl⟩ := Category.exists_index hi
        exact Bool.eq_false_iff.mpr fun hbit => hall ⟨c, mem_iff_getLsbD.mpr hbit⟩
      · have hbit : full.bits.toBitVec.getLsbD i = false := by
          have hlt : 127 < 2 ^ i := Nat.lt_of_lt_of_le (by decide : 127 < 2 ^ 7)
            (Nat.pow_le_pow_right (by decide) (Nat.le_of_not_lt hi))
          change (127#32).getLsbD i = false
          simp [BitVec.getLsbD_ofNat, Nat.testBit_lt_two_pow hlt]
        rw [← full_inter_of_isStrict ha, UInt32.toBitVec_and, BitVec.getLsbD_and, hbit]
        rfl
    have hempty : a.isEmpty = true := decide_eq_true (UInt32.toBitVec_inj.mp hzero)
    rw [h] at hempty
    cases hempty

/-- Masks of which one is strict intersect in a category. -/
theorem exists_mem_of_intersects (ha : a.isStrict = true) (h : a.intersects b = true) :
    ∃ c, c ∈ a ∧ c ∈ b := by
  obtain ⟨c, hc⟩ := exists_mem_of_isStrict (isStrict_inter ha) (by simpa [intersects] using h)
  exact ⟨c, mem_inter.mp hc⟩

/-- The empty mask intersects nothing. -/
theorem not_intersects_empty : ¬ (∅ : Mask).intersects a = true := by
  intro h
  obtain ⟨c, hc, _⟩ := exists_mem_of_intersects isStrict_empty h
  exact notMem_empty hc

/-- Nothing intersects the empty mask. -/
theorem intersects_empty (a : Mask) : a.intersects ∅ = false := by
  show (!decide (a.bits &&& 0 = 0)) = false
  simp

end Mask

namespace Category

@[simp] theorem mem_mask : c ∈ d.mask ↔ c = d := by
  cases c <;> cases d <;> decide

@[simp] theorem mem_below : c ∈ d.below ↔ c < d := by
  cases c <;> cases d <;> decide

end Category

end RenderPlan
