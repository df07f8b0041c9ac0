/-
# RenderPlan.Proofs.Graph.Trees -- what lies below a task

A task is sound when everything below it exists and none of it lies below itself. Soundness is a
matter of what lies below the task alone: it survives every change of the graph elsewhere
(`SoundAt.of_agree`), and a task is sound as soon as its sub-tasks are and none of them leads back
to it (`soundAt_of_subTasks`).

While a graph grows, ids keep their meaning: `Extends` says that every node is still there.
-/
import RenderPlan.Graph.Check

namespace RenderPlan.Graph

variable {g g' : Graph} {a b c id : TaskId} {n : Node}

/-! ## Reachability -/

theorem Reaches.single (h : g.HasSubTask a b) : g.Reaches a b :=
  .step (.refl a) h

theorem Reaches.trans (hab : g.Reaches a b) (hbc : g.Reaches b c) : g.Reaches a c := by
  induction hbc with
  | refl => exact hab
  | step _ hsub ih => exact .step ih hsub

theorem Reaches.head (hab : g.HasSubTask a b) (hbc : g.Reaches b c) : g.Reaches a c :=
  (Reaches.single hab).trans hbc

/-- A way down is empty or begins with a slot. -/
theorem Reaches.cases_head (h : g.Reaches a b) :
    a = b ∨ ∃ sub, g.HasSubTask a sub ∧ g.Reaches sub b := by
  induction h with
  | refl => exact Or.inl rfl
  | @step b c _ hsub ih =>
      rcases ih with rfl | ⟨sub, hfirst, hrest⟩
      · exact Or.inr ⟨c, hsub, .refl c⟩
      · exact Or.inr ⟨sub, hfirst, .step hrest hsub⟩

theorem hasSubTask_iff (hn : g.get? a = some n) : g.HasSubTask a b ↔ some b ∈ n.subTasks := by
  constructor
  · rintro ⟨m, hm, hsub⟩
    rw [hn] at hm
    cases hm
    exact hsub
  · exact fun hsub => ⟨n, hn, hsub⟩

/-- A way down that a slot closes is a cycle. -/
theorem onCycle_of_reaches (hab : g.Reaches a b) (hba : g.HasSubTask b a) : g.OnCycle a := by
  rcases hab.cases_head with rfl | ⟨sub, hfirst, hrest⟩
  · exact ⟨a, hba, .refl a⟩
  · exact ⟨sub, hfirst, .step hrest hba⟩

/-! ## Sound tasks -/

/-- Everything below the task exists, and none of it lies below itself. -/
def SoundAt (g : Graph) (id : TaskId) : Prop :=
  ∀ b, g.Reaches id b → (g.get? b).isSome ∧ ¬ g.OnCycle b

theorem wellFormed_iff {roots : List TaskId} :
    g.WellFormed roots ↔ ∀ root ∈ roots, g.SoundAt root :=
  Iff.rfl

theorem SoundAt.exists_node (h : g.SoundAt a) : ∃ n, g.get? a = some n :=
  Option.isSome_iff_exists.mp (h a (.refl a)).1

theorem SoundAt.of_reaches (h : g.SoundAt a) (hab : g.Reaches a b) : g.SoundAt b :=
  fun c hbc => h c (hab.trans hbc)

theorem SoundAt.subTask (h : g.SoundAt a) (hab : g.HasSubTask a b) : g.SoundAt b :=
  h.of_reaches (.single hab)

theorem SoundAt.not_reaches (h : g.SoundAt a) (hab : g.HasSubTask a b) : ¬ g.Reaches b a :=
  fun hba => (h a (.refl a)).2 ⟨b, hab, hba⟩

/-- A task is sound if its sub-tasks are sound and do not lead back to it. -/
theorem soundAt_of_subTasks (ha : (g.get? a).isSome)
    (hsub : ∀ b, g.HasSubTask a b → g.SoundAt b ∧ ¬ g.Reaches b a) : g.SoundAt a := by
  intro b hab
  rcases hab.cases_head with rfl | ⟨sub, hfirst, hrest⟩
  · refine ⟨ha, ?_⟩
    rintro ⟨sub, hfirst, hback⟩
    exact (hsub sub hfirst).2 hback
  · exact (hsub sub hfirst).1 b hrest

/-- In a graph whose sub-tasks are all older than their tasks, every task is sound. -/
theorem wellFormed_of_older {roots : List TaskId}
    (holder : ∀ i < g.size, ∀ slot ∈ g.slots ⟨i⟩, ∀ sub ∈ slot, sub.index < i)
    (hroots : ∀ root ∈ roots, root.index < g.size) : g.WellFormed roots := by
  have hsub : ∀ {a b}, g.HasSubTask a b → b.index < a.index ∧ a.index < g.size := by
    rintro a b ⟨n, hn, hmem⟩
    have hlt : a.index < g.size := (Array.getElem?_eq_some_iff.mp hn).1
    have hslots : g.slots a = n.subTasks := by rw [slots, hn]
    exact ⟨holder a.index hlt (some b) (hslots ▸ hmem) b rfl, hlt⟩
  have hreach : ∀ {a b}, g.Reaches a b → b.index ≤ a.index := by
    intro a b h
    induction h with
    | refl => exact Nat.le_refl _
    | step _ hstep ih => exact Nat.le_trans (Nat.le_of_lt (hsub hstep).1) ih
  intro root hroot b hb
  have hlt : b.index < g.size := Nat.lt_of_le_of_lt (hreach hb) (hroots root hroot)
  refine ⟨by simpa [get?, size] using hlt, ?_⟩
  rintro ⟨sub, hfirst, hback⟩
  exact Nat.lt_irrefl _ (Nat.lt_of_le_of_lt (hreach hback) (hsub hfirst).1)

/-! ## Below a task -/

/-- The task `b` lies below `a`, at least one level down. -/
def Below (g : Graph) (a b : TaskId) : Prop := ∃ sub, g.HasSubTask a sub ∧ g.Reaches sub b

theorem Below.trans (hab : g.Below a b) (hbc : g.Below b c) : g.Below a c := by
  obtain ⟨first, hfirst, hrest⟩ := hab
  obtain ⟨next, hnext, hlast⟩ := hbc
  exact ⟨first, hfirst, hrest.trans (.head hnext hlast)⟩

theorem Below.soundAt (hab : g.Below a b) (hs : g.SoundAt a) : g.SoundAt b := by
  obtain ⟨first, hfirst, hrest⟩ := hab
  exact (hs.subTask hfirst).of_reaches hrest

/-- A sound task does not lie below itself. -/
theorem SoundAt.not_below (hs : g.SoundAt a) : ¬ g.Below a a := by
  rintro ⟨first, hfirst, hback⟩
  exact hs.not_reaches hfirst hback

theorem eq_of_index_eq (h : a.index = b.index) : a = b := by
  cases a
  cases b
  exact congrArg TaskId.mk h

/-! ## Changes elsewhere -/

/-- Where two graphs agree on all that lies below a task, the same lies below it in both. -/
theorem reaches_iff_of_agree (h : ∀ b, g.Reaches a b → g'.get? b = g.get? b) :
    g'.Reaches a b ↔ g.Reaches a b := by
  constructor
  · intro hab
    induction hab with
    | refl => exact .refl a
    | step _ hsub ih =>
        obtain ⟨n, hn, hmem⟩ := hsub
        exact .step ih ⟨n, (h _ ih).symm.trans hn, hmem⟩
  · intro hab
    induction hab with
    | refl => exact .refl a
    | step hprev hsub ih =>
        obtain ⟨n, hn, hmem⟩ := hsub
        exact .step ih ⟨n, (h _ hprev).trans hn, hmem⟩

theorem SoundAt.of_agree (hs : g.SoundAt a) (h : ∀ b, g.Reaches a b → g'.get? b = g.get? b) :
    g'.SoundAt a := by
  intro b hab
  have hab' : g.Reaches a b := (reaches_iff_of_agree h).mp hab
  have hbelow : ∀ c, g.Reaches b c → g'.get? c = g.get? c := fun c hbc => h c (hab'.trans hbc)
  refine ⟨(h b hab').symm ▸ (hs b hab').1, ?_⟩
  rintro ⟨sub, ⟨n, hn, hmem⟩, hback⟩
  have hsub : g.HasSubTask b sub := ⟨n, (h b hab').symm.trans hn, hmem⟩
  have hagree : ∀ c, g.Reaches sub c → g'.get? c = g.get? c := fun c hc => hbelow c (.head hsub hc)
  exact (hs b hab').2 ⟨sub, hsub, (reaches_iff_of_agree hagree).mp hback⟩

/-! ## Growth -/

/-- Every node of `g` is in `g'`, unchanged and under the same id. -/
def Extends (g g' : Graph) : Prop := ∀ id n, g.get? id = some n → g'.get? id = some n

theorem Extends.refl (g : Graph) : g.Extends g := fun _ _ h => h

theorem Extends.trans {g'' : Graph} (h : g.Extends g') (h' : g'.Extends g'') : g.Extends g'' :=
  fun id n hn => h' id n (h id n hn)

theorem Extends.insert (g : Graph) (n : Node) : g.Extends (g.insert n) :=
  fun _ _ h => get?_insert_of_get?_eq_some h

/-- What does not exist in the larger graph does not exist in the smaller one. -/
theorem Extends.eq_none (h : g.Extends g') (ha : g'.get? a = none) : g.get? a = none := by
  cases hn : g.get? a with
  | none => rfl
  | some n => rw [h a n hn] at ha; cases ha

theorem Extends.agree (h : g.Extends g') (hs : g.SoundAt a) :
    ∀ b, g.Reaches a b → g'.get? b = g.get? b := by
  intro b hab
  obtain ⟨n, hn⟩ := Option.isSome_iff_exists.mp (hs b hab).1
  rw [hn, h b n hn]

theorem Extends.reaches_iff (h : g.Extends g') (hs : g.SoundAt a) :
    g'.Reaches a b ↔ g.Reaches a b :=
  reaches_iff_of_agree (h.agree hs)

theorem Extends.soundAt (h : g.Extends g') (hs : g.SoundAt a) : g'.SoundAt a :=
  hs.of_agree (h.agree hs)

theorem Extends.hasSubTask_iff (h : g.Extends g') (hs : g.SoundAt a) :
    g'.HasSubTask a b ↔ g.HasSubTask a b := by
  unfold HasSubTask
  rw [h.agree hs a (.refl a)]

/-- What lies below a sound task stays the same while the graph grows. -/
theorem Extends.below_iff (h : g.Extends g') (hs : g.SoundAt a) : g'.Below a b ↔ g.Below a b := by
  constructor
  · rintro ⟨sub, hsub, hrest⟩
    have hsub := (h.hasSubTask_iff hs).mp hsub
    exact ⟨sub, hsub, (h.reaches_iff (hs.subTask hsub)).mp hrest⟩
  · rintro ⟨sub, hsub, hrest⟩
    exact ⟨sub, (h.hasSubTask_iff hs).mpr hsub, (h.reaches_iff (hs.subTask hsub)).mpr hrest⟩

theorem get?_nextId (g : Graph) : g.get? g.nextId = none :=
  Array.getElem?_eq_none (Nat.le_refl _)

/-- Changing the node that was added last is the same as adding the changed node. -/
theorem modify_insert_nextId (g : Graph) (n : Node) (f : Node → Node) :
    (g.insert n).modify g.nextId f = g.insert (f n) := by
  apply congrArg Graph.mk
  apply Array.ext_getElem?
  intro i
  simp only [insert, nextId, size, Array.getElem?_modify, Array.getElem?_push]
  grind

theorem get?_modify_self (h : g.get? id = some n) (f : Node → Node) :
    (g.modify id f).get? id = some (f n) := by
  have hn : g.nodes[id.index]? = some n := h
  simp [get?, modify, Array.getElem?_modify, hn]

theorem get?_modify_of_ne (h : a ≠ id) (f : Node → Node) : (g.modify id f).get? a = g.get? a := by
  have hindex : id.index ≠ a.index := fun heq => h (eq_of_index_eq heq.symm)
  simp [get?, modify, Array.getElem?_modify, hindex]

end RenderPlan.Graph
