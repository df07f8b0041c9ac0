/-
# RenderPlan.Proofs.Hazard.Conflicts -- the conflict test decides the conflict relation

`Graph.conflict` looks nodes up as it goes and may meet a fault. Where every sub-task of the two
tasks exists it meets none (`exists_conflict`), and whenever it answers, it answers exactly
`Graph.Conflicts` (`conflict_iff`). The relation does not care which of the two tasks comes first,
and a task without target and without slots is in no conflict.

The relation is stated with the test on rectangles. In terms of the pixels that tasks write and read it
is that of data races, with no conflict too many and none too few (`conflicts_iff_exists_race`).
-/
import RenderPlan.Hazard.Plan
import RenderPlan.Proofs.Geometry.Pixels

namespace RenderPlan

/-! ## Overlap -/

/-- A pixel of a buffer, which is known by its serial number. -/
structure Cell where
  serial : Nat
  pixel : Pixel

namespace Node

/-- The task writes the cell: it lies in the rectangle of its target. -/
def Writes (n : Node) (c : Cell) : Prop :=
  ∃ target, n.target = some target ∧ target.serial = c.serial ∧ c.pixel ∈ n.rect

theorem overlaps_iff {a b : Node} :
    a.Overlaps b ↔ ∃ s t, a.target = some s ∧ b.target = some t ∧
      s.serial = t.serial ∧ a.rect.Intersects b.rect := by
  unfold Overlaps
  cases ha : a.target with
  | none => simp
  | some s =>
      cases hb : b.target with
      | none => simp
      | some t => simp

/-- Two tasks overlap if and only if some cell is written by both. -/
theorem overlaps_iff_exists_writes {a b : Node} :
    a.Overlaps b ↔ ∃ c, a.Writes c ∧ b.Writes c := by
  rw [overlaps_iff]
  constructor
  · rintro ⟨s, t, hs, ht, hst, hrects⟩
    obtain ⟨p, hpa, hpb⟩ := Rect.intersects_iff_exists_pixel.mp hrects
    exact ⟨⟨s.serial, p⟩, ⟨s, hs, rfl, hpa⟩, ⟨t, ht, hst.symm, hpb⟩⟩
  · rintro ⟨c, ⟨s, hs, hsc, hpa⟩, t, ht, htc, hpb⟩
    exact ⟨s, t, hs, ht, hsc.trans htc.symm,
      Rect.intersects_iff_exists_pixel.mpr ⟨c.pixel, hpa, hpb⟩⟩

theorem Overlaps.symm {a b : Node} (h : a.Overlaps b) : b.Overlaps a := by
  obtain ⟨s, t, hs, ht, hst, hr⟩ := overlaps_iff.mp h
  exact overlaps_iff.mpr ⟨t, s, ht, hs, hst.symm, hr.symm⟩

theorem not_overlaps_of_target_none {a b : Node} (h : a.target = none) : ¬ a.Overlaps b := by
  intro hab
  obtain ⟨s, _, hs, _⟩ := overlaps_iff.mp hab
  rw [h] at hs
  cases hs

end Node

namespace Graph

variable {g : Graph}

/-! ## What has to exist -/

/-- Every sub-task of the node exists. -/
def Complete (g : Graph) (n : Node) : Prop := ∀ id ∈ n.children, (g.get? id).isSome

/-- Every entry of the list exists, and so does every sub-task of an entry. -/
def Resolves (g : Graph) (list : List TaskId) : Prop :=
  ∀ id ∈ list, ∃ n, g.get? id = some n ∧ g.Complete n

instance (g : Graph) (n : Node) : Decidable (g.Complete n) :=
  inferInstanceAs (Decidable (∀ id ∈ n.children, _))

instance (g : Graph) (list : List TaskId) : Decidable (g.Resolves list) :=
  decidable_of_iff (∀ id ∈ list, (g.get? id).any (fun n => g.Complete n) = true) <| by
    simp only [Resolves, Option.any_eq_true, decide_eq_true_eq]

theorem fetch_of_get? {id : TaskId} {n : Node} (h : g.get? id = some n) : g.fetch id = .ok n := by
  simp only [fetch, h]

/-! ## The relation -/

theorem Conflicts.symm {a b : Node} (h : g.Conflicts a b) : g.Conflicts b a := by
  rcases h with h | ⟨r, hr, h⟩ | ⟨r, hr, h⟩
  · exact Or.inl h.symm
  · exact Or.inr (Or.inr ⟨r, hr, h.symm⟩)
  · exact Or.inr (Or.inl ⟨r, hr, h.symm⟩)

/-- The task reads the cell: one of its sub-tasks writes it. -/
def ReadsCell (g : Graph) (n : Node) (c : Cell) : Prop := ∃ r, g.Reads n r ∧ r.Writes c

/-- **Conflicts are data races.** Two tasks conflict if and only if there is a cell that one of them
writes and the other one writes or reads. -/
theorem conflicts_iff_exists_race {a b : Node} :
    g.Conflicts a b ↔ ∃ c, (b.Writes c ∧ a.Writes c) ∨ (g.ReadsCell b c ∧ a.Writes c) ∨
      (b.Writes c ∧ g.ReadsCell a c) := by
  simp only [Conflicts, Node.overlaps_iff_exists_writes]
  constructor
  · rintro (⟨c, hb, ha⟩ | ⟨r, hr, c, hrc, ha⟩ | ⟨r, hr, c, hb, hrc⟩)
    · exact ⟨c, .inl ⟨hb, ha⟩⟩
    · exact ⟨c, .inr (.inl ⟨⟨r, hr, hrc⟩, ha⟩)⟩
    · exact ⟨c, .inr (.inr ⟨hb, ⟨r, hr, hrc⟩⟩)⟩
  · rintro ⟨c, ⟨hb, ha⟩ | ⟨⟨r, hr, hrc⟩, ha⟩ | ⟨hb, ⟨r, hr, hrc⟩⟩⟩
    · exact .inl ⟨c, hb, ha⟩
    · exact .inr (.inl ⟨r, hr, c, hrc, ha⟩)
    · exact .inr (.inr ⟨r, hr, c, hb, hrc⟩)

/-- A task that writes nothing and has no slots neither overlaps nor reads anything. -/
theorem not_conflicts_of_idle {a b : Node} (ht : b.target = none) (hs : b.subTasks = []) :
    ¬ g.Conflicts a b := by
  rintro (h | ⟨r, ⟨id, hid, _⟩, _⟩ | ⟨r, _, h⟩)
  · exact Node.not_overlaps_of_target_none ht h
  · simp [Node.children, hs] at hid
  · exact Node.not_overlaps_of_target_none ht h

/-! ## The test -/

theorem anyNode_cons (test : Node → Bool) {id : TaskId} {n : Node} (hn : g.get? id = some n)
    (ids : List TaskId) :
    g.anyNode test (id :: ids) = if test n then .ok true else g.anyNode test ids := by
  simp only [anyNode, fetch_of_get? hn]
  rfl

/-- Nodes that exist are all looked at, up to the first that passes. -/
theorem exists_anyNode (test : Node → Bool) {ids : List TaskId}
    (h : ∀ id ∈ ids, (g.get? id).isSome) : ∃ b, g.anyNode test ids = .ok b := by
  induction ids with
  | nil => exact ⟨false, rfl⟩
  | cons id ids ih =>
      obtain ⟨n, hn⟩ := Option.isSome_iff_exists.mp (h id (by simp))
      rw [anyNode_cons test hn]
      split
      · exact ⟨true, rfl⟩
      · exact ih fun i hi => h i (List.mem_cons_of_mem id hi)

/-- An answer tells whether one of the nodes passes. -/
theorem anyNode_iff {test : Node → Bool} {ids : List TaskId} {b : Bool}
    (h : g.anyNode test ids = .ok b) :
    b = true ↔ ∃ n, (∃ id ∈ ids, g.get? id = some n) ∧ test n = true := by
  induction ids with
  | nil =>
      cases h
      simp
  | cons id ids ih =>
      cases hn : g.get? id with
      | none =>
          simp only [anyNode, fetch, hn] at h
          cases h
      | some n =>
          rw [anyNode_cons test hn] at h
          by_cases ht : test n = true
          · rw [if_pos ht] at h
            cases h
            exact iff_of_true rfl ⟨n, ⟨id, by simp, hn⟩, ht⟩
          · rw [if_neg ht] at h
            refine (ih h).trans ⟨?_, ?_⟩
            · rintro ⟨m, ⟨i, hi, hm⟩, hmt⟩
              exact ⟨m, ⟨i, List.mem_cons_of_mem id hi, hm⟩, hmt⟩
            · rintro ⟨m, ⟨i, hi, hm⟩, hmt⟩
              rcases List.mem_cons.mp hi with rfl | hi
              · rw [hn] at hm
                cases hm
                exact absurd hmt ht
              · exact ⟨m, ⟨i, hi, hm⟩, hmt⟩

/-- Between complete tasks the test meets no fault. -/
theorem exists_conflict {a b : Node} (ha : g.Complete a) (hb : g.Complete b) :
    ∃ c, g.conflict a b = .ok c := by
  obtain ⟨c₁, hc₁⟩ := exists_anyNode (fun r => r.Overlaps a) hb
  obtain ⟨c₂, hc₂⟩ := exists_anyNode (fun r => b.Overlaps r) ha
  simp only [conflict, hc₁, hc₂]
  by_cases hw : b.Overlaps a
  · rw [if_pos hw]
    exact ⟨true, rfl⟩
  · rw [if_neg hw]
    cases c₁ with
    | true => exact ⟨true, rfl⟩
    | false => exact ⟨c₂, rfl⟩

/-- An answer decides the relation, also where some sub-task does not exist that the test did not
come to. -/
theorem conflict_iff {a b : Node} {c : Bool} (h : g.conflict a b = .ok c) :
    c = true ↔ g.Conflicts a b := by
  unfold conflict at h
  by_cases hw : b.Overlaps a
  · rw [if_pos hw] at h
    cases h
    exact iff_of_true rfl (Or.inl hw)
  rw [if_neg hw] at h
  cases hreads : g.anyNode (fun r => r.Overlaps a) b.children with
  | error f =>
      rw [hreads] at h
      cases h
  | ok reads =>
      rw [hreads] at h
      have hlater : reads = true ↔ ∃ r, g.Reads b r ∧ r.Overlaps a := by
        simpa [Reads] using anyNode_iff hreads
      cases reads with
      | true =>
          cases h
          exact iff_of_true rfl (Or.inr (Or.inl (hlater.mp rfl)))
      | false =>
          have hearlier : c = true ↔ ∃ r, g.Reads a r ∧ b.Overlaps r := by
            have hrest := anyNode_iff (show g.anyNode _ a.children = .ok c from h)
            simpa [Reads] using hrest
          have hnone : ¬ ∃ r, g.Reads b r ∧ r.Overlaps a := fun hr => nomatch hlater.mpr hr
          simp only [Conflicts, hw, hnone, false_or]
          exact hearlier

end Graph

end RenderPlan
