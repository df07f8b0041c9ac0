/-
# RenderPlan.Proofs.Graph.Unfolding -- the trees below a list, written out

`Graph.unfold` writes out what lies below a slot as a `Tree`: a node that can be reached in several
ways stands there several times. Everything that walks over sound trees goes through their unfolding,
so what a walk does is said about trees, by induction on them.

The unfolding goes down at most as many levels as the graph has nodes, and one more for the sub-tasks
of the last one. On the way down to a place of a sound tree the nodes are all distinct (`Above`), for a
node that stood twice on the way would lie below itself. So the levels suffice, and since all the nodes
exist, nothing else can go wrong (`exists_trees`).
-/
import RenderPlan.Graph.Walk
import RenderPlan.Proofs.Graph.Trees
import Mathlib.Data.List.Nodup
import Mathlib.Data.List.Perm.Subperm

namespace RenderPlan

/-! ## Trees -/

/-- What holds of a hole, and of a node as soon as it holds of all its slots, holds of every tree. -/
theorem Tree.induction {motive : Tree → Prop} (hole : motive .hole)
    (node : ∀ id slots, (∀ t ∈ slots, motive t) → motive (.node id slots)) : ∀ t, motive t :=
  Tree.rec (motive_2 := fun slots => ∀ t ∈ slots, motive t) hole node (List.forall_mem_nil _)
    fun _ _ hfirst hrest => List.forall_mem_cons.mpr ⟨hfirst, hrest⟩

namespace Graph

variable {g : Graph} {id sub : TaskId} {above : List TaskId} {depth : Nat}

/-! ## The way down -/

/-- These are distinct nodes of the graph, and the place lies below each of them. -/
structure Above (g : Graph) (above : List TaskId) (id : TaskId) : Prop where
  nodup : above.Nodup
  exist : ∀ a ∈ above, (g.get? a).isSome
  leads : ∀ a ∈ above, g.Below a id

theorem above_nil (id : TaskId) : g.Above [] id where
  nodup := List.nodup_nil
  exist := nofun
  leads := nofun

/-- One level further down, the node that was left stands above as well. -/
theorem Above.cons (h : g.Above above id) (hs : g.SoundAt id) (hsub : g.HasSubTask id sub) :
    g.Above (id :: above) sub where
  nodup := by
    refine List.nodup_cons.mpr ⟨?_, h.nodup⟩
    intro hmem
    exact hs.not_below (h.leads id hmem)
  exist := by
    refine List.forall_mem_cons.mpr ⟨?_, h.exist⟩
    exact (hs id (.refl id)).1
  leads := by
    refine List.forall_mem_cons.mpr ⟨⟨sub, hsub, .refl sub⟩, ?_⟩
    intro a ha
    exact (h.leads a ha).trans ⟨sub, hsub, .refl sub⟩

/-- There are no more of them than nodes. -/
theorem Above.length_le (h : g.Above above id) : above.length ≤ g.size := by
  have hsubset : above.map TaskId.index ⊆ List.range g.size := by
    intro i hi
    obtain ⟨a, ha, rfl⟩ := List.mem_map.mp hi
    have hexists := h.exist a ha
    simp only [get?, isSome_getElem?] at hexists
    exact List.mem_range.mpr hexists
  have hnodup := List.Nodup.map (fun _ _ => eq_of_index_eq) h.nodup
  have hle := (List.subperm_of_subset hnodup hsubset).length_le
  rwa [List.length_map, List.length_range] at hle

/-! ## Unfoldings -/

/-- A sequence of two steps goes well if both do. -/
theorem bind_eq_ok_iff {α β ε : Type} {x : Except ε α} {f : α → Except ε β} {b : β} :
    (x >>= f) = .ok b ↔ ∃ a, x = .ok a ∧ f a = .ok b := by
  cases x with
  | error e => exact ⟨nofun, nofun⟩
  | ok a => exact ⟨fun h => ⟨a, rfl, h⟩, fun ⟨_, ha, h⟩ => Except.ok.inj ha ▸ h⟩

theorem mapM_eq_ok_iff {α β ε : Type} {f : α → Except ε β} {l : List α} {bs : List β} :
    l.mapM f = .ok bs ↔ List.Forall₂ (fun a b => f a = .ok b) l bs := by
  induction l generalizing bs with
  | nil =>
      rw [List.mapM_nil, List.forall₂_nil_left_iff]
      exact ⟨fun h => (Except.ok.inj h).symm, fun h => h ▸ rfl⟩
  | cons a l ih =>
      rw [List.mapM_cons, List.forall₂_cons_left_iff, bind_eq_ok_iff]
      constructor
      · rintro ⟨b, hb, hbs⟩
        obtain ⟨rest, hrest, heq⟩ := bind_eq_ok_iff.mp hbs
        exact ⟨b, rest, hb, ih.mp hrest, (Except.ok.inj heq).symm⟩
      · rintro ⟨b, rest, hb, hrest, rfl⟩
        exact ⟨b, hb, bind_eq_ok_iff.mpr ⟨rest, ih.mpr hrest, rfl⟩⟩

/-- What is in the result comes from an entry. -/
theorem exists_of_mem_result {α β ε : Type} {f : α → Except ε β} {l : List α} {bs : List β}
    (h : l.mapM f = .ok bs) {b : β} (hb : b ∈ bs) : ∃ a ∈ l, f a = .ok b := by
  induction mapM_eq_ok_iff.mp h with
  | nil => cases hb
  | @cons a c l bs hfirst hrest ih =>
      rcases List.mem_cons.mp hb with rfl | hb
      · exact ⟨a, List.mem_cons_self .., hfirst⟩
      · obtain ⟨a', ha', hf⟩ := ih (mapM_eq_ok_iff.mpr hrest) hb
        exact ⟨a', List.mem_cons_of_mem _ ha', hf⟩

/-- Every entry has its part in the result. -/
theorem exists_result_of_mem {α β ε : Type} {f : α → Except ε β} {l : List α} {bs : List β}
    (h : l.mapM f = .ok bs) {a : α} (ha : a ∈ l) : ∃ b ∈ bs, f a = .ok b := by
  induction mapM_eq_ok_iff.mp h with
  | nil => cases ha
  | @cons c b l bs hfirst hrest ih =>
      rcases List.mem_cons.mp ha with rfl | ha
      · exact ⟨b, List.mem_cons_self .., hfirst⟩
      · obtain ⟨b', hb', hf⟩ := ih (mapM_eq_ok_iff.mpr hrest) ha
        exact ⟨b', List.mem_cons_of_mem _ hb', hf⟩

theorem exists_mapM {α β ε : Type} {f : α → Except ε β} {l : List α}
    (h : ∀ a ∈ l, ∃ b, f a = .ok b) : ∃ bs, l.mapM f = .ok bs := by
  induction l with
  | nil => exact ⟨[], rfl⟩
  | cons a l ih =>
      obtain ⟨⟨b, hb⟩, hrest⟩ := List.forall_mem_cons.mp h
      obtain ⟨bs, hbs⟩ := ih hrest
      exact ⟨b :: bs, mapM_eq_ok_iff.mpr (.cons hb (mapM_eq_ok_iff.mp hbs))⟩

theorem fetch_eq_ok_iff {n : Node} : g.fetch id = .ok n ↔ g.get? id = some n := by
  rw [fetch]
  cases g.get? id with
  | none => exact ⟨nofun, nofun⟩
  | some m => rw [Except.ok.injEq, Option.some.injEq]

@[simp] theorem unfold_none (depth : Nat) : g.unfold depth none = .ok .hole := by
  cases depth <;> rfl

/-- A node is unfolded into the node and the unfoldings of its slots. -/
theorem unfold_eq_ok_iff {t : Tree} : g.unfold (depth + 1) (some id) = .ok t ↔
    ∃ n slots, g.get? id = some n ∧ n.subTasks.mapM (g.unfold depth) = .ok slots ∧
      t = .node id slots := by
  rw [unfold, bind_eq_ok_iff]
  constructor
  · rintro ⟨n, hn, h⟩
    obtain ⟨slots, hslots, heq⟩ := bind_eq_ok_iff.mp h
    exact ⟨n, slots, fetch_eq_ok_iff.mp hn, hslots, (Except.ok.inj heq).symm⟩
  · rintro ⟨n, slots, hn, hslots, rfl⟩
    exact ⟨n, fetch_eq_ok_iff.mpr hn, bind_eq_ok_iff.mpr ⟨slots, hslots, rfl⟩⟩

/-- The unfolding exists if there are enough levels left. -/
theorem exists_unfold (above : List TaskId) {slot : Option TaskId}
    (hslot : ∀ id, slot = some id → g.SoundAt id ∧ g.Above above id)
    (hdepth : g.size < above.length + depth) : ∃ t, g.unfold depth slot = .ok t := by
  induction depth generalizing above slot with
  | zero =>
      cases slot with
      | none => exact ⟨.hole, rfl⟩
      | some id =>
          have hle := (hslot id rfl).2.length_le
          omega
  | succ depth ih =>
      cases slot with
      | none => exact ⟨.hole, rfl⟩
      | some id =>
          obtain ⟨hs, habove⟩ := hslot id rfl
          obtain ⟨n, hn⟩ := hs.exists_node
          have hbelow : ∃ slots, n.subTasks.mapM (g.unfold depth) = .ok slots := by
            apply exists_mapM
            intro slot hmem
            apply ih (id :: above)
            · rintro sub rfl
              have hsub : g.HasSubTask id sub := ⟨n, hn, hmem⟩
              exact ⟨hs.subTask hsub, habove.cons hs hsub⟩
            · rw [List.length_cons]
              omega
          obtain ⟨slots, hslots⟩ := hbelow
          exact ⟨.node id slots, unfold_eq_ok_iff.mpr ⟨n, slots, hn, hslots, rfl⟩⟩

/-- The trees below a list, written out. -/
def trees (g : Graph) (list : List (Option TaskId)) : Except Fault (List Tree) :=
  list.mapM (g.unfold (g.size + 1))

/-- **The trees of sound entries can be written out.** -/
theorem exists_trees {list : List (Option TaskId)} (h : ∀ id, some id ∈ list → g.SoundAt id) :
    ∃ trees, g.trees list = .ok trees := by
  apply exists_mapM
  intro slot hmem
  apply exists_unfold []
  · rintro id rfl
    exact ⟨h id hmem, above_nil id⟩
  · rw [List.length_nil]
    omega

end Graph

end RenderPlan
