/-
# RenderPlan.Proofs.Bench.Planned -- the edges of the optimized frame

A tile conflicts with the tiles of its row that it reaches and with the composite of the row, and
with nothing else (`conflicts_cells_iff`). A composite conflicts with nothing behind it. In the list
the tiles that reach a tile stand right before it, and all tiles of a row stand right before the
composite. So each tile is waited for by one edge, however far the overlap reaches, and no composite
is waited for at all: there are as many edges as tiles (`edges_order`). Every seventh tile is missing,
counted over the whole frame (`length_order`).
-/
import RenderPlan.Proofs.Bench.Optimized
import RenderPlan.Proofs.Hazard.Stretches

namespace RenderPlan.Bench

variable {a : Arguments} {g : Graph} {top : Nat → TaskId} {r r' c c' : Nat}

/-! ## Conflicts between cells -/

theorem keptColumns_lt (hc : c ∈ keptColumns a r) : c < a.columns :=
  List.mem_range.mp (List.mem_filter.mp hc).1

theorem mem_keptColumns_of_mem_cells (h : (r, c) ∈ cells a) (hc : c < a.columns) :
    c ∈ keptColumns a r := by
  have hfull := (mem_cells.mp h).2.resolve_right (Nat.ne_of_lt hc)
  exact List.mem_filter.mpr ⟨List.mem_range.mpr hc, by simpa using hfull.2⟩

/-- A tile has to be done before the cell behind it in its row: before the composite, and before a
tile that begins within its reach. -/
def Bars (a : Arguments) (x y : Nat × Nat) : Prop :=
  x.1 = y.1 ∧ (y.2 = a.columns ∨
    y.2 * a.tile.toNat < x.2 * a.tile.toNat + (a.tile.toNat + a.overlap.toNat))

theorem stands_of_lt {k i : Nat} {x y : Nat × Nat} (hlt : k < i) (hx : (cells a)[k]? = some x)
    (hy : (cells a)[i]? = some y) : Stands a x y := by
  obtain ⟨hk, rfl⟩ := List.getElem?_eq_some_iff.mp hx
  obtain ⟨hi, rfl⟩ := List.getElem?_eq_some_iff.mp hy
  exact List.pairwise_iff_getElem.mp pairwise_cells k i hk hi hlt

theorem le_columns_of_getElem? {k : Nat} {x : Nat × Nat} (hx : (cells a)[k]? = some x) :
    x.2 ≤ a.columns := by
  obtain ⟨-, hc⟩ := mem_cells.mp (List.mem_of_getElem? hx)
  omega

section Conflicts

variable (ha : a.Ordinary) (h : Holds a g top)

include ha h

/-- A composite reads the tiles of its row that are left, and a tile reads nothing. -/
theorem reads_iff (hr : r < a.rows) (hc : c ≤ a.columns) {n : Node} :
    g.Reads (keptNode a r c) n ↔ c = a.columns ∧ ∃ d ∈ keptColumns a r, cellNode a r d = n := by
  rcases Nat.lt_or_eq_of_le hc with hc | rfl
  · refine iff_of_false ?_ fun hd => Nat.ne_of_lt hc hd.1
    rintro ⟨id, hid, -⟩
    rw [keptNode_tile hc, Node.children, subTasks_tile hc] at hid
    cases hid
  · rw [Graph.Reads, children_composite ha hr]
    constructor
    · rintro ⟨id, hid, hn⟩
      obtain ⟨d, hd, rfl⟩ := List.mem_map.mp hid
      rw [h.get?_tile hr (keptColumns_lt hd)] at hn
      exact ⟨rfl, d, hd, Option.some.inj hn⟩
    · rintro ⟨-, d, hd, rfl⟩
      exact ⟨_, List.mem_map_of_mem hd, h.get?_tile hr (keptColumns_lt hd)⟩

/-- **Which cells conflict.** The earlier one is a tile, and the later one is the composite of its row
or a tile of its row within its reach. -/
theorem conflicts_cells_iff (hx : (r, c) ∈ cells a) (hy : (r', c') ∈ cells a)
    (hstands : Stands a (r, c) (r', c')) :
    g.Conflicts (keptNode a r c) (keptNode a r' c') ↔ Bars a (r, c) (r', c') := by
  obtain ⟨hr, hcx⟩ := mem_cells.mp hx
  obtain ⟨hr', hcy⟩ := mem_cells.mp hy
  have hc : c ≤ a.columns := by omega
  have hc' : c' ≤ a.columns := by omega
  have hbefore : r = r' → c < c' := by
    rintro rfl
    exact Nat.lt_of_add_lt_add_left hstands
  have hmeets : (keptNode a r' c').Overlaps (keptNode a r c) ↔ _ :=
    overlaps_cells_iff ha hr' hc' hr hc
  constructor
  · rintro (hover | ⟨n, hreads, hover⟩ | ⟨n, hreads, hover⟩)
    · obtain ⟨rfl, hcells⟩ := hmeets.mp hover
      have hlt := hbefore rfl
      refine ⟨rfl, Or.inr ?_⟩
      dsimp only
      omega
    · obtain ⟨rfl, d, hd, rfl⟩ := (reads_iff ha h hr' hc').mp hreads
      obtain ⟨rfl, -⟩ := (overlaps_cells_iff ha hr' (Nat.le_of_lt (keptColumns_lt hd)) hr hc).mp hover
      exact ⟨rfl, Or.inl rfl⟩
    · -- an earlier composite stands in an earlier row
      obtain ⟨rfl, d, hd, rfl⟩ := (reads_iff ha h hr hc).mp hreads
      obtain ⟨rfl, -⟩ := (overlaps_cells_iff ha hr' hc' hr (Nat.le_of_lt (keptColumns_lt hd))).mp hover
      have hlt := hbefore rfl
      omega
  · rintro ⟨hrow, hbars⟩
    obtain rfl : r = r' := hrow
    have hlt := hbefore rfl
    have htile : c < a.columns := Nat.lt_of_lt_of_le hlt hc'
    rcases Nat.lt_or_eq_of_le hc' with hlt' | rfl
    · refine Or.inl (hmeets.mpr ⟨rfl, Or.inr ⟨hlt', htile, ?_, ?_⟩⟩)
      · exact hbars.resolve_left (Nat.ne_of_lt hlt')
      · have hle : c * a.tile.toNat ≤ c' * a.tile.toNat := Nat.mul_le_mul_right _ (Nat.le_of_lt hlt)
        have hpos := ha.tile_pos
        omega
    · refine Or.inr (Or.inl ⟨cellNode a r c, (reads_iff ha h hr hc').mpr
        ⟨rfl, c, mem_keptColumns_of_mem_cells hx htile, rfl⟩, ?_⟩)
      have hself : (cellNode a r c).Overlaps (cellNode a r c) := by
        rw [overlaps_cells_iff ha hr hc hr hc]
        have hpos := ha.tile_pos
        omega
      rwa [keptNode_tile htile]

/-- The entries of the list conflict as their cells do. -/
theorem conflictsBefore_iff {k i : Nat} :
    g.ConflictsBefore (order a top) k i ↔ k < i ∧ ∃ x y, (cells a)[k]? = some x ∧
      (cells a)[i]? = some y ∧ Bars a x y := by
  have hentry : ∀ k : Nat, (order a top)[k]?.bind g.get? =
      (cells a)[k]?.map fun x : Nat × Nat => keptNode a x.1 x.2 := by
    intro k
    rw [order, List.getElem?_map]
    cases hx : (cells a)[k]? with
    | none => rfl
    | some x =>
        obtain ⟨hr, hc⟩ := mem_cells.mp (List.mem_of_getElem? hx)
        exact h x.1 hr x.2 (by omega)
  unfold Graph.ConflictsBefore
  rw [hentry, hentry]
  refine and_congr_right fun hlt => ?_
  constructor
  · rintro ⟨_, _, hn, hm, hconf⟩
    obtain ⟨x, hx, rfl⟩ := Option.map_eq_some_iff.mp hn
    obtain ⟨y, hy, rfl⟩ := Option.map_eq_some_iff.mp hm
    exact ⟨x, y, hx, hy, (conflicts_cells_iff ha h (List.mem_of_getElem? hx)
      (List.mem_of_getElem? hy) (stands_of_lt hlt hx hy)).mp hconf⟩
  · rintro ⟨x, y, hx, hy, hbars⟩
    exact ⟨_, _, by rw [hx]; rfl, by rw [hy]; rfl, (conflicts_cells_iff ha h
      (List.mem_of_getElem? hx) (List.mem_of_getElem? hy) (stands_of_lt hlt hx hy)).mpr hbars⟩

/-- What bars a cell is a stretch of tiles right before it. -/
theorem contiguous_order : HazardPlan.Contiguous g (order a top) := by
  intro k j i hconf hkj hji
  obtain ⟨-, x, z, hx, hz, hrow, hbars⟩ := (conflictsBefore_iff ha h).mp hconf
  obtain ⟨hi, hz'⟩ := List.getElem?_eq_some_iff.mp hz
  have hj : j < (cells a).length := Nat.lt_trans hji hi
  have hy : (cells a)[j]? = some (cells a)[j] := List.getElem?_eq_getElem hj
  have hxy := stands_of_lt hkj hx hy
  have hyz := stands_of_lt hji hy hz
  generalize (cells a)[j] = y at hy hxy hyz
  refine (conflictsBefore_iff ha h).mpr ⟨hji, y, z, hy, hz, ?_⟩
  have hcx := le_columns_of_getElem? hx
  have hcy := le_columns_of_getElem? hy
  have hcz := le_columns_of_getElem? hz
  -- between two cells of a row there are cells of this row
  have hmid : x.1 = y.1 := by
    rcases Nat.lt_trichotomy x.1 y.1 with hlt | heq | hgt
    · have hback : Stands a z y := Arguments.place_lt_of_row_lt hcz (hrow ▸ hlt)
      exact absurd hyz (Nat.lt_asymm hback)
    · exact heq
    · exact absurd hxy (Nat.lt_asymm (Arguments.place_lt_of_row_lt hcy hgt))
  have hlater : x.2 < y.2 := by
    unfold Stands at hxy
    rw [hmid] at hxy
    exact Nat.lt_of_add_lt_add_left hxy
  refine ⟨hmid.symm.trans hrow, hbars.imp_right fun hreach => ?_⟩
  have hle : x.2 * a.tile.toNat ≤ y.2 * a.tile.toNat := Nat.mul_le_mul_right _ (Nat.le_of_lt hlater)
  omega

end Conflicts

/-! ## How many cells there are -/

variable (a) in
/-- How many tiles are not empty. -/
def keptTiles : Nat := a.tiles - a.tiles / 7

/-- Every seventh number is left out. -/
theorem countP_mod_seven (n : Nat) :
    (List.range n).countP (fun k => decide ¬ k % 7 = 6) = n - n / 7 := by
  induction n with
  | zero => rfl
  | succ n ih =>
      rw [List.range_succ, List.countP_append, ih, List.countP_singleton]
      simp only [decide_eq_true_eq]
      split <;> omega

/-- The tiles of the first rows that are left. -/
theorem sum_length_keptColumns (k : Nat) :
    ((List.range k).map fun r => (keptColumns a r).length).sum =
      k * a.columns - k * a.columns / 7 := by
  rw [← countP_mod_seven]
  induction k with
  | zero => simp
  | succ k ih =>
      have hrow : (keptColumns a k).length =
          ((List.range a.columns).map (k * a.columns + ·)).countP fun n => decide ¬ n % 7 = 6 := by
        rw [keptColumns, ← List.countP_eq_length_filter, List.countP_map]
        rfl
      rw [List.range_succ, List.map_append, List.sum_append, ih, List.map_singleton,
        List.sum_singleton, Nat.add_one_mul, List.range_add, List.countP_append, hrow]

theorem countP_tiles : (cells a).countP (fun x => decide (x.2 < a.columns)) = keptTiles a := by
  have hrow : ∀ r, ((keptColumns a r).map (r, ·) ++ [(r, a.columns)]).countP
      (fun x => decide (x.2 < a.columns)) = (keptColumns a r).length := by
    intro r
    have hall : ∀ x ∈ (keptColumns a r).map (r, ·), decide (x.2 < a.columns) = true := by
      intro x hx
      obtain ⟨c, hc, rfl⟩ := List.mem_map.mp hx
      exact decide_eq_true (keptColumns_lt hc)
    rw [List.countP_append, List.countP_eq_length.mpr hall, List.length_map,
      List.countP_singleton]
    simp
  rw [cells, List.countP_flatMap, keptTiles, Arguments.tiles, Nat.mul_comm,
    ← sum_length_keptColumns]
  congr 1
  exact List.map_congr_left fun r _ => hrow r

theorem length_cells : (cells a).length = keptTiles a + a.rows := by
  have hrow : ∀ r, ((keptColumns a r).map (r, ·) ++ [(r, a.columns)]).length =
      (keptColumns a r).length + 1 := by
    intro r
    rw [List.length_append, List.length_map, List.length_singleton]
  have hsum : ∀ l : List Nat, (l.map fun r => (keptColumns a r).length + 1).sum =
      (l.map fun r => (keptColumns a r).length).sum + l.length := by
    intro l
    induction l with
    | nil => rfl
    | cons r l ih =>
        simp only [List.map_cons, List.sum_cons, List.length_cons, ih]
        omega
  rw [cells, List.length_flatMap]
  simp only [hrow]
  rw [hsum, sum_length_keptColumns, List.length_range, keptTiles, Arguments.tiles,
    Nat.mul_comm a.columns]

/-- **The length of the list**: the tiles that are left, and a composite for each row. -/
theorem length_order : (order a top).length = keptTiles a + a.rows := by
  rw [order, List.length_map, length_cells]

/-- Counting positions is counting entries. -/
theorem countP_positions {α : Type} (p : α → Bool) (l : List α) :
    (List.range l.length).countP (fun k => l[k]?.any p) = l.countP p := by
  induction l with
  | nil => rfl
  | cons x l ih =>
      rw [List.length_cons, List.range_succ_eq_map, List.countP_cons, List.countP_map,
        List.countP_cons, ← ih]
      rfl

/-- **One edge for each tile that is left**, whatever the overlap. -/
theorem edges_order (ha : a.Ordinary) (h : Holds a g top) {plan : HazardPlan}
    (hplan : HazardPlan.ofList g (order a top) = .ok plan) : plan.edges = keptTiles a := by
  have hbarring : ∀ k < (order a top).length,
      (cells a)[k]?.any (fun x => decide (x.2 < a.columns)) = true ↔
        ∃ i, g.ConflictsBefore (order a top) k i := by
    intro k hk
    have hcells : (order a top).length = (cells a).length := List.length_map ..
    obtain ⟨x, hx⟩ : ∃ x, (cells a)[k]? = some x := ⟨_, List.getElem?_eq_getElem (hcells ▸ hk)⟩
    rw [hx, Option.any_some, decide_eq_true_iff]
    constructor
    · intro htile
      -- the composite of the row waits for the tile
      have hrow : x.1 < a.rows := (mem_cells.mp (List.mem_of_getElem? hx)).1
      have hcomposite : (x.1, a.columns) ∈ cells a := mem_cells.mpr ⟨hrow, Or.inr rfl⟩
      obtain ⟨i, hi⟩ := List.mem_iff_getElem?.mp hcomposite
      refine ⟨i, (conflictsBefore_iff ha h).mpr ⟨?_, _, _, hx, hi, rfl, Or.inl rfl⟩⟩
      have hstands : Stands a x (x.1, a.columns) := Nat.add_lt_add_left htile _
      rcases Nat.lt_trichotomy k i with hlt | rfl | hgt
      · exact hlt
      · have hsame : x.2 = a.columns := congrArg Prod.snd (Option.some.inj (hx.symm.trans hi))
        omega
      · exact absurd hstands (Nat.lt_asymm (stands_of_lt hgt hi hx))
    · rintro ⟨i, hconf⟩
      obtain ⟨hlt, y, z, hy, hz, hrow, -⟩ := (conflictsBefore_iff ha h).mp hconf
      obtain rfl := Option.some.inj (hx.symm.trans hy)
      have hstands := stands_of_lt hlt hx hz
      unfold Stands at hstands
      rw [hrow] at hstands
      exact Nat.lt_of_lt_of_le (Nat.lt_of_add_lt_add_left hstands) (le_columns_of_getElem? hz)
  calc plan.edges
      = (List.range (order a top).length).countP
          fun k => (cells a)[k]?.any fun x => decide (x.2 < a.columns) :=
        HazardPlan.edges_eq_countP hplan (contiguous_order ha h) hbarring
    _ = (cells a).countP fun x => decide (x.2 < a.columns) := by
        rw [order, List.length_map, countP_positions]
    _ = keptTiles a := countP_tiles

end RenderPlan.Bench
