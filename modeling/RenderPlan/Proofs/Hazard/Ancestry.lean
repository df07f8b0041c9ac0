/-
# RenderPlan.Proofs.Hazard.Ancestry -- what the edges of a plan order

A plan records an edge only where the edges chosen before do not order the two tasks already. The
edges are exact all the same: each joins a direct conflict, and following them from a task reaches
just the tasks that a chain of conflicts leads back to (`exists_exact_plan`).

What is ordered is told by stamps while edges are chosen. A position carries the stamp of a task if and only
if following the edges chosen so far leads to it (`Chosen.stamped_iff`), and in the end every earlier task in
conflict is stamped. `Exact` is what is left of this when a task is planned. Each task gets it from the tasks
planned before (`exact_of_planNext`), so all of them have it.
-/
import RenderPlan.Proofs.Hazard.Conflicts
import RenderPlan.Proofs.Hazard.Stamps

namespace RenderPlan

open Relation

/-- The entry at `k` stands before the entry at `i`, and they conflict. -/
def Graph.ConflictsBefore (g : Graph) (list : List TaskId) (k i : Nat) : Prop :=
  k < i ∧ ∃ a b, list[k]?.bind g.get? = some a ∧ list[i]?.bind g.get? = some b ∧ g.Conflicts a b

namespace HazardPlan

/-- The edges: the entry at `i` waits for the one at `k`. -/
def WaitsFor (p : HazardPlan) (i k : Nat) : Prop := k ∈ p.depsOf i

variable {g : Graph} {planned : Array Planned} {i : Nat} {stamps : Stamps}

/-! ## Choosing edges -/

theorem choose_succ {k : Nat} {q : Planned} (hq : planned[k]? = some q) (later : Node) :
    choose g planned i later (k + 1) stamps =
      if stamps[k]? = some (some i) then choose g planned i later k stamps
      else (g.conflict q.node later).bind fun c =>
        if c then
          (choose g planned i later k (stampAll planned i stamps [k])).map fun r => (k :: r.1, r.2)
        else choose g planned i later k stamps := by
  rw [choose]
  simp only [hq]
  rfl

/-- Among complete tasks edges can be chosen. -/
theorem exists_choose {later : Node} (hl : g.Complete later)
    (hplanned : ∀ (k : Nat) q, planned[k]? = some q → g.Complete q.node) {bound : Nat}
    (hbound : bound ≤ planned.size) (stamps : Stamps) :
    ∃ r, choose g planned i later bound stamps = .ok r := by
  induction bound generalizing stamps with
  | zero => exact ⟨([], stamps), rfl⟩
  | succ k ih =>
      have hrest : k ≤ planned.size := Nat.le_of_succ_le hbound
      have hq : planned[k]? = some planned[k] := Array.getElem?_eq_getElem hbound
      obtain ⟨c, hc⟩ := Graph.exists_conflict (hplanned k _ hq) hl
      rw [choose_succ hq]
      split
      · exact ih hrest stamps
      · rw [hc]
        cases c with
        | false => exact ih hrest stamps
        | true =>
            obtain ⟨r, hr⟩ := ih hrest (stampAll planned i stamps [k])
            exact ⟨(k :: r.1, r.2), by simp only [Except.bind, if_true, hr]; rfl⟩

/-- What comes of choosing edges to some of the tasks in front of a position. -/
structure Chosen (g : Graph) (planned : Array Planned) (i : Nat) (later : Node) (bound : Nat)
    (before : Stamps) (deps : List Nat) (after : Stamps) : Prop where
  conflicts : ∀ k ∈ deps, k < bound ∧ ∃ q, planned[k]? = some q ∧ g.Conflicts q.node later
  falling : deps.Pairwise (· > ·)
  /-- What is ordered now was ordered before, or the edges lead to it. -/
  stamped_iff : ∀ x, Stamped after i x ↔
    Stamped before i x ∨ ∃ k ∈ deps, ReflTransGen (Waits planned) k x
  /-- No conflict is left out. -/
  covered : ∀ k q, k < bound → planned[k]? = some q → g.Conflicts q.node later → Stamped after i k
  /-- No chosen task was ordered before, -/
  fresh : ∀ k ∈ deps, ¬ Stamped before i k
  /-- nor by an edge chosen before. -/
  apart : deps.Pairwise fun k l => ¬ ReflTransGen (Waits planned) k l
  size_eq : after.size = before.size
  older : ∀ x j : Nat, after[x]? = some (some j) → j = i ∨ before[x]? = some (some j)

namespace Chosen

variable {later : Node} {bound k : Nat} {before after : Stamps} {deps : List Nat} {q : Planned}

/-- Nothing in front of the position is in conflict, and there are no edges. -/
theorem none (h : ∀ k q, k < bound → planned[k]? = some q → ¬ g.Conflicts q.node later) :
    Chosen g planned i later bound before [] before where
  conflicts := List.forall_mem_nil _
  falling := .nil
  stamped_iff := by simp
  covered k q hk hq hc := absurd hc (h k q hk hq)
  fresh := List.forall_mem_nil _
  apart := .nil
  size_eq := rfl
  older _ _ h := Or.inr h

/-- The task gets no edge, because it is ordered already or in no conflict. -/
theorem skip (h : Chosen g planned i later k before deps after) (hq : planned[k]? = some q)
    (hk : g.Conflicts q.node later → Stamped before i k) :
    Chosen g planned i later (k + 1) before deps after where
  conflicts l hl := ⟨Nat.lt_succ_of_lt (h.conflicts l hl).1, (h.conflicts l hl).2⟩
  falling := h.falling
  stamped_iff := h.stamped_iff
  covered := by
    intro l r hl hr hc
    rcases Nat.lt_succ_iff_lt_or_eq.mp hl with hl | rfl
    · exact h.covered l r hl hr hc
    · rw [hq] at hr
      cases hr
      exact (h.stamped_iff l).mpr (Or.inl (hk hc))
  fresh := h.fresh
  apart := h.apart
  size_eq := h.size_eq
  older := h.older

/-- The task gets an edge, which stamps the task and all that its edges lead to. -/
theorem edge (hin : Inside planned) (hsize : planned.size ≤ before.size)
    (hcovered : Covered planned i before [])
    (h : Chosen g planned i later k (stampAll planned i before [k]) deps after)
    (hq : planned[k]? = some q) (hfresh : ¬ Stamped before i k) (hc : g.Conflicts q.node later) :
    Chosen g planned i later (k + 1) before (k :: deps) after := by
  obtain ⟨hk, -⟩ := Array.getElem?_eq_some_iff.mp hq
  have hmarking := marking_stampAll hin hsize hcovered hk
  have hstamp := fun x => stamped_stampAll_iff (x := x) hin hsize hcovered hk
  have hstamped : ∀ x, Stamped after i x ↔
      Stamped before i x ∨ ∃ l ∈ k :: deps, ReflTransGen (Waits planned) l x := by
    intro x
    rw [h.stamped_iff x, hstamp x]
    simp [or_assoc]
  have hnew : ∀ l ∈ deps, ¬ Stamped before i l ∧ ¬ ReflTransGen (Waits planned) k l := by
    intro l hl
    exact not_or.mp fun hor => h.fresh l hl ((hstamp l).mpr hor)
  refine ⟨?_, ?_, hstamped, ?_, ?_, ?_, h.size_eq.trans hmarking.size_eq, ?_⟩
  · refine List.forall_mem_cons.mpr ⟨⟨Nat.lt_succ_self k, q, hq, hc⟩, fun l hl => ?_⟩
    exact ⟨Nat.lt_succ_of_lt (h.conflicts l hl).1, (h.conflicts l hl).2⟩
  · exact List.pairwise_cons.mpr ⟨fun l hl => (h.conflicts l hl).1, h.falling⟩
  · intro l r hl hr hcl
    rcases Nat.lt_succ_iff_lt_or_eq.mp hl with hl | rfl
    · exact h.covered l r hl hr hcl
    · exact (hstamped l).mpr (Or.inr ⟨l, List.mem_cons_self, .refl⟩)
  · exact List.forall_mem_cons.mpr ⟨hfresh, fun l hl => (hnew l hl).1⟩
  · exact List.pairwise_cons.mpr ⟨fun l hl => (hnew l hl).2, h.apart⟩
  · intro x j hj
    rcases h.older x j hj with hj | hj
    · exact Or.inl hj
    · exact hmarking.older x j hj

end Chosen

theorem chosen_of_choose (hin : Inside planned) {later : Node} {bound : Nat}
    (hbound : bound ≤ planned.size) (hsize : planned.size ≤ stamps.size)
    (hcovered : Covered planned i stamps []) {deps : List Nat} {after : Stamps}
    (h : choose g planned i later bound stamps = .ok (deps, after)) :
    Chosen g planned i later bound stamps deps after := by
  induction bound generalizing stamps deps with
  | zero =>
      cases h
      exact .none fun k q hk => absurd hk (Nat.not_lt_zero k)
  | succ k ih =>
      have hrest : k ≤ planned.size := Nat.le_of_succ_le hbound
      have hq : planned[k]? = some planned[k] := Array.getElem?_eq_getElem hbound
      rw [choose_succ hq] at h
      split at h
      · next hstamped => exact (ih hrest hsize hcovered h).skip hq fun _ => hstamped
      · next hfresh =>
          cases hc : g.conflict planned[k].node later with
          | error f =>
              rw [hc] at h
              cases h
          | ok c =>
              have hconf := Graph.conflict_iff hc
              rw [hc] at h
              cases c with
              | false =>
                  exact (ih hrest hsize hcovered h).skip hq fun hp => nomatch hconf.mpr hp
              | true =>
                  simp only [Except.bind, if_true] at h
                  cases hmore : choose g planned i later k (stampAll planned i stamps [k]) with
                  | error f =>
                      rw [hmore] at h
                      cases h
                  | ok r =>
                      rw [hmore] at h
                      cases h
                      have hmarking := marking_stampAll hin hsize hcovered hbound
                      have hchosen := ih hrest (hmarking.size_eq ▸ hsize) hmarking.covered hmore
                      exact hchosen.edge hin hsize hcovered hq hfresh (hconf.mp rfl)

/-! ## Planned tasks -/

/-- What holds of the task at position `i` of a planned list. -/
structure Exact (g : Graph) (planned : Array Planned) (i : Nat) (p : Planned) : Prop where
  /-- Each edge leads to an earlier task in conflict. -/
  edges : ∀ k ∈ p.deps, k < i ∧ ∃ q, planned[k]? = some q ∧ g.Conflicts q.node p.node
  /-- The edges stand from the nearest to the farthest. -/
  falling : p.deps.Pairwise (· > ·)
  /-- The edges lead to every earlier task in conflict. -/
  covered : ∀ k q, k < i → planned[k]? = some q → g.Conflicts q.node p.node →
    ∃ l ∈ p.deps, ReflTransGen (Waits planned) l k
  /-- No edge leads where a nearer one leads. -/
  apart : p.deps.Pairwise fun k l => ¬ ReflTransGen (Waits planned) k l

/-- Every task of the list is planned exactly. -/
def AllExact (g : Graph) (planned : Array Planned) : Prop :=
  ∀ i p, planned[i]? = some p → Exact g planned i p

theorem AllExact.lt_of_waits (h : AllExact g planned) {x y : Nat} (hxy : Waits planned x y) : y < x := by
  obtain ⟨p, hp, hy⟩ := hxy
  exact ((h x p hp).edges y hy).1

theorem AllExact.inside (h : AllExact g planned) : Inside planned := by
  intro x y hxy
  obtain ⟨p, hp, -⟩ := id hxy
  exact (h.lt_of_waits hxy).trans (Array.getElem?_eq_some_iff.mp hp).1

theorem AllExact.le_of_reflTransGen (h : AllExact g planned) {x y : Nat}
    (hxy : ReflTransGen (Waits planned) x y) : y ≤ x := by
  induction hxy with
  | refl => exact Nat.le_refl x
  | tail _ hedge ih => exact (h.lt_of_waits hedge).le.trans ih

theorem getElem?_push_of_eq_some {k : Nat} {q : Planned} (h : planned[k]? = some q) (p : Planned) :
    (planned.push p)[k]? = some q := by
  obtain ⟨hk, -⟩ := Array.getElem?_eq_some_iff.mp h
  rw [Array.getElem?_push_lt hk]
  rw [Array.getElem?_eq_getElem hk] at h
  exact h

theorem getElem?_push_of_lt {k : Nat} (hk : k < planned.size) (p : Planned) :
    (planned.push p)[k]? = planned[k]? := by
  rw [Array.getElem?_push_lt hk, Array.getElem?_eq_getElem hk]

/-- One more task at the end changes nothing about where edges lead from the others. -/
theorem AllExact.reflTransGen_push_iff (h : AllExact g planned) {k x : Nat} (hk : k < planned.size)
    (p : Planned) :
    ReflTransGen (Waits (planned.push p)) k x ↔ ReflTransGen (Waits planned) k x := by
  constructor
  · intro hkx
    induction hkx with
    | refl => exact .refl
    | @tail b c _ hedge ih =>
        have hb : b < planned.size := (h.le_of_reflTransGen ih).trans_lt hk
        rw [Waits, getElem?_push_of_lt hb] at hedge
        exact ih.tail hedge
  · refine ReflTransGen.mono (fun x y hxy => ?_) k x
    obtain ⟨q, hq, hy⟩ := hxy
    exact ⟨q, getElem?_push_of_eq_some hq p, hy⟩

/-- Edges that were chosen among all the tasks planned before make the next task exact. -/
theorem Chosen.exact (h : AllExact g planned) {p : Planned} {after : Stamps}
    (hchosen : Chosen g planned planned.size p.node planned.size stamps p.deps after)
    (hnone : ∀ x, ¬ Stamped stamps planned.size x) :
    Exact g (planned.push p) planned.size p where
  edges k hk := by
    obtain ⟨hlt, q, hq, hc⟩ := hchosen.conflicts k hk
    exact ⟨hlt, q, getElem?_push_of_eq_some hq p, hc⟩
  falling := hchosen.falling
  covered k q hk hq hc := by
    rw [getElem?_push_of_lt hk] at hq
    have hstamped := hchosen.covered k q hk hq hc
    obtain ⟨l, hl, hlk⟩ := ((hchosen.stamped_iff k).mp hstamped).resolve_left (hnone k)
    exact ⟨l, hl, (h.reflTransGen_push_iff (hchosen.conflicts l hl).1 p).mpr hlk⟩
  apart := hchosen.apart.imp_of_mem fun hk _ hkl hpush =>
    hkl ((h.reflTransGen_push_iff (hchosen.conflicts _ hk).1 p).mp hpush)

/-- Planning one more task changes nothing about the others. -/
theorem Exact.push (h : AllExact g planned) {q : Planned} (hq : planned[i]? = some q) (p : Planned) :
    Exact g (planned.push p) i q := by
  obtain ⟨hi, -⟩ := Array.getElem?_eq_some_iff.mp hq
  have hexact := h i q hq
  have hk : ∀ k ∈ q.deps, k < planned.size := fun k hk => (hexact.edges k hk).1.trans hi
  refine ⟨?_, hexact.falling, ?_, ?_⟩
  · intro k hk
    obtain ⟨hlt, r, hr, hc⟩ := hexact.edges k hk
    exact ⟨hlt, r, getElem?_push_of_eq_some hr p, hc⟩
  · intro k r hlt hr hc
    rw [getElem?_push_of_lt (hlt.trans hi)] at hr
    obtain ⟨l, hl, hlk⟩ := hexact.covered k r hlt hr hc
    exact ⟨l, hl, (h.reflTransGen_push_iff (hk l hl) p).mpr hlk⟩
  · exact hexact.apart.imp_of_mem fun hl _ hkl hpush =>
      hkl ((h.reflTransGen_push_iff (hk _ hl) p).mp hpush)

theorem AllExact.push (h : AllExact g planned) {p : Planned}
    (hp : Exact g (planned.push p) planned.size p) : AllExact g (planned.push p) := by
  intro i q hq
  rw [Array.getElem?_push] at hq
  split at hq
  · next hi =>
      cases hq
      exact hi ▸ hp
  · exact Exact.push h hq p

theorem planNext_of_get? (planned : Array Planned) (stamps : Stamps) {id : TaskId} {n : Node}
    (hid : g.get? id = some n) :
    planNext g planned stamps id =
      (if (n.target.isSome || !n.subTasks.isEmpty) = true then
          choose g planned planned.size n planned.size stamps
        else .ok ([], stamps)).map fun c => (⟨n, c.1⟩, c.2) := by
  simp only [planNext, Graph.fetch_of_get? hid]
  change (if _ then _ else _) = _
  split <;> rfl

/-- A complete task can be planned behind complete ones. -/
theorem exists_planNext (h : ∀ (k : Nat) q, planned[k]? = some q → g.Complete q.node) (stamps : Stamps)
    {id : TaskId} {n : Node} (hid : g.get? id = some n) (hn : g.Complete n) :
    ∃ r, planNext g planned stamps id = .ok r ∧ r.1.node = n := by
  rw [planNext_of_get? planned stamps hid]
  split
  · obtain ⟨r, hr⟩ := exists_choose (i := planned.size) hn h (Nat.le_refl _) stamps
    exact ⟨_, by rw [hr]; rfl, rfl⟩
  · exact ⟨_, rfl, rfl⟩

/-- The stamps belong to tasks that were planned before, and there is one for each task of the list. -/
structure Ready (planned : Array Planned) (stamps : Stamps) : Prop where
  size_le : planned.size ≤ stamps.size
  older : ∀ x j : Nat, stamps[x]? = some (some j) → j < planned.size

namespace Ready

theorem not_stamped (h : Ready planned stamps) (x : Nat) : ¬ Stamped stamps planned.size x :=
  fun hx => Nat.lt_irrefl _ (h.older x planned.size hx)

theorem covered (h : Ready planned stamps) : Covered planned planned.size stamps [] :=
  fun x _ hx _ => absurd hx (h.not_stamped x)

end Ready

/-- The node that is planned is the one with the id, and its edges were chosen among all the tasks
planned before. One that touches nothing is in no conflict, and so it needs no edges. -/
theorem chosen_of_planNext (hin : Inside planned) (hready : Ready planned stamps) {id : TaskId}
    {p : Planned} {after : Stamps} (h : planNext g planned stamps id = .ok (p, after)) :
    g.get? id = some p.node ∧
      Chosen g planned planned.size p.node planned.size stamps p.deps after := by
  cases hid : g.get? id with
  | none =>
      simp only [planNext, Graph.fetch, hid] at h
      cases h
  | some n =>
      rw [planNext_of_get? planned stamps hid] at h
      split at h
      · cases hr : choose g planned planned.size n planned.size stamps with
        | error f =>
            rw [hr] at h
            cases h
        | ok r =>
            rw [hr] at h
            cases h
            exact ⟨rfl, chosen_of_choose hin (Nat.le_refl _) hready.size_le hready.covered hr⟩
      · next htouch =>
          cases h
          obtain ⟨ht, hs⟩ : n.target = none ∧ n.subTasks = [] := by simpa using htouch
          exact ⟨rfl, .none fun _ _ _ _ => Graph.not_conflicts_of_idle ht hs⟩

/-! ## Planned lists -/

/-- Where everything exists, all tasks can be planned. -/
theorem exists_planFrom {list : List TaskId} (hlist : g.Resolves list)
    (h : ∀ (k : Nat) q, planned[k]? = some q → g.Complete q.node) (stamps : Stamps) :
    ∃ planned', planFrom g planned stamps list = .ok planned' := by
  induction list generalizing planned stamps with
  | nil => exact ⟨planned, rfl⟩
  | cons id list ih =>
      obtain ⟨n, hid, hn⟩ := hlist id (List.mem_cons_self ..)
      obtain ⟨⟨p, after⟩, hp, rfl⟩ := exists_planNext h stamps hid hn
      simp only [planFrom, hp]
      refine ih (fun i hi => hlist i (List.mem_cons_of_mem id hi)) (fun k q hq => ?_) after
      rw [Array.getElem?_push] at hq
      split at hq
      · cases hq
        exact hn
      · exact h k q hq

/-- A list that is planned is planned exactly, task by task. -/
theorem exact_of_planFrom {list : List TaskId} {planned' : Array Planned} (h : AllExact g planned)
    (hready : Ready planned stamps) (hlength : planned.size + list.length ≤ stamps.size)
    (hp : planFrom g planned stamps list = .ok planned') :
    AllExact g planned' ∧
      planned'.toList.map (some ∘ Planned.node) =
        planned.toList.map (some ∘ Planned.node) ++ list.map g.get? := by
  induction list generalizing planned stamps with
  | nil =>
      cases hp
      exact ⟨h, by simp⟩
  | cons id list ih =>
      cases hnext : planNext g planned stamps id with
      | error f =>
          simp only [planFrom, hnext] at hp
          cases hp
      | ok r =>
          obtain ⟨p, after⟩ := r
          simp only [planFrom, hnext] at hp
          obtain ⟨hid, hchosen⟩ := chosen_of_planNext h.inside hready hnext
          have hall := h.push (hchosen.exact h hready.not_stamped)
          rw [List.length_cons, ← hchosen.size_eq] at hlength
          have hafter : Ready (planned.push p) after := by
            refine ⟨by rw [Array.size_push]; omega, fun x j hj => ?_⟩
            rw [Array.size_push]
            rcases hchosen.older x j hj with rfl | hj
            · exact Nat.lt_succ_self _
            · exact Nat.lt_succ_of_lt (hready.older x j hj)
          obtain ⟨hexact, hmap⟩ := ih hall hafter (by rw [Array.size_push]; omega) hp
          refine ⟨hexact, ?_⟩
          rw [hmap, Array.toList_push]
          simp [hid]

/-- A list that resolves has a plan. -/
theorem exists_ofList {list : List TaskId} (hlist : g.Resolves list) :
    ∃ plan, ofList g list = .ok plan := by
  obtain ⟨planned, hplanned⟩ :=
    @exists_planFrom g #[] list hlist (by simp) (Array.replicate list.length none)
  exact ⟨_, by simp only [ofList, hplanned]; rfl⟩

/-- Behind every plan there are exactly planned tasks, one for each entry of the list. -/
theorem exact_of_ofList {list : List TaskId} {plan : HazardPlan} (h : ofList g list = .ok plan) :
    ∃ planned : Array Planned, plan = ⟨planned.toList.map Planned.deps⟩ ∧ AllExact g planned ∧
      planned.size = list.length ∧
      ∀ i : Nat, list[i]?.bind g.get? = planned[i]?.map Planned.node := by
  cases hplanned : planFrom g #[] (Array.replicate list.length none) list with
  | error f =>
      simp only [ofList, hplanned] at h
      cases h
  | ok planned =>
      simp only [ofList, hplanned] at h
      cases h
      have hready : Ready #[] (Array.replicate list.length none) :=
        ⟨Nat.zero_le _, fun x j hj => by simp [Array.getElem?_replicate] at hj⟩
      obtain ⟨hexact, hmap⟩ := exact_of_planFrom (fun i p hp => by simp at hp) hready (by simp) hplanned
      simp only [List.map_nil, List.nil_append] at hmap
      refine ⟨planned, rfl, hexact, by simpa using congrArg List.length hmap, fun i => ?_⟩
      have hi := congrArg (fun l => l[i]?) hmap
      simp only [List.getElem?_map, Array.getElem?_toList] at hi
      cases hp : planned[i]? with
      | none =>
          rw [hp] at hi
          rw [Option.map_eq_none_iff.mp hi.symm]
          rfl
      | some p =>
          rw [hp] at hi
          obtain ⟨id, hid, hnode⟩ := Option.map_eq_some_iff.mp hi.symm
          rw [hid]
          exact hnode

/-! ## Following edges -/

theorem waitsFor_iff {k : Nat} :
    WaitsFor ⟨planned.toList.map Planned.deps⟩ i k ↔ Waits planned i k := by
  simp only [WaitsFor, depsOf, Waits, List.getElem?_map, Array.getElem?_toList]
  cases planned[i]? with
  | none => simp
  | some p => simp

theorem waitsFor_eq (planned : Array Planned) :
    WaitsFor ⟨planned.toList.map Planned.deps⟩ = Waits planned :=
  funext fun _ => funext fun _ => propext waitsFor_iff

variable {list : List TaskId}

/-- What a plan of the list is good for: its edges are conflicts, and following them leads to every
earlier entry in conflict. -/
structure Orders (p : HazardPlan) (g : Graph) (list : List TaskId) : Prop where
  length_deps : p.deps.length = list.length
  conflict_of_edge : ∀ {i k}, p.WaitsFor i k → g.ConflictsBefore list k i
  reaches_conflict : ∀ {i k}, g.ConflictsBefore list k i → TransGen p.WaitsFor i k

/-- A plan of a list orders it. -/
theorem orders_of_ofList {plan : HazardPlan} (h : ofList g list = .ok plan) :
    plan.Orders g list := by
  obtain ⟨planned, rfl, hexact, hlength, hnodes⟩ := exact_of_ofList h
  refine ⟨by rw [List.length_map, Array.length_toList, hlength], ?_, ?_⟩
  · intro i k hik
    obtain ⟨p, hp, hk⟩ := waitsFor_iff.mp hik
    obtain ⟨hlt, q, hq, hc⟩ := (hexact i p hp).edges k hk
    exact ⟨hlt, q.node, p.node, by rw [hnodes, hq]; rfl, by rw [hnodes, hp]; rfl, hc⟩
  · rintro i k ⟨hlt, a, b, ha, hb, hc⟩
    rw [hnodes] at ha hb
    obtain ⟨q, hq, rfl⟩ := Option.map_eq_some_iff.mp ha
    obtain ⟨p, hp, rfl⟩ := Option.map_eq_some_iff.mp hb
    obtain ⟨l, hl, hlk⟩ := (hexact i p hp).covered k q hlt hq hc
    rw [waitsFor_eq]
    exact TransGen.head' ⟨p, hp, hl⟩ hlk

/-- A list that resolves has a plan that orders it. -/
theorem exists_orders (hlist : g.Resolves list) :
    ∃ plan, ofList g list = .ok plan ∧ plan.Orders g list := by
  obtain ⟨plan, hplan⟩ := exists_ofList hlist
  exact ⟨plan, hplan, orders_of_ofList hplan⟩

/-- Chains of edges and chains of conflicts connect the same entries. -/
theorem Orders.transGen_waitsFor_iff {p : HazardPlan} (h : p.Orders g list) (i k : Nat) :
    TransGen p.WaitsFor i k ↔ TransGen (g.ConflictsBefore list) k i := by
  constructor
  · intro hik
    induction hik with
    | single hedge => exact TransGen.single (h.conflict_of_edge hedge)
    | tail _ hedge ih => exact TransGen.head (h.conflict_of_edge hedge) ih
  · intro hki
    induction hki with
    | single hconf => exact h.reaches_conflict hconf
    | tail _ hconf ih => exact TransGen.trans (h.reaches_conflict hconf) ih

/-- **The plan is exact.** A list whose entries and sub-tasks exist has a plan. Its edges lead from
an entry to earlier entries in direct conflict with it, and following edges from an entry reaches
precisely the entries that a rising chain of conflicts connects to it. So every earlier entry in
conflict is reached, whichever of the two writes and whichever reads. -/
theorem exists_exact_plan (hlist : g.Resolves list) :
    ∃ plan, ofList g list = .ok plan ∧ plan.deps.length = list.length ∧
      (∀ i k, plan.WaitsFor i k → k < i ∧ g.ConflictsBefore list k i) ∧
      (∀ i k, TransGen plan.WaitsFor i k ↔ TransGen (g.ConflictsBefore list) k i) ∧
      ∀ i k, g.ConflictsBefore list k i → TransGen plan.WaitsFor i k := by
  obtain ⟨plan, hplan, horders⟩ := exists_orders hlist
  refine ⟨plan, hplan, horders.length_deps, ?_, horders.transGen_waitsFor_iff, ?_⟩
  · intro i k hik
    have hconf := horders.conflict_of_edge hik
    exact ⟨hconf.1, hconf⟩
  · intro i k hki
    exact horders.reaches_conflict hki

/-! ### Three writers, the last of which meets both others, and a reader

The two first writers are apart, so the third one waits for both. The reader takes from the third
and is ordered behind all of them by one edge. -/

/-- A task of no further interest that writes these columns of a strip of a buffer. -/
def stripTask (buffer : Nat) (x₀ x₁ : Int32) (reads : List (Option TaskId)) : Node :=
  ⟨⟨0, "strip", none, {}⟩, some ⟨buffer, none, 64, 64⟩, ⟨x₀, 0, x₁, 10⟩, none, reads⟩

/-- Two writers side by side, one across both, and one that reads the last and writes elsewhere. -/
def stripGraph : Graph :=
  ⟨#[stripTask 0 0 10 [], stripTask 0 10 20 [], stripTask 0 5 15 [], stripTask 1 0 10 [some ⟨2⟩]]⟩

theorem ofList_strips :
    ofList stripGraph [⟨0⟩, ⟨1⟩, ⟨2⟩, ⟨3⟩, ⟨2⟩] = .ok ⟨[[], [], [1, 0], [2], [3]]⟩ := by decide +kernel

theorem exists_exact_plan_strips :
    stripGraph.Resolves [⟨0⟩, ⟨1⟩, ⟨2⟩, ⟨3⟩, ⟨2⟩] ∧
      ∃ plan, ofList stripGraph [⟨0⟩, ⟨1⟩, ⟨2⟩, ⟨3⟩, ⟨2⟩] = .ok plan ∧
        plan.deps = [[], [], [1, 0], [2], [3]] ∧ TransGen plan.WaitsFor 4 0 := by
  have hresolves : stripGraph.Resolves [⟨0⟩, ⟨1⟩, ⟨2⟩, ⟨3⟩, ⟨2⟩] := by decide
  obtain ⟨plan, hplan, _, _, _, hreach⟩ := exists_exact_plan hresolves
  have hconf : stripGraph.ConflictsBefore [⟨0⟩, ⟨1⟩, ⟨2⟩, ⟨3⟩, ⟨2⟩] 0 4 :=
    ⟨by decide, _, _, rfl, rfl, Or.inl (by decide)⟩
  refine ⟨hresolves, plan, hplan, ?_, hreach 4 0 hconf⟩
  rw [ofList_strips] at hplan
  cases hplan
  rfl

end HazardPlan

end RenderPlan
