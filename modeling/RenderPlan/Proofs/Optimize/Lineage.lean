/-
# RenderPlan.Proofs.Optimize.Lineage -- what becomes of the entries of a list

Rules for tasks replace and remove entries, holes are taken out on the way, and so an entry moves
forward as the entries before it go. The journal tells the position of every visit at its time.
`trails` follows these visits over the given list. It keeps the place of every given entry, and hands
each visit to the place that stood at its position then. The visits of one place make a chain: the
first one is a visit of the given entry, and each other one is a visit of what the one before it
returned (`Lineage`).

Without rules for lists, what stands in the list is what stands at the ends of the trails, in the
same order (`Situation.Traced`). This holds at every moment of an optimization, also when it stops.
-/
import RenderPlan.Proofs.Optimize.Standing
import Mathlib.Data.Fintype.Basic
import Mathlib.Data.List.FinRange

namespace RenderPlan

variable {σ : Type}

/-! ## Visits of entries -/

/-- A visit of an entry of the list. -/
structure EntryVisit where
  position : Nat
  task : TaskId
  result : Option TaskId
  deriving DecidableEq, Repr

/-- The visit of an entry of the list that an event is, if it is one. -/
def Entry.entryVisit? : Entry → Option EntryVisit
  | .visit (.entry position) task result _ => some ⟨position, task, result⟩
  | _ => none

/-- The visits of entries of the list, the latest first. -/
def Journal.entryVisits (j : Journal) : List EntryVisit := j.filterMap Entry.entryVisit?

/-- The visits, the latest first, are a chain from the given entry to this one: the first of them
visits what was given, each other one visits what the one before it returned, and the last one
returned the entry. -/
inductive Lineage (given : Option TaskId) : List EntryVisit → Option TaskId → Prop where
  | given : Lineage given [] given
  | visit {visits v} (before : Lineage given visits (some v.task)) :
      Lineage given (v :: visits) v.result

/-- Nothing is left exactly if nothing was given or some visit returned nothing. -/
theorem Lineage.eq_none_iff {given entry : Option TaskId} {visits : List EntryVisit}
    (h : Lineage given visits entry) :
    entry = none ↔ given = none ∨ ∃ v ∈ visits, v.result = none := by
  induction h with
  | given => simp
  | @visit visits v before ih =>
      -- what was visited was there, so only the last visit counts
      have hthere : ¬ (given = none ∨ ∃ v ∈ visits, v.result = none) := by
        rw [← ih]
        nofun
      constructor
      · exact fun hgone => Or.inr ⟨v, List.mem_cons_self, hgone⟩
      · rintro (hgiven | ⟨u, hu, hgone⟩)
        · exact absurd (Or.inl hgiven) hthere
        · rcases List.mem_cons.mp hu with rfl | hu
          · exact hgone
          · exact absurd (Or.inr ⟨u, hu, hgone⟩) hthere

/-! ## Trails -/

/-- A place of the given list, with the visits of what stood there, the latest first. -/
structure Trail where
  given : Option TaskId
  visits : List EntryVisit
  deriving DecidableEq, Repr

namespace Trail

/-- What stands there after the visits. -/
def entry (t : Trail) : Option TaskId :=
  match t.visits with
  | [] => t.given
  | v :: _ => v.result

/-- One more visit. -/
def extend (v : EntryVisit) (t : Trail) : Trail := { t with visits := v :: t.visits }

/-- The visits are a chain. -/
def Sound (t : Trail) : Prop := Lineage t.given t.visits t.entry

theorem Sound.extend {t : Trail} {v : EntryVisit} (h : t.Sound) (hv : t.entry = some v.task) :
    (t.extend v).Sound :=
  .visit (hv ▸ h)

end Trail

/-- Hands a visit to that one of the trails, counted from zero, at which something stands. -/
def handTo (v : EntryVisit) : Nat → List Trail → List Trail
  | _, [] => []
  | n, t :: ts =>
    match t.entry, n with
    | none, n => t :: handTo v n ts
    | some _, 0 => t.extend v :: ts
    | some _, n + 1 => t :: handTo v n ts

/-- The trails of a given list after these visits, the latest first. -/
def trails (given : List (Option TaskId)) : List EntryVisit → List Trail
  | [] => given.map fun entry => ⟨entry, []⟩
  | v :: visits => handTo v v.position (trails given visits)

section Trails

variable {given : List (Option TaskId)} {visits : List EntryVisit} {v : EntryVisit}
  {ts : List Trail} {front back : List TaskId} {task : TaskId}

theorem map_given_handTo (n : Nat) : (handTo v n ts).map Trail.given = ts.map Trail.given := by
  induction ts generalizing n with
  | nil => rfl
  | cons t ts ih =>
      unfold handTo
      split
      · exact congrArg (t.given :: ·) (ih _)
      · rfl
      · exact congrArg (t.given :: ·) (ih _)

theorem map_given_trails : (trails given visits).map Trail.given = given := by
  induction visits with
  | nil => simp [trails, Function.comp_def]
  | cons v visits ih => exact (map_given_handTo _).trans ih

theorem length_trails : (trails given visits).length = given.length := by
  rw [← List.length_map Trail.given, map_given_trails]

/-- The trail of a position of the given list. -/
def trailAt (given : List (Option TaskId)) (visits : List EntryVisit) (i : Fin given.length) :
    Trail :=
  (trails given visits).get (i.cast length_trails.symm)

theorem map_trailAt : (List.finRange given.length).map (trailAt given visits) =
    trails given visits := by
  refine List.ext_getElem ?_ fun n hn hn' => ?_
  · rw [List.length_map, List.length_finRange, length_trails]
  · simp [trailAt]

theorem given_trailAt (i : Fin given.length) : (trailAt given visits i).given = given[i] := by
  have hgiven := congrArg (fun list => list[i.val]?) (@map_given_trails given visits)
  simpa [trailAt, length_trails] using hgiven

/-- A visit goes past the trails before its own. -/
theorem handTo_append (n : Nat) (ts' : List Trail) :
    handTo v ((ts.filterMap Trail.entry).length + n) (ts ++ ts') = ts ++ handTo v n ts' := by
  induction ts with
  | nil => simp
  | cons t ts ih =>
      cases hentry : t.entry with
      | none => simp [handTo, hentry, ih]
      | some task =>
          rw [List.filterMap_cons_some hentry, List.length_cons, Nat.succ_add]
          simp [handTo, hentry, ih]

/-- Where the tasks at the ends of the trails are known, a visit comes to the trail of the task at
its position. -/
theorem exists_handTo (h : ts.filterMap Trail.entry = front ++ task :: back) :
    ∃ ts₁ t ts₂, ts = ts₁ ++ t :: ts₂ ∧ ts₁.filterMap Trail.entry = front ∧
      t.entry = some task ∧ ts₂.filterMap Trail.entry = back ∧
      ∀ v, handTo v front.length ts = ts₁ ++ t.extend v :: ts₂ := by
  obtain ⟨ts₁, rest, rfl, rfl, hrest⟩ := List.filterMap_eq_append_iff.mp h
  obtain ⟨gone, t, ts₂, rfl, hgone, hentry, rfl⟩ := List.filterMap_eq_cons_iff.mp hrest
  have hfront : (ts₁ ++ gone).filterMap Trail.entry = ts₁.filterMap Trail.entry := by
    rw [List.filterMap_append, List.filterMap_eq_nil_iff.mpr hgone, List.append_nil]
  refine ⟨ts₁ ++ gone, t, ts₂, by simp, hfront, hentry, rfl, fun v => ?_⟩
  have hpast : handTo v (((ts₁ ++ gone).filterMap Trail.entry).length + 0)
      ((ts₁ ++ gone) ++ t :: ts₂) = (ts₁ ++ gone) ++ handTo v 0 (t :: ts₂) :=
    handTo_append 0 (t :: ts₂)
  rw [hfront, List.append_assoc] at hpast
  simpa [handTo, hentry] using hpast

end Trails

/-- After these visits the given list has become these tasks. -/
structure Traces (given : List (Option TaskId)) (visits : List EntryVisit) (tasks : List TaskId) :
    Prop where
  /-- The tasks are what stands at the ends of the trails. -/
  entries : (trails given visits).filterMap Trail.entry = tasks
  sound : ∀ t ∈ trails given visits, t.Sound
  /-- Every visit belongs to one trail. -/
  shared : ((trails given visits).flatMap Trail.visits).Perm visits

theorem traces_nil (given : List (Option TaskId)) : Traces given [] (given.filterMap id) where
  entries := by
    rw [trails, List.filterMap_map]
    rfl
  sound t ht := by
    obtain ⟨entry, -, rfl⟩ := List.mem_map.mp ht
    exact .given
  shared := by
    rw [trails, List.flatMap_map]
    simp

/-- The task at a position is visited, and what the visit returns takes its place. -/
theorem Traces.visit {given : List (Option TaskId)} {visits : List EntryVisit}
    {front back : List TaskId} {task : TaskId} (h : Traces given visits (front ++ task :: back))
    (result : Option TaskId) :
    Traces given (⟨front.length, task, result⟩ :: visits) (front ++ (result.toList ++ back)) := by
  obtain ⟨hentries, hsound, hshared⟩ := h
  obtain ⟨ts₁, t, ts₂, hsplit, hfront, hentry, hback, hhanded⟩ := exists_handTo hentries
  have htrails : trails given (⟨front.length, task, result⟩ :: visits) =
      ts₁ ++ t.extend ⟨front.length, task, result⟩ :: ts₂ := hhanded _
  rw [hsplit] at hsound hshared
  obtain ⟨hsound₁, hsound, hsound₂⟩ : (∀ t ∈ ts₁, t.Sound) ∧ t.Sound ∧ ∀ t ∈ ts₂, t.Sound := by
    simpa only [List.forall_mem_append, List.forall_mem_cons] using hsound
  refine ⟨?_, ?_, ?_⟩
  · rw [htrails, List.filterMap_append, List.filterMap_cons, hfront, hback]
    cases result <;> rfl
  · rw [htrails]
    simp only [List.forall_mem_append, List.forall_mem_cons]
    exact ⟨hsound₁, hsound.extend hentry, hsound₂⟩
  · rw [htrails]
    simp only [List.flatMap_append, List.flatMap_cons, Trail.extend, List.cons_append] at hshared ⊢
    exact List.perm_middle.trans (hshared.cons _)

/-! ## Visits leave no visits of entries behind -/

namespace Visit

variable {maxSteps : Nat} {rules : List (Member σ)} {w₀ w : Workspace σ} {v₀ v : TaskView}
  {copied : Bool} {stop : Stop}

theorem Course.entryVisits_eq (h : Course maxSteps rules w₀ v₀ copied v w) :
    w.journal.entryVisits = w₀.journal.entryVisits := by
  induction h with
  | enter => rfl
  | call _ _ _ _ ih => exact ih
  | keep _ _ _ _ ih hbelow => exact hbelow.trans ih
  | splice _ _ _ _ _ _ ih hbelow => exact hbelow.trans ih
  | spend _ _ ih => exact ih

theorem Aborted.entryVisits_eq (h : Aborted maxSteps rules w₀ v₀ stop w) :
    w.journal.entryVisits = w₀.journal.entryVisits := by
  induction h with
  | limit hbefore => exact hbefore.entryVisits_eq
  | missing hbefore => exact hbefore.entryVisits_eq
  | raised hbefore => exact hbefore.entryVisits_eq
  | inside hbefore _ _ ih => exact ih.trans hbefore.entryVisits_eq
  | unwritten hbefore _ hbelow => exact hbelow.entryVisits_eq.trans hbefore.entryVisits_eq
  | exhausted hbefore => exact hbefore.entryVisits_eq

end Visit

/-! ## Sweeps -/

/-- The entries that are done are no holes. -/
def Phase.Compact : Phase σ → Prop
  | .visiting _ before _ => ∀ entry ∈ before, entry.isSome
  | _ => True

/-- The journal tells how the given list became the present one. -/
structure Situation.Traced (given : List (Option TaskId)) (a : Situation σ) : Prop where
  traces : Traces given a.work.journal.entryVisits (a.list.filterMap id)
  compact : a.phase.Compact

namespace Sweep

variable {setup : Setup σ} {a b : Situation σ} {step : Step σ} {s : Sweep} {w w' : Workspace σ}
  {given before after : List (Option TaskId)} {task : TaskId}

theorem entryVisits_of_entryOutcome {r : Except Stop TaskView}
    (h : entryOutcome setup step before after task w = (r, w')) :
    w'.journal.entryVisits = w.journal.entryVisits := by
  have hdone := (Visit.ensures_visit _ _ _ _ _ _).of_outcome h
  cases r with
  | ok seen =>
      obtain ⟨copied, hcourse⟩ := hdone
      exact hcourse.entryVisits_eq
  | error stop => exact Visit.Aborted.entryVisits_eq hdone

theorem length_filterMap_id (h : ∀ entry ∈ before, entry.isSome) :
    (before.filterMap id).length = before.length := by
  rw [List.length_filterMap_eq_countP]
  exact List.countP_eq_length.mpr h

/-- An entry was visited. -/
theorem traces_of_entryOutcome {seen : TaskView}
    (ha : Situation.Traced given ⟨.visiting step before (some task :: after), s, w⟩)
    (houtcome : entryOutcome setup step before after task w = (.ok seen, w')) :
    Traces given (w'.note (listEntry before.length task seen)).journal.entryVisits
      ((before.reverse ++ (seen.task.toList.map some ++ after)).filterMap id) := by
  have hvisited : (w'.note (listEntry before.length task seen)).journal.entryVisits =
      ⟨before.length, task, seen.task⟩ :: w.journal.entryVisits :=
    congrArg _ (entryVisits_of_entryOutcome houtcome)
  have hlength : (before.reverse.filterMap id).length = before.length := by
    rw [length_filterMap_id fun entry h => ha.compact entry (List.mem_reverse.mp h),
      List.length_reverse]
  have htraces : Traces given w.journal.entryVisits
      (before.reverse.filterMap id ++ task :: after.filterMap id) := by
    have htraces := ha.traces
    simpa [Situation.list] using htraces
  have hnext := htraces.visit seen.task
  rw [hlength] at hnext
  rw [hvisited]
  cases hseen : seen.task <;> simpa [hseen] using hnext

/-- Every move keeps track, as long as no rule is called for the list. -/
theorem Move.traced
    (hrules : ∀ c, ∀ id ∈ setup.registry.rules c, (setup.rules id).descriptor.forList = false)
    (hstands : a.Stands setup) (ha : a.Traced given) (h : Move setup a b) : b.Traced given := by
  -- the rules of a step are registered
  have hlist : ∀ {step : Step σ} {m : Member σ} {rest : List (Member σ)},
      a.sweep.Stepping setup step → m :: rest ⊆ step.members →
        m.rule.descriptor.forList ≠ true := by
    intro step m rest hstep hrest
    rw [hstep.forall_members (P := fun r => r.descriptor.forList = false) hrules m
      (hrest List.mem_cons_self)]
    nofun
  cases h with
  | call _ hforList | raise _ hforList => exact absurd hforList (hlist hstands.1 hstands.2)
  | descend => exact ⟨ha.traces, List.forall_mem_nil _⟩
  | hole =>
      refine ⟨?_, ha.compact⟩
      have htraces := ha.traces
      simpa [Situation.list] using htraces
  | finish =>
      refine ⟨?_, trivial⟩
      have htraces := ha.traces
      simpa [Situation.list, Sweep.behind] using htraces
  | @visit s w step before after task seen w' _ houtcome =>
      have htraces := traces_of_entryOutcome ha houtcome
      refine ⟨?_, ?_⟩
      · cases hseen : seen.task <;> simpa [Situation.list, hseen] using htraces
      · cases hseen : seen.task <;> simpa [Phase.Compact, hseen] using ha.compact
  | revisit _ houtcome _ hnew =>
      have htraces := traces_of_entryOutcome ha houtcome
      rw [hnew] at htraces
      exact ⟨htraces, ha.compact⟩
  | unrepeated _ houtcome _ hnew =>
      have htraces := traces_of_entryOutcome ha houtcome
      rw [hnew] at htraces
      exact ⟨htraces, trivial⟩
  | abort _ houtcome =>
      refine ⟨?_, trivial⟩
      have hsame := entryVisits_of_entryOutcome houtcome
      exact hsame ▸ ha.traces
  | _ => exact ⟨ha.traces, trivial⟩

end Sweep

/-! ## The whole optimization -/

/-- The visits in the trail of a position of the given list, the latest first. -/
def Journal.chain (j : Journal) {given : List (Option TaskId)} (i : Fin given.length) :
    List EntryVisit :=
  (trailAt given j.entryVisits i).visits

/-- The entries that are not taken out of a list keep their order. -/
theorem exists_orderEmbedding {n : Nat} {f : Fin n → Option TaskId} {list : List (Option TaskId)}
    (h : list = ((List.finRange n).map f).filter Option.isSome) :
    ∃ origin : Fin list.length ↪o Fin n, (∀ k, list[k] = f (origin k)) ∧
      ∀ i, i ∈ Set.range origin ↔ (f i).isSome := by
  rw [List.filter_map] at h
  subst h
  generalize hkept : (List.finRange n).filter (Option.isSome ∘ f) = kept
  have hsorted : kept.Pairwise (· < ·) := hkept ▸ (List.pairwise_lt_finRange n).filter _
  have hlength : (kept.map f).length = kept.length := List.length_map f
  have hmono : StrictMono fun k : Fin (kept.map f).length => kept[k.cast hlength] :=
    fun k l hkl => List.pairwise_iff_getElem.mp hsorted k l _ _ hkl
  refine ⟨OrderEmbedding.ofStrictMono _ hmono, fun k => ?_, fun i => ?_⟩
  · simp
  · have hmem : i ∈ kept ↔ (f i).isSome := by simp [← hkept]
    rw [← hmem, List.mem_iff_getElem]
    constructor
    · rintro ⟨k, rfl⟩
      exact ⟨k, _, rfl⟩
    · rintro ⟨k, hk, rfl⟩
      exact ⟨⟨k, hlength ▸ hk⟩, rfl⟩

/-- The list came from the given one in the course of these events: its entries come from given
entries, in the same order. -/
structure Journal.Origins (j : Journal) (given list : List (Option TaskId))
    (origin : Fin list.length ↪o Fin given.length) : Prop where
  /-- Each entry was returned by the last visit of the chain that begins at its origin. -/
  lineage : ∀ k, Lineage given[origin k] (j.chain (origin k)) list[k]
  /-- What is left out was a hole, or a visit of its chain removed it. -/
  left_out : ∀ i, i ∉ Set.range origin ↔ given[i] = none ∨ ∃ v ∈ j.chain i, v.result = none
  /-- Every visit of an entry belongs to one chain. -/
  shared : ((List.finRange given.length).flatMap fun i => j.chain i).Perm j.entryVisits

/-- What has become of the given list, without its holes, comes from it in the same order. -/
theorem Traces.exists_origins {given list : List (Option TaskId)} {j : Journal}
    (h : Traces given j.entryVisits (list.filterMap id)) :
    ∃ origin, j.Origins given (list.filter Option.isSome) origin := by
  let t (i : Fin given.length) : Trail := trailAt given j.entryVisits i
  have hmap : (List.finRange given.length).map t = trails given j.entryVisits := map_trailAt
  have hlineage : ∀ i, Lineage given[i] (j.chain i) (t i).entry := by
    intro i
    have hsound : (t i).Sound := h.sound _ (List.get_mem _ _)
    rwa [Trail.Sound, given_trailAt] at hsound
  have hlist : list.filter Option.isSome =
      ((List.finRange given.length).map fun i => (t i).entry).filter Option.isSome := by
    rw [filter_isSome, filter_isSome, ← h.entries, ← hmap, List.filterMap_map, List.filterMap_map]
    rfl
  obtain ⟨origin, horigin, hrange⟩ := exists_orderEmbedding hlist
  refine ⟨origin, ?_, ?_, ?_⟩
  · intro k
    rw [horigin]
    exact hlineage (origin k)
  · intro i
    rw [hrange, Option.not_isSome_iff_eq_none]
    exact (hlineage i).eq_none_iff
  · have hshared := h.shared
    rw [← hmap, List.flatMap_map] at hshared
    exact hshared

theorem Setup.traced_start (user : σ) (graph : Graph) (list : List (Option TaskId)) :
    (start user graph list).Traced list :=
  ⟨traces_nil list, trivial⟩

/-- **Rules for tasks keep the entries in order.** Optimize any list with rules of which none
transforms the list as a whole, whatever else they do and remember. If this comes to its end, no hole
is left. The entries come from entries of the given list, in the same order: each one is what the
last visit of the chain of visits that begins at its origin returned. An entry of the given list is
left out exactly if it was a hole or if a visit of its chain returned nothing. -/
theorem Setup.exists_origins_of_optimize (setup : Setup σ)
    (hrules : ∀ c, ∀ id ∈ setup.registry.rules c, (setup.rules id).descriptor.forList = false)
    (user : σ) (graph : Graph) (list : List (Option TaskId)) {stats : OptimizeStats}
    (hok : (setup.optimize user graph list).result = .ok stats) :
    let o := setup.optimize user graph list
    (∀ entry ∈ o.list, entry.isSome) ∧ ∃ origin, o.journal.Origins list o.list origin := by
  intro o
  refine ⟨isSome_of_optimize hok, ?_⟩
  rcases setup.optimize_invariant user graph list (traced_start user graph list)
      (fun _ _ => Sweep.Move.traced hrules) with
    ⟨s, w, htraced, _, heq⟩ | ⟨s, w, stop, _, _, heq⟩
  · rw [show o = _ from heq]
    exact htraced.traces.exists_origins
  · rw [heq] at hok
    cases hok

/-! ### An entry that is replaced, a hole, and an entry that is removed

The first entry is replaced and visited once more, then the hole is taken out, and then the third
entry is removed, which is the second one by that time. The last entry stays. -/

/-- A rule that removes one task, and replaces another one and asks for a further visit. It counts its
calls. -/
def Rule.pruning : Rule Nat where
  name := "prune"
  descriptor := { Descriptor.ofCategory .common with forRootTask := true }
  runTask c := { call := { c with
    user := c.user + 1
    view :=
      if c.view.task = some ⟨0⟩ then { c.view with task := some ⟨2⟩, mode := .last }
      else if c.view.task = some ⟨1⟩ then { c.view with task := none }
      else c.view } }

/-- The rule alone. -/
def pruningSetup : Setup Nat where
  rules _ := .pruning
  registry := ⟨fun c => if c = .common then [⟨0⟩] else []⟩
  maxSteps := 64
  logSteps := false
  visitLimit := 8

/-- Three tasks without sub-tasks. -/
def threeImages : Graph := ⟨Array.replicate 3 (Node.ofKind ⟨0, "image", none, {}⟩)⟩

theorem Setup.exists_origins_of_optimize_pruning :
    let o := pruningSetup.optimize 0 threeImages [some ⟨0⟩, none, some ⟨1⟩, some ⟨2⟩]
    o.list = [some ⟨2⟩, some ⟨2⟩] ∧
      o.journal.entryVisits = [⟨1, ⟨2⟩, some ⟨2⟩⟩, ⟨1, ⟨1⟩, none⟩, ⟨0, ⟨2⟩, some ⟨2⟩⟩,
        ⟨0, ⟨0⟩, some ⟨2⟩⟩] ∧
      ∃ origin, o.journal.Origins [some ⟨0⟩, none, some ⟨1⟩, some ⟨2⟩] o.list origin := by
  intro o
  have hrules : ∀ c, ∀ id ∈ pruningSetup.registry.rules c,
      (pruningSetup.rules id).descriptor.forList = false := fun _ _ _ => rfl
  have hresult : o.result.toOption.isSome = true := by decide +kernel
  refine ⟨by decide +kernel, by decide +kernel, ?_⟩
  cases hok : o.result with
  | ok stats => exact (pruningSetup.exists_origins_of_optimize hrules 0 threeImages _ hok).2
  | error stop =>
      rw [hok] at hresult
      cases hresult

end RenderPlan
