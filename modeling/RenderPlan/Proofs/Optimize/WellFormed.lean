/-
# RenderPlan.Proofs.Optimize.WellFormed -- optimized trees are well-formed

`Regrafts` is the contract between the driver and the rules: a call adds nodes and changes none, and
what it answers is made of nodes from below what it was given and of new ones. The contract composes
(`Regrafts.trans`), and the driver keeps it too: a copied node with a changed slot is a new node
over sub-tasks from below the old one (`Visit.regrafts_splice`).

Acyclicity rests on where nodes come from. The tree that comes back for a sub-task is made of nodes
from below that sub-task and of nodes younger than its visit; the node above is neither, so writing
the tree into one of its slots closes no cycle, also when that node is itself a copy taken during
the same visit.
-/
import RenderPlan.Proofs.Graph.Check
import RenderPlan.Proofs.Optimize.Standing

namespace RenderPlan

/-! ## The contract -/

/-- From `g` to `g'` nodes were only added, and the trees below `returned` are well-formed and made
of nodes from below `given` and of new ones. -/
structure Graph.Regrafts (g : Graph) (given : List TaskId) (g' : Graph)
    (returned : List TaskId) : Prop where
  grows : g.Extends g'
  sound : g'.WellFormed returned
  origin : ∀ root ∈ returned, ∀ b, g'.Reaches root b →
    g.get? b = none ∨ ∃ a ∈ given, g.Reaches a b

/-- Every call of the rule that is given well-formed trees and returns keeps the contract. -/
structure Rule.Regrafts {σ : Type} (r : Rule σ) : Prop where
  task : ∀ c : TaskCall σ, c.graph.WellFormed c.view.task.toList → (r.runTask c).fault = none →
    c.graph.Regrafts c.view.task.toList
      (r.runTask c).call.graph (r.runTask c).call.view.task.toList
  list : ∀ c : ListCall σ, c.graph.WellFormed (c.list.filterMap id) → (r.runList c).fault = none →
    c.graph.Regrafts (c.list.filterMap id)
      (r.runList c).call.graph ((r.runList c).call.list.filterMap id)

namespace Graph

variable {g g' g'' : Graph} {given mid returned : List TaskId} {task a b : TaskId} {n : Node}

theorem WellFormed.extend (h : g.WellFormed given) (hgrows : g.Extends g') : g'.WellFormed given :=
  fun root hroot => hgrows.soundAt (h root hroot)

theorem wellFormed_filterMap {list : List (Option TaskId)} :
    g.WellFormed (list.filterMap id) ↔ ∀ task, some task ∈ list → g.SoundAt task := by
  simp [WellFormed, SoundAt]

theorem Regrafts.refl (h : g.WellFormed given) : g.Regrafts given g given where
  grows := .refl g
  sound := h
  origin := fun root hroot _ hb => Or.inr ⟨root, hroot, hb⟩

theorem Regrafts.trans (h : g.Regrafts given g' mid) (h' : g'.Regrafts mid g'' returned) :
    g.Regrafts given g'' returned where
  grows := h.grows.trans h'.grows
  sound := h'.sound
  origin := by
    intro root hroot b hb
    rcases h'.origin root hroot b hb with hnew | ⟨a, ha, hab⟩
    · exact Or.inl (h.grows.eq_none hnew)
    · exact h.origin a ha b hab

/-- Trees stay what they are while the graph grows elsewhere. -/
theorem Regrafts.extend (h : g.Regrafts given g' returned) (hgrows : g'.Extends g'') :
    g.Regrafts given g'' returned :=
  h.trans { Regrafts.refl (h.sound.extend hgrows) with
    grows := hgrows
    origin := fun root hroot _ hb =>
      Or.inr ⟨root, hroot, (hgrows.reaches_iff (h.sound root hroot)).mp hb⟩ }

/-- A new node over given tasks keeps the contract. -/
theorem regrafts_insert (h : g.WellFormed given) (hn : ∀ a, some a ∈ n.subTasks → a ∈ given) :
    g.Regrafts given (g.insert n) [g.nextId] where
  grows := .insert g n
  sound := by
    intro root hroot
    obtain rfl : root = g.nextId := by simpa using hroot
    apply soundAt_of_subTasks
    · rw [get?_insert_nextId]
      rfl
    · intro a ha
      have hs := h a (hn a ((hasSubTask_iff (get?_insert_nextId g n)).mp ha))
      refine ⟨(Extends.insert g n).soundAt hs, ?_⟩
      -- what is below a given task existed before the new node
      intro hback
      have hexists := (hs _ (((Extends.insert g n).reaches_iff hs).mp hback)).1
      rw [get?_nextId] at hexists
      cases hexists
  origin := by
    intro root hroot b hb
    obtain rfl : root = g.nextId := by simpa using hroot
    rcases hb.cases_head with rfl | ⟨a, ha, hab⟩
    · exact Or.inl (get?_nextId g)
    · have hmem := hn a ((hasSubTask_iff (get?_insert_nextId g n)).mp ha)
      exact Or.inr ⟨a, hmem, ((Extends.insert g n).reaches_iff (h a hmem)).mp hab⟩

end Graph

namespace Visit

open RenderPlan.Graph

variable {g : Graph} {task a b : TaskId} {n : Node}

/-! ## Writing a changed sub-task -/

section Splice

variable (copied : Bool) (slot : Nat) (sub : Option TaskId)

theorem get?_splice (hn : g.get? task = some n) :
    (splice copied task n slot sub g).2.get? (splice copied task n slot sub g).1 =
      some (n.withSlot slot sub) := by
  cases copied with
  | true => exact get?_modify_self hn _
  | false => exact get?_insert_nextId g _

/-- A tree that exists and does not contain the node is left alone. -/
theorem get?_splice_of_reaches (hs : g.SoundAt a) (hfree : ¬ g.Reaches a task)
    (hab : g.Reaches a b) : (splice copied task n slot sub g).2.get? b = g.get? b := by
  cases copied with
  | true =>
      have hne : b ≠ task := fun heq => hfree (heq.subst (motive := g.Reaches a) hab)
      exact get?_modify_of_ne hne _
  | false =>
      obtain ⟨m, hm⟩ := Option.isSome_iff_exists.mp (hs b hab).1
      rw [hm]
      exact get?_insert_of_get?_eq_some hm

/-- It does not contain the written node either. -/
theorem ne_splice_of_reaches (hs : g.SoundAt a) (hfree : ¬ g.Reaches a task)
    (hab : g.Reaches a b) : b ≠ (splice copied task n slot sub g).1 := by
  cases copied with
  | true => exact fun heq => hfree (heq.subst (motive := g.Reaches a) hab)
  | false =>
      rintro rfl
      have hexists := (hs _ hab).1
      rw [show (splice false task n slot sub g).1 = g.nextId from rfl, get?_nextId] at hexists
      cases hexists

/-- The written node is sound if its sub-tasks are, without the node below them. Below it there is
nothing but itself and what is below its sub-tasks. -/
theorem soundAt_splice (hn : g.get? task = some n)
    (hsub : ∀ a, some a ∈ (n.withSlot slot sub).subTasks → g.SoundAt a ∧ ¬ g.Reaches a task) :
    (splice copied task n slot sub g).2.SoundAt (splice copied task n slot sub g).1 ∧
      ∀ b, (splice copied task n slot sub g).2.Reaches (splice copied task n slot sub g).1 b →
        b = (splice copied task n slot sub g).1 ∨
          ∃ a, some a ∈ (n.withSlot slot sub).subTasks ∧ g.Reaches a b := by
  have hnode := get?_splice copied slot sub hn
  have hagree : ∀ a, some a ∈ (n.withSlot slot sub).subTasks → ∀ b, g.Reaches a b →
      (splice copied task n slot sub g).2.get? b = g.get? b := fun a ha _ hab =>
    get?_splice_of_reaches copied slot sub (hsub a ha).1 (hsub a ha).2 hab
  constructor
  · refine soundAt_of_subTasks (hnode ▸ rfl) fun a ha => ?_
    have hmem := (hasSubTask_iff hnode).mp ha
    refine ⟨(hsub a hmem).1.of_agree (hagree a hmem), fun hback => ?_⟩
    have hback' := (reaches_iff_of_agree (hagree a hmem)).mp hback
    exact ne_splice_of_reaches copied slot sub (hsub a hmem).1 (hsub a hmem).2 hback' rfl
  · intro b hb
    rcases hb.cases_head with rfl | ⟨a, ha, hab⟩
    · exact Or.inl rfl
    · have hmem := (hasSubTask_iff hnode).mp ha
      exact Or.inr ⟨a, hmem, (reaches_iff_of_agree (hagree a hmem)).mp hab⟩

end Splice

/-! ## Visits -/

variable {σ : Type} {maxSteps : Nat} {rules : List (Member σ)} {w₀ w w' : Workspace σ}
  {v₀ v seen : TaskView} {child : TaskId} {copied : Bool} {slot : Nat}

theorem Descends.hasSubTask (h : Descends v w task slot child) : w.graph.HasSubTask task child := by
  obtain ⟨n, hn, hslot⟩ := h.slot_eq
  exact ⟨n, hn, List.mem_of_getElem? hslot⟩

/-- What is given to the visit of a sub-task. -/
theorem Descends.wellFormed {given : List TaskId} (h : Descends v w task slot child)
    (hv : w₀.graph.Regrafts given w.graph v.task.toList) :
    w.graph.WellFormed (v.ofChild child).task.toList := by
  intro root hroot
  obtain rfl : root = child := by simpa [TaskView.ofChild] using hroot
  have htask : w.graph.SoundAt task := hv.sound task (by simp [h.task_eq])
  exact htask.subTask h.hasSubTask

/-- A node that receives what came of a sub-task keeps the contract, and it is a new node. -/
theorem regrafts_splice {given : List TaskId} (hdescends : Descends v w task slot child)
    (hv : w₀.graph.Regrafts given w.graph v.task.toList)
    (hcopied : copied = true → w₀.graph.get? task = none)
    (hseen : w.graph.Regrafts [child] w'.graph seen.task.toList)
    (hn : w'.graph.get? task = some n) :
    let written := splice copied task n slot seen.task w'.graph
    w₀.graph.Regrafts given written.2 [written.1] ∧ w₀.graph.get? written.1 = none := by
  intro written
  have htask : w.graph.SoundAt task := hv.sound task (by simp [hdescends.task_eq])
  have hchild := hdescends.hasSubTask
  obtain ⟨n', hn', _⟩ := hdescends.slot_eq
  obtain rfl : n' = n := Option.some.inj ((hseen.grows _ _ hn').symm.trans hn)
  -- a slot holds what it held, or what came back
  have hslots : ∀ a, some a ∈ (n'.withSlot slot seen.task).subTasks →
      w.graph.HasSubTask task a ∨ seen.task = some a := by
    intro a ha
    rcases List.mem_or_eq_of_mem_set ha with hold | hnew
    · exact Or.inl ⟨n', hn', hold⟩
    · exact Or.inr hnew.symm
  have hsub : ∀ a, some a ∈ (n'.withSlot slot seen.task).subTasks →
      w'.graph.SoundAt a ∧ ¬ w'.graph.Reaches a task := by
    intro a ha
    rcases hslots a ha with hold | hnew
    · have hs := htask.subTask hold
      exact ⟨hseen.grows.soundAt hs, fun hback =>
        htask.not_reaches hold ((hseen.grows.reaches_iff hs).mp hback)⟩
    · have hmem : a ∈ seen.task.toList := by simp [hnew]
      refine ⟨hseen.sound a hmem, fun hback => ?_⟩
      rcases hseen.origin a hmem task hback with hyoung | ⟨c, hc, hback'⟩
      · rw [hn'] at hyoung
        cases hyoung
      · obtain rfl : c = child := by simpa using hc
        exact htask.not_reaches hchild hback'
  obtain ⟨hsound, hbelow⟩ := soundAt_splice copied slot seen.task hn hsub
  have hnew : w₀.graph.get? written.1 = none := by
    cases copied with
    | true => exact hcopied rfl
    | false => exact (hv.grows.trans hseen.grows).eq_none (get?_nextId _)
  refine ⟨⟨?_, by simpa [wellFormed_iff] using hsound, ?_⟩, hnew⟩
  · cases copied with
    | true =>
        intro id m hm
        have hne : id ≠ task := by
          rintro rfl
          rw [hcopied rfl] at hm
          cases hm
        exact (get?_modify_of_ne hne _).trans (hseen.grows _ _ (hv.grows _ _ hm))
    | false => exact (hv.grows.trans hseen.grows).trans (.insert _ _)
  · intro root hroot b hb
    obtain rfl : root = written.1 := by simpa using hroot
    rcases hbelow b hb with rfl | ⟨a, ha, hab⟩
    · exact Or.inl hnew
    · have htaskmem : task ∈ v.task.toList := by simp [hdescends.task_eq]
      rcases hslots a ha with hold | hback
      · have hs := htask.subTask hold
        have hreach := (hseen.grows.reaches_iff hs).mp hab
        exact hv.origin task htaskmem b (.head hold hreach)
      · rcases hseen.origin a (by simp [hback]) b hab with hyoung | ⟨c, hc, hcb⟩
        · exact Or.inl (hv.grows.eq_none hyoung)
        · obtain rfl : c = child := by simpa using hc
          exact hv.origin task htaskmem b (.head hchild hcb)

/-- A visit keeps the contract, and the copies it took are new nodes. -/
theorem Course.regrafts (hrules : ∀ m ∈ rules, m.rule.Regrafts)
    (h : Course maxSteps rules w₀ v₀ copied v w) (hgiven : w₀.graph.WellFormed v₀.task.toList) :
    w₀.graph.Regrafts v₀.task.toList w.graph v.task.toList ∧
      (copied = true → ∀ task ∈ v.task, w₀.graph.get? task = none) := by
  induction h with
  | enter => exact ⟨.refl hgiven, nofun⟩
  | call _ hmember _ hreturns ih =>
      have hbefore := (ih hgiven).1
      exact ⟨hbefore.trans ((hrules _ hmember).task _ hbefore.sound hreturns), nofun⟩
  | keep _ hdescends _ _ ih ihBelow =>
      obtain ⟨hbefore, hcopies⟩ := ih hgiven
      have hbelow := (ihBelow (hdescends.wellFormed hbefore)).1
      exact ⟨hbefore.extend hbelow.grows, hcopies⟩
  | splice _ hdescends _ _ hn _ ih ihBelow =>
      obtain ⟨hbefore, hcopies⟩ := ih hgiven
      have hbelow := (ihBelow (hdescends.wellFormed hbefore)).1
      have hspliced := regrafts_splice hdescends hbefore
        (fun hcopied => hcopies hcopied _ hdescends.task_eq) hbelow hn
      refine ⟨hspliced.1, fun _ task htask => ?_⟩
      obtain rfl := Option.some.inj htask
      exact hspliced.2
  | spend _ _ ih => exact ih hgiven

/-- A visit that was broken off by the budget or the limit has only added nodes. -/
theorem Aborted.grows (hrules : ∀ m ∈ rules, m.rule.Regrafts) {stop : Stop}
    (h : Aborted maxSteps rules w₀ v₀ stop w) (hgiven : w₀.graph.WellFormed v₀.task.toList)
    (hstop : ∀ f, stop ≠ .fault f) : w₀.graph.Extends w.graph := by
  induction h with
  | limit hcourse | exhausted hcourse => exact (hcourse.regrafts hrules hgiven).1.grows
  | inside hcourse hdescends _ ih =>
      have hbefore := (hcourse.regrafts hrules hgiven).1
      exact hbefore.grows.trans (ih (hdescends.wellFormed hbefore) hstop)
  | missing | raised | unwritten => exact absurd rfl (hstop _)

end Visit

/-! ## The whole optimization -/

variable {σ : Type} {setup : Setup σ} {a b : Situation σ}

/-- The entries are sound, unless the optimization ended with a fault. -/
def Situation.Sound (a : Situation σ) : Prop :=
  (a.phase = .stopped → ∀ f, a.sweep.stopped ≠ some (.fault f)) →
    ∀ task, some task ∈ a.list → a.work.graph.SoundAt task

namespace Sweep

variable {step : Step σ} {before after : List (Option TaskId)} {task : TaskId}
  {seen : TaskView} {w w' : Workspace σ} {stop : Stop} {s : Sweep}

/-- What came of an entry is sound in its place, and the other entries stay sound. -/
theorem sound_of_entryOutcome (hrules : ∀ m ∈ step.members, m.rule.Regrafts)
    (h : entryOutcome setup step before after task w = (.ok seen, w'))
    (hlist : ∀ id, some id ∈ before.reverse ++ some task :: after → w.graph.SoundAt id) :
    ∀ id, some id ∈ before.reverse ++ (seen.task.toList.map some ++ after) →
      w'.graph.SoundAt id := by
  obtain ⟨copied, hcourse⟩ := (Visit.ensures_visit _ _ _ _ _ _).of_outcome h
  have htask : w.graph.SoundAt task := hlist task (by simp)
  have hvisit := (hcourse.regrafts hrules (by simpa [TaskView.ofEntry, Graph.wellFormed_iff])).1
  intro id hid
  simp only [List.mem_append, List.mem_map, Option.some.injEq, exists_eq_right] at hid
  rcases hid with hid | hid | hid
  · exact hvisit.grows.soundAt (hlist id (by simp [hid]))
  · exact hvisit.sound id hid
  · exact hvisit.grows.soundAt (hlist id (by simp [hid]))

/-- A visit that was broken off by the budget or the limit leaves all entries sound. -/
theorem sound_of_entryOutcome_error (hrules : ∀ m ∈ step.members, m.rule.Regrafts)
    (h : entryOutcome setup step before after task w = (.error stop, w'))
    (hstop : ∀ f, stop ≠ .fault f)
    (hlist : ∀ id, some id ∈ before.reverse ++ some task :: after → w.graph.SoundAt id) :
    ∀ id, some id ∈ before.reverse ++ some task :: after → w'.graph.SoundAt id := by
  have haborted : Visit.Aborted setup.maxSteps step.members w _ stop w' :=
    (Visit.ensures_visit _ _ _ _ _ _).of_outcome h
  have htask : w.graph.SoundAt task := hlist task (by simp)
  have hgrows := haborted.grows hrules (by simpa [TaskView.ofEntry, Graph.wellFormed_iff]) hstop
  exact fun id hid => hgrows.soundAt (hlist id hid)

theorem Move.sound (hrules : ∀ c, ∀ id ∈ setup.registry.rules c, (setup.rules id).Regrafts)
    (hstands : a.Stands setup) (ha : a.Sound) (h : Move setup a b) : b.Sound := by
  have hbefore := ha (fun hphase => absurd hphase h.phase_ne_stopped)
  cases h with
  | call hclean hlist hreturns =>
      have hcall := (hstands.1.forall_members hrules _ (hstands.2 (List.mem_cons_self ..))).list _
        (Graph.wellFormed_filterMap.mpr hbefore) hreturns
      exact fun _ => Graph.wellFormed_filterMap.mp hcall.sound
  | raise => exact fun hfault => absurd rfl (hfault rfl _)
  | unlogged => exact fun hfault => absurd rfl (hfault rfl _)
  | hole =>
      refine fun _ id hid => hbefore id ?_
      simp only [Situation.list, List.mem_append, List.mem_cons] at hid ⊢
      exact hid.imp_right Or.inr
  | visit hclean houtcome =>
      have hvisited := sound_of_entryOutcome (hstands.1.forall_members hrules) houtcome hbefore
      refine fun _ id hid => hvisited id ?_
      simp only [Situation.list, List.reverse_append, List.mem_append, List.mem_reverse] at hid ⊢
      grind
  | revisit hclean houtcome hrepeats hnew | unrepeated hclean houtcome hrepeats hnew =>
      have hvisited := sound_of_entryOutcome (hstands.1.forall_members hrules) houtcome hbefore
      rw [hnew] at hvisited
      exact fun _ => hvisited
  | abort hclean houtcome =>
      intro hfault
      have hstop := fun f hf => hfault rfl f (congrArg some hf)
      exact sound_of_entryOutcome_error (hstands.1.forall_members hrules) houtcome hstop hbefore
  | finish => exact fun _ id hid => hbefore id (List.mem_append_left _ hid)
  | spend | exhausted | rewind | advance | settle | restart | begin | beginLogged | skip | descend
  | finishList | cutList | cut => exact fun _ => hbefore

end Sweep

/-- **Well-formed lists stay well-formed.** If every rule keeps the contract and the trees of a list
pass the check before the optimization, the trees of the list that it leaves behind pass it in the
graph that it leaves behind, also when the budget or the limit on visits ended it. -/
theorem Setup.check_optimize (setup : Setup σ) (user : σ) {graph : Graph}
    {list : List (Option TaskId)}
    (hrules : ∀ c, ∀ id ∈ setup.registry.rules c, (setup.rules id).Regrafts)
    (hcheck : graph.check (list.filterMap id) = .ok ())
    (hresult : ∀ f, (setup.optimize user graph list).result ≠ .error (.fault f)) :
    (setup.optimize user graph list).graph.check
      ((setup.optimize user graph list).list.filterMap id) = .ok () := by
  rw [Graph.check_eq_ok_iff, Graph.wellFormed_filterMap] at hcheck ⊢
  have hstart : (start user graph list).Sound := fun _ => hcheck
  rcases setup.optimize_invariant user graph list hstart
      (fun _ _ => Sweep.Move.sound hrules) with
    ⟨s, w, hsound, _, heq⟩ | ⟨s, w, stop, hsound, hstop, heq⟩
  · rw [heq]
    intro task htask
    exact hsound nofun task (List.mem_filter.mp htask).1
  · rw [heq] at hresult ⊢
    refine hsound fun _ f hf => hresult f ?_
    rw [Option.some.inj (hstop.symm.trans hf)]

/-! ### Unwrapping

The rule is called below a node that keeps its other sub-tasks, so the driver copies that node and
writes both slots of the copy. -/

/-- A rule that puts the only sub-task of a task in the place of the task. -/
def Rule.unwrapping : Rule Unit where
  name := "unwrap"
  descriptor :=
    { Descriptor.ofCategory .common with forTask := true, affects := Category.common.mask }
  runTask c := { call := match c.view.task.map c.graph.slots with
    | some [some sub] => { c with view := { c.view with task := some sub } }
    | _ => c }

theorem Rule.regrafts_unwrapping : Rule.unwrapping.Regrafts where
  list c hgiven _ := .refl hgiven
  task c hgiven _ := by
    dsimp only [Rule.unwrapping]
    split
    · next sub hslots =>
        obtain ⟨task, htask, hslots⟩ := Option.map_eq_some_iff.mp hslots
        have hs : c.graph.SoundAt task := hgiven task (by simp [htask])
        obtain ⟨n, hn⟩ := hs.exists_node
        simp only [Graph.slots, hn] at hslots
        have hsub : c.graph.HasSubTask task sub := ⟨n, hn, by simp [hslots]⟩
        refine ⟨.refl _, ?_, ?_⟩
        · simpa [Graph.wellFormed_iff] using hs.subTask hsub
        · simp only [Option.toList_some, List.mem_singleton, forall_eq, htask, exists_eq_left]
          exact fun b hb => Or.inr (.head hsub hb)
    · exact .refl hgiven

/-- The rule alone. -/
def unwrappingSetup : Setup Unit where
  rules _ := .unwrapping
  registry := ⟨fun c => if c = .common then [⟨0⟩] else []⟩
  maxSteps := 64
  logSteps := false
  visitLimit := 8

/-- A task, a wrapper of it, and a node that has the wrapper twice. -/
def wrappedGraph : Graph :=
  let node (subs : List (Option TaskId)) : Node :=
    { Node.ofKind ⟨0, "image", none, {}⟩ with subTasks := subs }
  ⟨#[node [], node [some ⟨0⟩], node [some ⟨1⟩, none, some ⟨1⟩]]⟩

theorem Setup.check_optimize_unwrapping :
    let o := unwrappingSetup.optimize () wrappedGraph [some ⟨2⟩, none, some ⟨1⟩]
    o.list = [some ⟨3⟩, some ⟨0⟩] ∧ o.graph.slots ⟨3⟩ = [some ⟨0⟩, none, some ⟨0⟩] ∧
      o.graph.check (o.list.filterMap id) = .ok () := by
  intro o
  have hresult : o.result.toOption.isSome = true := by decide +kernel
  refine ⟨by decide +kernel, by decide +kernel, ?_⟩
  refine unwrappingSetup.check_optimize () (fun _ _ _ => Rule.regrafts_unwrapping) ?_ ?_
  · exact Graph.check_eq_ok_iff.mpr (Graph.wellFormed_of_older (by decide) (by decide))
  · intro f hf
    rw [show o.result = .error (.fault f) from hf] at hresult
    cases hresult

end RenderPlan
