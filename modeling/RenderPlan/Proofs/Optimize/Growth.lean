/-
# RenderPlan.Proofs.Optimize.Growth -- an optimization only adds nodes

A rule is additive if its calls change no node that existed before the call; what it does to nodes
that it added itself is its own affair. Trees may share nodes to any extent, and nothing is said
about their soundness: a node that is missing ends the optimization, but it changes nothing.

The driver writes into nodes, too. A changed sub-task is written into the node above it, and that is
harmless because the node is a copy that the same visit took: while a visit is at a copy, the task
that it is at did not exist when the visit began (`Visit.Course.only_adds`). A rule that is called
in between may put an older node in the place of the copy, and then the next changed sub-task takes
a new copy.

So between the beginning and the end of every visit, and of the whole optimization, nodes are only
added (`Setup.optimize_only_adds`), however the visit or the optimization ends.
-/
import RenderPlan.Proofs.Optimize.Standing

namespace RenderPlan

variable {σ : Type}

/-! ## Graphs that grow -/

/-- A graph that keeps every node of another one is the other one with nodes behind it. -/
theorem Graph.Extends.exists_append {g g' : Graph} (h : g.Extends g') :
    ∃ added, g'.nodes = g.nodes ++ added := by
  have hkept : ∀ i (hi : i < g.nodes.size), g'.nodes[i]? = some g.nodes[i] := by
    intro i hi
    exact h ⟨i⟩ g.nodes[i] (Array.getElem?_eq_getElem hi)
  refine ⟨g'.nodes.extract g.nodes.size, ?_⟩
  apply Array.ext_getElem?
  intro i
  rw [Array.getElem?_append]
  split
  · next hi => rw [hkept i hi, Array.getElem?_eq_getElem hi]
  · next hi =>
      rw [Array.getElem?_extract]
      have hback : g.nodes.size + (i - g.nodes.size) = i := by omega
      rw [hback]
      split
      · rfl
      · next hout => exact Array.getElem?_eq_none (by omega)

theorem Graph.Extends.size_le {g g' : Graph} (h : g.Extends g') : g.size ≤ g'.size := by
  obtain ⟨added, hadded⟩ := h.exists_append
  simp [Graph.size, hadded]

/-- The next id of a graph means nothing in a smaller one. -/
theorem Graph.get?_nextId_of_le {g g' : Graph} (h : g.size ≤ g'.size) : g.get? g'.nextId = none :=
  Array.getElem?_eq_none h

/-- The calls of the rule change no node that existed before, also when the rule gives up. -/
structure Rule.Additive (r : Rule σ) : Prop where
  task : ∀ c : TaskCall σ, c.graph.Extends (r.runTask c).call.graph
  list : ∀ c : ListCall σ, c.graph.Extends (r.runList c).call.graph

namespace Visit

/-! ## Visits -/

variable {maxSteps : Nat} {rules : List (Member σ)} {w₀ w : Workspace σ} {v₀ v : TaskView}
  {copied : Bool} {stop : Stop}

/-- Writing a sub-task changes no node that existed before the copy was taken. -/
theorem splice_only_adds {g g' : Graph} {task : TaskId} (n : Node) (slot : Nat)
    (sub : Option TaskId) (hgrows : g.Extends g')
    (hcopied : copied = true → g.get? task = none) :
    g.Extends (splice copied task n slot sub g').2 ∧
      g.get? (splice copied task n slot sub g').1 = none := by
  cases copied with
  | true =>
      have hnew := hcopied rfl
      refine ⟨?_, hnew⟩
      intro id m hm
      have hne : id ≠ task := by
        rintro rfl
        rw [hnew] at hm
        cases hm
      show (g'.modify task (Node.withSlot slot sub)).get? id = some m
      rw [Graph.get?_modify_of_ne hne]
      exact hgrows id m hm
  | false => exact ⟨hgrows.trans (.insert _ _), hgrows.eq_none (Graph.get?_nextId g')⟩

/-- Along its course a visit only adds nodes, and the copies it took are among them. -/
theorem Course.only_adds (hrules : ∀ m ∈ rules, m.rule.Additive)
    (h : Course maxSteps rules w₀ v₀ copied v w) :
    w₀.graph.Extends w.graph ∧
      (copied = true → ∀ task ∈ v.task, w₀.graph.get? task = none) := by
  induction h with
  | enter => exact ⟨.refl _, nofun⟩
  | @call _ _ _ v w m _ hmember _ _ ih =>
      have hcall : w.graph.Extends (workspaceAfter m v w).graph :=
        (hrules m hmember).task ⟨w.user, w.graph, v⟩
      exact ⟨ih.1.trans hcall, nofun⟩
  | keep _ _ _ _ ih ihBelow => exact ⟨ih.1.trans ihBelow.1, ih.2⟩
  | @splice w₀ _ _ _ _ task slot _ _ seen _ n _ hdescends _ _ _ _ ih ihBelow =>
      have hcopied := fun hcopied => ih.2 hcopied task hdescends.task_eq
      have hwritten := splice_only_adds n slot seen.task (ih.1.trans ihBelow.1) hcopied
      refine ⟨hwritten.1, ?_⟩
      intro _ task htask
      obtain rfl := Option.some.inj htask
      exact hwritten.2
  | spend _ _ ih => exact ih

/-- A visit that was broken off has only added nodes, too. -/
theorem Aborted.only_adds (hrules : ∀ m ∈ rules, m.rule.Additive)
    (h : Aborted maxSteps rules w₀ v₀ stop w) : w₀.graph.Extends w.graph := by
  induction h with
  | limit hcourse | missing hcourse | exhausted hcourse => exact (hcourse.only_adds hrules).1
  | @raised _ _ _ v w m _ hcourse hmember =>
      have hcall : w.graph.Extends (workspaceAfter m v w).graph :=
        (hrules m hmember).task ⟨w.user, w.graph, v⟩
      exact (hcourse.only_adds hrules).1.trans hcall
  | inside hcourse _ _ ih => exact (hcourse.only_adds hrules).1.trans ih
  | unwritten hcourse _ hbelow hgrown =>
      have hbefore := (hcourse.only_adds hrules).1
      exact (hbefore.trans (hbelow.only_adds hrules).1).trans hgrown

/-- However a visit ends, it has only added nodes. -/
theorem visit_only_adds (hrules : ∀ m ∈ rules, m.rule.Additive) (deep : Bool) (limit : Nat)
    (w : Workspace σ) (v : TaskView) :
    w.graph.Extends ((visit maxSteps rules deep limit v).outcome w).2.graph := by
  have hvisit := ensures_visit maxSteps rules deep limit w v
  unfold Work.Ensures at hvisit
  revert hvisit
  rcases (visit maxSteps rules deep limit v).outcome w with ⟨stop | seen, w'⟩
  · intro haborted
    exact Aborted.only_adds hrules haborted
  · rintro ⟨copied, hcourse⟩
    exact (hcourse.only_adds hrules).1

end Visit

namespace Sweep

/-! ## Sweeps -/

variable {setup : Setup σ} {a b : Situation σ}

theorem Move.only_adds (hrules : ∀ c, ∀ id ∈ setup.registry.rules c, (setup.rules id).Additive)
    (hstands : a.Stands setup) (h : Move setup a b) : a.work.graph.Extends b.work.graph := by
  -- what comes of the visit of an entry stands in the workspace that the visit left behind
  have hentry : ∀ {step : Step σ} {before after : List (Option TaskId)} {task : TaskId}
      {r : Except Stop TaskView} {w w' : Workspace σ}, a.sweep.Stepping setup step →
      entryOutcome setup step before after task w = (r, w') → w.graph.Extends w'.graph := by
    intro step before after task r w w' hstep houtcome
    have hvisit : w.graph.Extends (entryOutcome setup step before after task w).2.graph :=
      Visit.visit_only_adds (hstep.forall_members hrules) step.forTask setup.visitLimit w _
    rw [houtcome] at hvisit
    exact hvisit
  cases h with
  | @call s w step m | @raise s w step m =>
      have hrule := hstands.1.forall_members hrules m (hstands.2 (List.mem_cons_self ..))
      exact hrule.list ⟨w.user, w.graph, s.list, step.gate, ∅⟩
  | visit _ houtcome | revisit _ houtcome | unrepeated _ houtcome | abort _ houtcome =>
      have hgrows := hentry hstands.1 houtcome
      exact hgrows
  | _ => exact .refl _

end Sweep

/-- **An optimization only adds nodes.** If the calls of the registered rules change no node that
existed before the call, every node of the graph is still there afterwards, under its id and as it
was, however the optimization ended; the new nodes stand behind the old ones. The same holds of
every visit with rules of one category, from whatever workspace it begins. -/
theorem Setup.optimize_only_adds (setup : Setup σ)
    (hrules : ∀ c, ∀ id ∈ setup.registry.rules c, (setup.rules id).Additive)
    (user : σ) (graph : Graph) (list : List (Option TaskId)) :
    let o := setup.optimize user graph list
    (∀ id n, graph.get? id = some n → o.graph.get? id = some n) ∧
      (∃ added, o.graph.nodes = graph.nodes ++ added) ∧
      ∀ c, ∀ members ⊆ Sweep.members setup c, ∀ deep limit w v id n,
        w.graph.get? id = some n →
        ((Visit.visit setup.maxSteps members deep limit v).outcome w).2.graph.get? id = some n := by
  intro o
  have hgrows : graph.Extends o.graph := by
    rcases setup.optimize_invariant user graph list
        (I := fun a => graph.Extends a.work.graph) (.refl graph)
        (fun _ _ hstands hbefore hmove => hbefore.trans (hmove.only_adds hrules hstands)) with
      ⟨s, w, hgrown, _, heq⟩ | ⟨s, w, stop, hgrown, _, heq⟩
    · show graph.Extends (setup.optimize user graph list).graph
      rw [heq]
      exact hgrown
    · show graph.Extends (setup.optimize user graph list).graph
      rw [heq]
      exact hgrown
  refine ⟨hgrows, hgrows.exists_append, ?_⟩
  intro c members hmembers deep limit w v
  have hadditive : ∀ m ∈ members, m.rule.Additive := by
    intro m hm
    obtain ⟨hid, hrule⟩ := Sweep.mem_members.mp (hmembers hm)
    rw [hrule]
    exact hrules c m.id hid
  exact Visit.visit_only_adds hadditive deep limit w v

/-! ### Replacing a shared leaf

Two entries of the list share a leaf, and one of them has it in two slots. The rule replaces the
leaf wherever it meets it, so each of the two entries is copied, once. -/

/-- A rule that puts a new node of the kind `done` in the place of a task of another kind. -/
def Rule.finishing : Rule Unit where
  name := "finish"
  descriptor :=
    { Descriptor.ofCategory .common with forTask := true, affects := Category.common.mask }
  runTask c := { call := match c.view.task.bind c.graph.get? with
    | some n =>
      if n.name = "done" then c
      else
        { c with
          graph := c.graph.insertNew { n with kind := { n.kind with name := "done" } }
          view := { c.view with task := some c.graph.nextId } }
    | none => c }

theorem Rule.additive_finishing : Rule.finishing.Additive where
  list _ := .refl _
  task c := by
    dsimp only [Rule.finishing]
    split
    · split
      · exact .refl _
      · exact .insert _ _
    · exact .refl _

/-- The rule alone. -/
def finishingSetup : Setup Unit where
  rules _ := .finishing
  registry := ⟨fun c => if c = .common then [⟨0⟩] else []⟩
  maxSteps := 64
  logSteps := false
  visitLimit := 8

/-- A leaf, a node that has it twice, and a node that has both. -/
def leafGraph : Graph :=
  let node (name : String) (subs : List (Option TaskId)) : Node :=
    { Node.ofKind ⟨0, name, none, {}⟩ with subTasks := subs }
  ⟨#[node "raw" [], node "done" [some ⟨0⟩, none, some ⟨0⟩], node "done" [some ⟨0⟩, some ⟨1⟩]]⟩

theorem Setup.optimize_only_adds_finishing :
    (finishingSetup.optimize () leafGraph [some ⟨1⟩, some ⟨2⟩]).list = [some ⟨4⟩, some ⟨7⟩] ∧
      (∃ added : Array Node, (finishingSetup.optimize () leafGraph
        [some ⟨1⟩, some ⟨2⟩]).graph.nodes = leafGraph.nodes ++ added) ∧
      (finishingSetup.optimize () leafGraph [some ⟨1⟩, some ⟨2⟩]).graph.slots ⟨1⟩ =
        [some ⟨0⟩, none, some ⟨0⟩] := by
  have hadds := finishingSetup.optimize_only_adds (fun _ _ _ => Rule.additive_finishing) ()
    leafGraph [some ⟨1⟩, some ⟨2⟩]
  refine ⟨by decide +kernel, hadds.2.1, ?_⟩
  have hnode := hadds.1 ⟨1⟩ _ (by rfl : leafGraph.get? ⟨1⟩ = some _)
  rw [Graph.slots, hnode]
  rfl

end RenderPlan
