/-
# RenderPlan.Proofs.Render.Ownership -- contexts own their pools, and renderers outlive them

A `World` has any number of pools, contexts and renderers. Whoever holds a context opens it, makes
renderers, registers them under names, takes names out and drops the context; besides, clients and
workers do whatever they can on any pool. Two things are said about every course of events.

What a context lists is what a map from names to renderers says that takes note of the requests that
were granted (`roster`), with the names in the order of their bytes; and all that it lists works on its
own pool. So dropping the context, which closes this pool, puts every renderer to rest that it made or
ever listed (`Retired`): a closed pool refuses each batch and begins no job any more, whatever else
happens.
-/
import Mathlib.Data.List.Induction
import Mathlib.Logic.Function.Basic
import RenderPlan.Proofs.Queue.Shutdown
import RenderPlan.Proofs.Render.Failures
import RenderPlan.Proofs.Text.ByteOrder
import RenderPlan.Render.Context

namespace RenderPlan

variable {σ π : Type}

/-! ## Names of one context -/

namespace Context

variable {c : Context} {name : String} {r : Renderer} {named : String → Option Renderer}
  {l : List (String × Renderer)}

/-- The context lists what the map says, in the order of the bytes of the names, and all of it works
on its own pool. -/
structure Keeps (c : Context) (named : String → Option Renderer) : Prop where
  lookup : ∀ name, c.get? name = named name
  listed : ∀ name r, (name, r) ∈ c.renderers ↔ named name = some r
  ordered : (c.renderers.map fun e => Text.bytes e.1).Pairwise (· < ·)
  bound : ∀ e ∈ c.renderers, e.2.queue = c.queue

/-- The names stand in increasing order. -/
def Ascending (l : List (String × Renderer)) : Prop := l.Pairwise fun a b => a.1 < b.1

theorem lookup_cons_eq (e : String × Renderer) (l : List (String × Renderer)) (other : String) :
    (e :: l).lookup other = if other = e.1 then some e.2 else l.lookup other := by
  rw [List.lookup_cons]
  by_cases heq : other = e.1
  · rw [if_pos heq, beq_iff_eq.mpr heq]
  · rw [if_neg heq, beq_false_of_ne heq]

theorem lookup_cons_eq_none {e : String × Renderer} (h : (e :: l).lookup name = none) :
    name ≠ e.1 ∧ l.lookup name = none := by
  rw [lookup_cons_eq] at h
  split at h
  · cases h
  · exact ⟨‹_›, h⟩

theorem lookup_insertSorted (hfree : l.lookup name = none) (other : String) :
    (insertSorted name r l).lookup other = if other = name then some r else l.lookup other := by
  induction l with
  | nil => rw [insertSorted, lookup_cons_eq]
  | cons e l ih =>
      obtain ⟨hne, hfree⟩ := lookup_cons_eq_none hfree
      rw [insertSorted]
      split
      · rw [lookup_cons_eq]
      · rw [lookup_cons_eq, lookup_cons_eq, ih hfree]
        by_cases hother : other = e.1
        · rw [if_pos hother, if_neg (hother ▸ hne.symm), if_pos hother]
        · rw [if_neg hother, if_neg hother]

theorem mem_insertSorted {e : String × Renderer} :
    e ∈ insertSorted name r l ↔ e = (name, r) ∨ e ∈ l := by
  induction l with
  | nil => simp [insertSorted]
  | cons a l ih =>
      rw [insertSorted]
      split
      · rw [List.mem_cons]
      · rw [List.mem_cons, ih, List.mem_cons]
        tauto

theorem Ascending.insertSorted (h : Ascending l) (hfree : l.lookup name = none) :
    Ascending (insertSorted name r l) := by
  induction l with
  | nil => exact List.pairwise_singleton ..
  | cons e l ih =>
      obtain ⟨hhead, hrest⟩ := List.pairwise_cons.mp h
      obtain ⟨hne, hfree⟩ := lookup_cons_eq_none hfree
      rw [Context.insertSorted]
      split
      · next hlt =>
          refine List.pairwise_cons.mpr ⟨fun a ha => ?_, h⟩
          rcases List.mem_cons.mp ha with rfl | ha
          · exact hlt
          · exact lt_trans hlt (hhead a ha)
      · next hnot =>
          refine List.pairwise_cons.mpr ⟨fun a ha => ?_, ih hrest hfree⟩
          rcases mem_insertSorted.mp ha with rfl | ha
          · exact lt_of_le_of_ne (not_lt.mp hnot) hne.symm
          · exact hhead a ha

theorem lookup_filter_ne (name other : String) :
    (l.filter fun e => e.1 ≠ name).lookup other =
      if other = name then none else l.lookup other := by
  induction l with
  | nil => simp
  | cons e l ih =>
      rw [List.filter_cons]
      by_cases hname : e.1 = name
      · rw [if_neg (by simpa using hname), ih, lookup_cons_eq, hname]
        split <;> rfl
      · rw [if_pos (by simpa using hname), lookup_cons_eq, lookup_cons_eq, ih]
        by_cases hother : other = e.1
        · rw [if_pos hother, if_neg (hother ▸ hname), if_pos hother]
        · rw [if_neg hother, if_neg hother]

/-- Where the names are in order, a name stands for what is listed with it. -/
theorem mem_iff_lookup (h : Ascending l) : (name, r) ∈ l ↔ l.lookup name = some r := by
  induction l with
  | nil => simp
  | cons e l ih =>
      obtain ⟨hhead, hrest⟩ := List.pairwise_cons.mp h
      rw [List.mem_cons, lookup_cons_eq]
      by_cases hname : name = e.1
      · subst hname
        have hout : (e.1, r) ∉ l := fun hmem => lt_irrefl _ (hhead (e.1, r) hmem)
        simp [Prod.ext_iff, hout, eq_comm]
      · simp [Prod.ext_iff, hname, ih hrest]

/-- What is needed for a context to keep a map. -/
theorem keeps_of_lookup (hlookup : ∀ name, c.get? name = named name)
    (hordered : Ascending c.renderers) (hbound : ∀ e ∈ c.renderers, e.2.queue = c.queue) :
    c.Keeps named where
  lookup := hlookup
  listed name r := by rw [mem_iff_lookup hordered, ← hlookup, get?]
  ordered := List.pairwise_map.mpr (hordered.imp Text.lt_iff_bytes_lt.mp)
  bound := hbound

theorem Keeps.ascending (h : c.Keeps named) : Ascending c.renderers :=
  (List.pairwise_map.mp h.ordered).imp Text.lt_iff_bytes_lt.mpr

theorem keeps_of_nil (h : c.renderers = []) : c.Keeps fun _ => none := by
  refine keeps_of_lookup (fun name => ?_) ?_ ?_
  · rw [get?, h]
    rfl
  · rw [h]
    exact .nil
  · rw [h]
    exact nofun

/-- A registration, in the three cases of its answer. -/
theorem Keeps.register_eq (h : c.Keeps named) (name : String) (r : Renderer) :
    c.register name r =
      if (named name).isSome then .error (.duplicateRenderer name)
      else if r.queue = c.queue then
        .ok { c with renderers := insertSorted name r c.renderers }
      else .error (.foreignRenderer name) := by
  rw [register, h.lookup]

theorem Keeps.insert (h : c.Keeps named) (hfree : named name = none) (hr : r.queue = c.queue) :
    Keeps { c with renderers := insertSorted name r c.renderers }
      (Function.update named name (some r)) := by
  have hlookup : c.renderers.lookup name = none := (h.lookup name).trans hfree
  refine keeps_of_lookup (fun other => ?_) (h.ascending.insertSorted hlookup) fun e he => ?_
  · rw [get?, lookup_insertSorted hlookup, Function.update_apply, ← h.lookup, get?]
  · rcases mem_insertSorted.mp he with rfl | he
    · exact hr
    · exact h.bound e he

theorem Keeps.erase (h : c.Keeps named) (name : String) :
    Keeps { c with renderers := c.renderers.filter fun e => e.1 ≠ name }
      (Function.update named name none) := by
  refine keeps_of_lookup (fun other => ?_) (h.ascending.filter _) fun e he =>
    h.bound e (List.mem_filter.mp he).1
  rw [get?, lookup_filter_ne, Function.update_apply, ← h.lookup, get?]

end Context

/-! ## Worlds -/

/-- A context that was opened. -/
structure Opened where
  context : Context
  /-- It has not been dropped. -/
  alive : Bool

/-- All pools, contexts and renderers that there ever were. Contexts and renderers are known by their
numbers. -/
structure World (π : Type) where
  pools : List (Pool TaskId π)
  opened : List Opened
  renderers : List Renderer

/-- What can happen in a world. -/
inductive WorldAct (π : Type) where
  /-- Start a pool that no context owns. -/
  | start (available : Nat) (options : QueueOptions)
  /-- Open a context with a pool of its own. -/
  | openContext (available : Nat) (options : QueueOptions)
  /-- Make a renderer on a pool, without a context. -/
  | bind (queue : QueueId) (options : RenderOptions)
  /-- Make a renderer on the pool of a context. -/
  | create (context : Nat) (options : RenderOptions)
  | register (context : Nat) (name : String) (renderer : Nat)
  | unregister (context : Nat) (name : String)
  | unregisterAll (context : Nat)
  /-- Take all names out and close the pool. -/
  | drop (context : Nat)
  /-- Whatever clients and workers do on a pool. -/
  | act (queue : QueueId) (action : Action TaskId π)

/-- What is answered. -/
inductive WorldAnswer where
  | done
  /-- There is no such context, renderer or pool, or it cannot do this now. -/
  | absent
  | refused (e : Error)
  | renderer (r : Renderer)

namespace World

/-- Nothing exists. -/
def empty : World π := ⟨[], [], []⟩

/-- The context of a number, unless it was dropped. -/
def context? (w : World π) (c : Nat) : Option Context :=
  (w.opened[c]?.filter Opened.alive).map Opened.context

/-- The pool of an identity. -/
def pool? (w : World π) (queue : QueueId) : Option (Pool TaskId π) := w.pools[queue.index]?

/-- The world with one more renderer. -/
def made (w : World π) (r : Renderer) : World π × WorldAnswer :=
  ({ w with renderers := w.renderers ++ [r] }, .renderer r)

/-- The world with a changed context. -/
def setContext (w : World π) (c : Nat) (context : Context) : World π :=
  { w with opened := w.opened.set c ⟨context, true⟩ }

/-- What happens, and what is answered. What is refused changes nothing. -/
def perform (w : World π) : WorldAct π → World π × WorldAnswer
  | .start available options =>
    match Pool.create available options with
    | .error e => (w, .refused e)
    | .ok pool => ({ w with pools := w.pools ++ [pool] }, .done)
  | .openContext available options =>
    match Pool.create available options with
    | .error e => (w, .refused e)
    | .ok pool =>
      ({ w with
        pools := w.pools ++ [pool]
        opened := w.opened ++ [⟨.ofQueue ⟨w.pools.length⟩, true⟩] }, .done)
  | .bind queue options =>
    match w.pool? queue with
    | none => (w, .absent)
    | some _ => w.made ⟨w.renderers.length, queue, options⟩
  | .create c options =>
    match w.context? c with
    | none => (w, .absent)
    | some context => w.made (context.createRenderer w.renderers.length options)
  | .register c name i =>
    match w.context? c, w.renderers[i]? with
    | some context, some r =>
      match context.register name r with
      | .error e => (w, .refused e)
      | .ok context => (w.setContext c context, .done)
    | _, _ => (w, .absent)
  | .unregister c name =>
    match w.context? c with
    | none => (w, .absent)
    | some context =>
      match context.unregister name with
      | .error e => (w, .refused e)
      | .ok (r, context) => (w.setContext c context, .renderer r)
  | .unregisterAll c =>
    match w.context? c with
    | none => (w, .absent)
    | some context => (w.setContext c context.unregisterAll, .done)
  | .drop c =>
    match w.context? c with
    | none => (w, .absent)
    | some context =>
      ({ w with
        pools := w.pools.modify context.queue.index fun p => (p.step? .close).getD p
        opened := w.opened.set c ⟨context.unregisterAll, false⟩ }, .done)
  | .act queue action =>
    match (w.pool? queue).bind fun p => p.step? action with
    | none => (w, .absent)
    | some p => ({ w with pools := w.pools.set queue.index p }, .done)

/-- The world after a course of events. -/
def run (w : World π) (acts : List (WorldAct π)) : World π :=
  acts.foldl (fun w a => (w.perform a).1) w

/-- The world after a course of events from the beginning. -/
def after (acts : List (WorldAct π)) : World π := empty.run acts

/-! ### The reference -/

/-- For each context the map from names to renderers. -/
abbrev Roster := Nat → String → Option Renderer

/-- What an event changes in the maps. A name is given if it is free and the renderer works on the
pool of the context. -/
def noted (w : World π) (m : Roster) : WorldAct π → Roster
  | .register c name i =>
    match w.context? c, w.renderers[i]? with
    | some context, some r =>
      if m c name = none ∧ r.queue = context.queue then
        Function.update m c (Function.update (m c) name (some r))
      else m
    | _, _ => m
  | .unregister c name => Function.update m c (Function.update (m c) name none)
  | .unregisterAll c | .drop c => Function.update m c fun _ => none
  | _ => m

/-- The maps after a course of events from the beginning. -/
def roster (acts : List (WorldAct π)) : Roster :=
  (acts.foldl (fun (s : World π × Roster) a => ((s.1.perform a).1, s.1.noted s.2 a))
    (empty, fun _ _ => none)).2

/-- The renderer was made by the context, or registered with it at some time. -/
def Owned (acts : List (WorldAct π)) (c : Nat) (r : Renderer) : Prop :=
  ∃ before a rest, acts = before ++ a :: rest ∧
    ((∃ options, a = .create c options ∧ ((after before).perform a).2 = .renderer r) ∨
      ∃ name i, a = .register c name i ∧ (after before).renderers[i]? = some r ∧
        ((after before).perform a).2 = .done)

/-- The context was dropped. -/
def Dropped (acts : List (WorldAct π)) (c : Nat) : Prop :=
  ∃ before rest, acts = before ++ .drop c :: rest ∧ ((after before).context? c).isSome

/-! ## What happens to contexts and pools in the long run -/

/-- The later world has come out of the earlier one. -/
structure Continues (w w' : World π) : Prop where
  /-- Pools have only made their own steps. -/
  pools : ∀ queue p, w.pool? queue = some p →
    ∃ as p', w'.pool? queue = some p' ∧ p.run? as = some p'
  /-- A context keeps its pool, and does not come back. -/
  opened : ∀ (c : Nat) (o : Opened), w.opened[c]? = some o →
    ∃ o', w'.opened[c]? = some o' ∧ o'.context.queue = o.context.queue ∧
      (o.alive = false → o'.alive = false)

variable {w w' : World π} {m : Roster} {a : WorldAct π} {c : Nat} {context context' : Context}
  {acts : List (WorldAct π)} {r : Renderer}

theorem context?_eq_some : w.context? c = some context ↔ w.opened[c]? = some ⟨context, true⟩ := by
  simp only [context?, Option.map_eq_some_iff, Option.filter_eq_some_iff]
  constructor
  · rintro ⟨⟨_, _⟩, ⟨ho, rfl⟩, rfl⟩
    exact ho
  · intro ho
    exact ⟨_, ⟨ho, rfl⟩, rfl⟩

theorem Continues.refl (w : World π) : w.Continues w where
  pools _ p hp := ⟨[], p, hp, rfl⟩
  opened _ o ho := ⟨o, ho, rfl, id⟩

theorem Continues.trans {w'' : World π} (h : w.Continues w') (h' : w'.Continues w'') :
    w.Continues w'' where
  pools queue p hp := by
    obtain ⟨as, p', hp', hrun⟩ := h.pools queue p hp
    obtain ⟨bs, p'', hp'', hrun'⟩ := h'.pools queue p' hp'
    refine ⟨as ++ bs, p'', hp'', ?_⟩
    rw [Pool.run?_append, hrun]
    exact hrun'
  opened c o ho := by
    obtain ⟨o', ho', hqueue, halive⟩ := h.opened c o ho
    obtain ⟨o'', ho'', hqueue', halive'⟩ := h'.opened c o' ho'
    exact ⟨o'', ho'', hqueue'.trans hqueue, fun hdead => halive' (halive hdead)⟩

/-- What comes to the world is added at the end. -/
theorem continues_append {w : World π} {pools : List (Pool TaskId π)} {opened : List Opened}
    {renderers : List Renderer} :
    w.Continues ⟨w.pools ++ pools, w.opened ++ opened, renderers⟩ where
  pools _ p hp :=
    ⟨[], p, (List.getElem?_append_left (List.getElem?_eq_some_iff.mp hp).1).trans hp, rfl⟩
  opened _ o ho :=
    ⟨o, (List.getElem?_append_left (List.getElem?_eq_some_iff.mp ho).1).trans ho, rfl, id⟩

/-- The place of a context is taken by one with the same pool. -/
theorem opened_set (hcontext : w.context? c = some context) {o : Opened}
    (hqueue : o.context.queue = context.queue) :
    ∀ (c' : Nat) (o' : Opened), w.opened[c']? = some o' →
      ∃ o'', (w.opened.set c o)[c']? = some o'' ∧ o''.context.queue = o'.context.queue ∧
        (o'.alive = false → o''.alive = false) := by
  intro c' o' ho'
  rcases eq_or_ne c c' with rfl | hne
  · rw [context?_eq_some.mp hcontext] at ho'
    cases ho'
    have hlt := (List.getElem?_eq_some_iff.mp (context?_eq_some.mp hcontext)).1
    exact ⟨o, List.getElem?_set_self hlt, hqueue, nofun⟩
  · exact ⟨o', (List.getElem?_set_ne hne).trans ho', rfl, id⟩

theorem continues_setContext (hcontext : w.context? c = some context)
    (hqueue : context'.queue = context.queue) : w.Continues (w.setContext c context') where
  pools _ p hp := ⟨[], p, hp, rfl⟩
  opened := opened_set hcontext hqueue

theorem queue_of_register {name : String} (h : context.register name r = .ok context') :
    context'.queue = context.queue := by
  rw [Context.register] at h
  split_ifs at h
  cases h
  rfl

theorem queue_of_unregister {name : String} (h : context.unregister name = .ok (r, context')) :
    context'.queue = context.queue := by
  rw [Context.unregister] at h
  split at h
  · cases h
    rfl
  · cases h

theorem continues_perform (w : World π) (a : WorldAct π) : w.Continues (w.perform a).1 := by
  cases a with
  | start available options =>
      simp only [perform]
      split
      · exact .refl w
      · exact List.append_nil w.opened ▸ continues_append
  | openContext available options =>
      simp only [perform]
      split
      · exact .refl w
      · exact continues_append
  | bind queue options =>
      simp only [perform]
      split
      · exact .refl w
      · exact ⟨(Continues.refl w).pools, (Continues.refl w).opened⟩
  | create c options =>
      simp only [perform]
      split
      · exact .refl w
      · exact ⟨(Continues.refl w).pools, (Continues.refl w).opened⟩
  | register c name i =>
      simp only [perform]
      split
      · next context r hcontext hr =>
          split
          · exact .refl w
          · next context' hok => exact continues_setContext hcontext (queue_of_register hok)
      · exact .refl w
  | unregister c name =>
      simp only [perform]
      split
      · exact .refl w
      · next context hcontext =>
          split
          · exact .refl w
          · next r context' hok => exact continues_setContext hcontext (queue_of_unregister hok)
  | unregisterAll c =>
      simp only [perform]
      split
      · exact .refl w
      · next context hcontext => exact continues_setContext hcontext rfl
  | drop c =>
      simp only [perform]
      split
      · exact .refl w
      · next context hcontext =>
          refine ⟨fun queue p hp => ?_, opened_set hcontext rfl⟩
          simp only [pool?, List.getElem?_modify] at hp ⊢
          split
          · exact ⟨[.close], _, congrArg (Option.map _) hp, rfl⟩
          · exact ⟨[], p, by simpa using hp, rfl⟩
  | act queue action =>
      simp only [perform]
      split
      · exact .refl w
      · next p hp =>
          obtain ⟨p₀, hp₀, hstep⟩ := Option.bind_eq_some_iff.mp hp
          refine ⟨fun queue' p' hp' => ?_, (Continues.refl w).opened⟩
          by_cases hqueue : queue.index = queue'.index
          · have hsame : p' = p₀ := by
              rw [pool?, hqueue] at hp₀
              exact Option.some.inj (hp'.symm.trans hp₀)
            have hlt := (List.getElem?_eq_some_iff.mp hp').1
            refine ⟨[action], p, ?_, ?_⟩
            · rw [pool?, hqueue]
              exact List.getElem?_set_self hlt
            · simp [Pool.run?, hsame, hstep]
          · exact ⟨[], p', (List.getElem?_set_ne hqueue).trans hp', rfl⟩

theorem continues_run (w : World π) (acts : List (WorldAct π)) : w.Continues (w.run acts) := by
  induction acts generalizing w with
  | nil => exact .refl w
  | cons a acts ih => exact (continues_perform w a).trans (ih _)

/-! ## The invariant -/

/-- What every course of events keeps between the world and the maps. -/
structure Sound (w : World π) (m : Roster) : Prop where
  keeps : ∀ c context, w.context? c = some context → context.Keeps (m c)
  absent : ∀ c, w.context? c = none → m c = fun _ => none
  /-- A context has a pool, and one that was dropped has closed it. -/
  housed : ∀ (c : Nat) (o : Opened), w.opened[c]? = some o →
    ∃ p, w.pool? o.context.queue = some p ∧ (o.alive = false → p.queue.running = false)

theorem sound_empty : Sound (empty : World π) fun _ _ => none where
  keeps := nofun
  absent _ _ := rfl
  housed := nofun

theorem Sound.housed_of_continues (h : w.Sound m) (hnext : w.Continues w') {o : Opened}
    (ho : w.opened[c]? = some o) :
    ∃ p, w'.pool? o.context.queue = some p ∧ (o.alive = false → p.queue.running = false) := by
  obtain ⟨p, hp, hclosed⟩ := h.housed c o ho
  obtain ⟨as, p', hp', hrun⟩ := hnext.pools _ p hp
  exact ⟨p', hp', fun hdead => (Pool.jobsBegun_of_run hrun (hclosed hdead)).1⟩

/-- Where the contexts stay as they are, what is said of them stays true. -/
theorem Sound.continues (h : w.Sound m) (hnext : w.Continues w')
    (hopened : w'.opened = w.opened) : w'.Sound m where
  keeps c context hcontext := h.keeps c context (by rwa [context?, ← hopened])
  absent c hcontext := h.absent c (by rwa [context?, ← hopened])
  housed c o ho := h.housed_of_continues hnext (hopened ▸ ho)

theorem context?_eq_of_set (hcontext : w.context? c = some context) {o : Opened}
    (hopened : w'.opened = w.opened.set c o) (c' : Nat) :
    w'.context? c' =
      if c' = c then (if o.alive then some o.context else none) else w.context? c' := by
  have hlt := (List.getElem?_eq_some_iff.mp (context?_eq_some.mp hcontext)).1
  rcases eq_or_ne c c' with rfl | hne
  · simp only [context?, hopened, List.getElem?_set_self hlt, if_true]
    cases halive : o.alive <;> simp [Option.filter, halive]
  · simp only [context?, hopened, List.getElem?_set_ne hne, if_neg hne.symm]

/-- One context is changed, and its map with it. -/
theorem Sound.set (h : w.Sound m) (hnext : w.Continues w') (hcontext : w.context? c = some context)
    {o : Opened} (hopened : w'.opened = w.opened.set c o)
    (hqueue : o.context.queue = context.queue) {named : String → Option Renderer}
    (hkeeps : o.context.Keeps named)
    (hdead : o.alive = false → (named = fun _ => none) ∧
      ∀ p, w'.pool? context.queue = some p → p.queue.running = false) :
    w'.Sound (Function.update m c named) := by
  have hcontext' := context?_eq_of_set hcontext hopened
  refine ⟨fun c' other hother => ?_, fun c' hnone => ?_, fun c' o' ho' => ?_⟩
  · rw [hcontext'] at hother
    rw [Function.update_apply]
    split_ifs at hother ⊢
    · cases hother
      exact hkeeps
    · exact h.keeps c' other hother
  · rw [hcontext'] at hnone
    rw [Function.update_apply]
    split_ifs at hnone ⊢ with hc halive
    · exact (hdead (Bool.not_eq_true _ ▸ halive)).1
    · exact h.absent c' hnone
  · rw [hopened] at ho'
    rcases eq_or_ne c c' with rfl | hne
    · have hlt := (List.getElem?_eq_some_iff.mp (context?_eq_some.mp hcontext)).1
      obtain rfl : o = o' := Option.some.inj ((List.getElem?_set_self hlt).symm.trans ho')
      obtain ⟨p, hp, _⟩ := h.housed_of_continues hnext (context?_eq_some.mp hcontext)
      exact ⟨p, hqueue ▸ hp, fun halive => (hdead halive).2 p hp⟩
    · rw [List.getElem?_set_ne hne] at ho'
      exact h.housed_of_continues hnext ho'

theorem Sound.setContext (h : w.Sound m) (hcontext : w.context? c = some context)
    {named : String → Option Renderer} (hkeeps : context'.Keeps named)
    (hqueue : context'.queue = context.queue) :
    (w.setContext c context').Sound (Function.update m c named) :=
  h.set (continues_setContext hcontext hqueue) hcontext rfl hqueue hkeeps nofun

theorem update_none {name : String} (h : m c name = none) :
    Function.update m c (Function.update (m c) name none) = m := by
  rw [← h, Function.update_eq_self, Function.update_eq_self]

/-- A context is opened with a pool of its own. -/
theorem Sound.open (h : w.Sound m) (pool : Pool TaskId π) :
    Sound ⟨w.pools ++ [pool], w.opened ++ [⟨.ofQueue ⟨w.pools.length⟩, true⟩], w.renderers⟩ m := by
  have hnext : w.Continues ⟨w.pools ++ [pool], w.opened ++ [⟨.ofQueue ⟨w.pools.length⟩, true⟩],
    w.renderers⟩ := continues_append
  have hplace : ∀ c (o : Opened), (w.opened ++ [⟨.ofQueue ⟨w.pools.length⟩, true⟩])[c]? = some o →
      w.opened[c]? = some o ∨ w.context? c = none ∧ o = ⟨.ofQueue ⟨w.pools.length⟩, true⟩ := by
    intro c o ho
    rcases Nat.lt_or_ge c w.opened.length with hlt | hge
    · exact Or.inl ((List.getElem?_append_left hlt).symm.trans ho)
    · refine Or.inr ⟨by simp [context?, hge], ?_⟩
      rw [List.getElem?_append_right hge, List.getElem?_singleton] at ho
      split at ho
      · exact (Option.some.inj ho).symm
      · cases ho
  refine ⟨fun c context hcontext => ?_, fun c hnone => h.absent c ?_, fun c o ho => ?_⟩
  · rcases hplace c _ (context?_eq_some.mp hcontext) with hold | ⟨hnone, hnew⟩
    · exact h.keeps c context (context?_eq_some.mpr hold)
    · cases hnew
      rw [h.absent c hnone]
      exact Context.keeps_of_nil rfl
  · cases hcontext : w.context? c with
    | none => rfl
    | some context =>
        obtain ⟨o, ho, _⟩ := hnext.opened c _ (context?_eq_some.mp hcontext)
        have hlt := (List.getElem?_eq_some_iff.mp (context?_eq_some.mp hcontext)).1
        rw [context?, List.getElem?_append_left hlt] at hnone
        exact hcontext.symm.trans hnone
  · rcases hplace c o ho with hold | ⟨_, rfl⟩
    · exact h.housed_of_continues hnext hold
    · exact ⟨pool, List.getElem?_concat_length, nofun⟩

theorem Sound.register (h : w.Sound m) (hcontext : w.context? c = some context) (name : String)
    (r : Renderer) :
    Sound (match context.register name r with
      | .error _ => w
      | .ok context' => w.setContext c context')
      (if m c name = none ∧ r.queue = context.queue then
        Function.update m c (Function.update (m c) name (some r))
      else m) := by
  have hkeeps := h.keeps c context hcontext
  rw [hkeeps.register_eq]
  cases hfree : m c name with
  | some _ => simpa using h
  | none =>
      by_cases hqueue : r.queue = context.queue
      · simp only [Option.isSome_none, Bool.false_eq_true, if_false, hqueue, if_true, and_self]
        exact h.setContext hcontext (hkeeps.insert hfree hqueue) rfl
      · simpa [hqueue] using h

theorem Sound.unregister (h : w.Sound m) (hcontext : w.context? c = some context) (name : String) :
    Sound (match context.unregister name with
      | .error _ => w
      | .ok (_, context') => w.setContext c context')
      (Function.update m c (Function.update (m c) name none)) := by
  have hkeeps := h.keeps c context hcontext
  rw [Context.unregister, hkeeps.lookup]
  cases hname : m c name with
  | some r => exact h.setContext hcontext (hkeeps.erase name) rfl
  | none =>
      rw [update_none hname]
      exact h

/-- Every event keeps the invariant. -/
theorem sound_perform (h : w.Sound m) (a : WorldAct π) : (w.perform a).1.Sound (w.noted m a) := by
  have hnext := continues_perform w a
  cases a with
  | start available options =>
      refine h.continues hnext ?_
      simp only [perform]
      split <;> rfl
  | openContext available options =>
      simp only [perform, noted]
      split
      · exact h
      · exact h.open _
  | bind queue options =>
      refine h.continues hnext ?_
      simp only [perform]
      split <;> rfl
  | create c options =>
      refine h.continues hnext ?_
      simp only [perform]
      split <;> rfl
  | register c name i =>
      simp only [perform, noted]
      split
      · next context r hcontext hr =>
          have hsound := h.register hcontext name r
          split at hsound
          · next herror => simpa only [herror] using hsound
          · next hok => simpa only [hok] using hsound
      · exact h
  | unregister c name =>
      simp only [perform, noted]
      split
      · next hnone =>
          rw [update_none (congrFun (h.absent c hnone) name)]
          exact h
      · next context hcontext =>
          have hsound := h.unregister hcontext name
          split at hsound
          · next herror => simpa only [herror] using hsound
          · next hok => simpa only [hok] using hsound
  | unregisterAll c =>
      simp only [perform, noted]
      split
      · next hnone =>
          rw [← h.absent c hnone, Function.update_eq_self]
          exact h
      · next context hcontext =>
          have hkeeps : context.unregisterAll.Keeps fun _ => none := Context.keeps_of_nil rfl
          exact h.setContext hcontext hkeeps rfl
  | drop c =>
      simp only [perform, noted] at hnext ⊢
      split
      · next hnone =>
          rw [← h.absent c hnone, Function.update_eq_self]
          exact h
      · next context hcontext =>
          rw [hcontext] at hnext
          have hkeeps : context.unregisterAll.Keeps fun _ => none := Context.keeps_of_nil rfl
          refine h.set hnext hcontext rfl rfl hkeeps fun _ => ⟨rfl, ?_⟩
          intro p hp
          obtain ⟨p₀, -, rfl⟩ := Option.map_eq_some_iff.mp
            ((List.getElem?_modify_eq ..).symm.trans hp)
          rfl
  | act queue action =>
      refine h.continues hnext ?_
      simp only [perform]
      split <;> rfl

/-! ## Courses of events -/

theorem after_append (before rest : List (WorldAct π)) :
    after (before ++ rest) = (after before).run rest :=
  List.foldl_append

/-- The maps after one more event. -/
theorem roster_append_singleton (acts : List (WorldAct π)) (a : WorldAct π) :
    roster (acts ++ [a]) = (after acts).noted (roster acts) a := by
  have hworld : ∀ s : World π × Roster,
      (acts.foldl (fun (s : World π × Roster) a => ((s.1.perform a).1, s.1.noted s.2 a)) s).1 =
        s.1.run acts := by
    induction acts with
    | nil => exact fun s => rfl
    | cons a acts ih => exact fun s => ih _
  rw [roster, List.foldl_append]
  dsimp only [List.foldl_cons, List.foldl_nil]
  rw [hworld]
  rfl

theorem sound_after (acts : List (WorldAct π)) : (after acts).Sound (roster acts) := by
  induction acts using List.reverseRecOn with
  | nil => exact sound_empty
  | append_singleton acts a ih =>
      rw [after_append, roster_append_singleton]
      exact sound_perform ih a

/-- What is refused changes neither the world nor the maps. -/
theorem Sound.unchanged (h : w.Sound m) {e : Error} (hanswer : (w.perform a).2 = .refused e) :
    (w.perform a).1 = w ∧ w.noted m a = m := by
  cases a with
  | start available options =>
      simp only [perform] at hanswer ⊢
      split at hanswer
      · exact ⟨rfl, rfl⟩
      · cases hanswer
  | openContext available options =>
      simp only [perform] at hanswer ⊢
      split at hanswer
      · exact ⟨rfl, rfl⟩
      · cases hanswer
  | bind queue options =>
      simp only [perform] at hanswer
      split at hanswer <;> cases hanswer
  | create c options =>
      simp only [perform] at hanswer
      split at hanswer <;> cases hanswer
  | register c name i =>
      simp only [perform, noted] at hanswer ⊢
      split at hanswer
      · next context r hcontext hr =>
          simp only [(h.keeps c context hcontext).register_eq] at hanswer ⊢
          cases hname : m c name with
          | some r' => simp
          | none =>
              by_cases hqueue : r.queue = context.queue
              · simp [hname, hqueue] at hanswer
              · simp [hqueue]
      · cases hanswer
  | unregister c name =>
      simp only [perform, noted] at hanswer ⊢
      split at hanswer
      · cases hanswer
      · next context hcontext =>
          rw [Context.unregister, (h.keeps c context hcontext).lookup] at hanswer ⊢
          cases hname : m c name with
          | none => exact ⟨rfl, update_none hname⟩
          | some r =>
              rw [hname] at hanswer
              cases hanswer
  | unregisterAll c =>
      simp only [perform] at hanswer
      split at hanswer <;> cases hanswer
  | drop c =>
      simp only [perform] at hanswer
      split at hanswer <;> cases hanswer
  | act queue action =>
      simp only [perform] at hanswer
      split at hanswer <;> cases hanswer

/-- A renderer is bound to the pool of its context from the beginning. -/
theorem exists_opened_of_owned (h : Owned acts c r) :
    ∃ o, (after acts).opened[c]? = some o ∧ o.context.queue = r.queue := by
  obtain ⟨before, a, rest, rfl, hcase⟩ := h
  have hsound := sound_after before
  suffices hthen : ∃ context, (after before).context? c = some context ∧
      context.queue = r.queue by
    obtain ⟨context, hcontext, hqueue⟩ := hthen
    rw [after_append]
    obtain ⟨o, ho, hsame, _⟩ := (continues_run (after before) (a :: rest)).opened c _
      (context?_eq_some.mp hcontext)
    exact ⟨o, ho, hsame.trans hqueue⟩
  rcases hcase with ⟨options, rfl, hanswer⟩ | ⟨name, i, rfl, hr, hanswer⟩
  · simp only [perform] at hanswer
    split at hanswer
    · cases hanswer
    · next context hcontext =>
        cases hanswer
        exact ⟨context, hcontext, rfl⟩
  · simp only [perform, hr] at hanswer
    split at hanswer
    · next context r' hcontext hr' =>
        cases hr'
        rw [(hsound.keeps c context hcontext).register_eq] at hanswer
        refine ⟨context, hcontext, ?_⟩
        split_ifs at hanswer with hfree hqueue
        exact hqueue.symm
    · cases hanswer

theorem exists_opened_of_dropped (h : Dropped acts c) :
    ∃ o, (after acts).opened[c]? = some o ∧ o.alive = false := by
  obtain ⟨before, rest, rfl, halive⟩ := h
  obtain ⟨context, hcontext⟩ := Option.isSome_iff_exists.mp halive
  have hlt := (List.getElem?_eq_some_iff.mp (context?_eq_some.mp hcontext)).1
  have hdead : ((after before).perform (.drop c)).1.opened[c]? =
      some ⟨context.unregisterAll, false⟩ := by
    simp only [perform, hcontext]
    exact List.getElem?_set_self hlt
  rw [after_append]
  obtain ⟨o, ho, _, hstays⟩ := (continues_run ((after before).perform (.drop c)).1 rest).opened c _
    hdead
  exact ⟨o, ho, hstays rfl⟩

end World

/-! ## Renderers at rest -/

namespace Renderer

variable {r : Renderer} {pool : Pool TaskId π}

/-- Runs of the renderer come to nothing: they leave the pool as it is, and where the trees pass the
check and the rules leave something to do, the pool refuses it. Only if what the rules leave is out of
order itself, a run may meet a fault before it comes to the pool. -/
def RefusedBy (r : Renderer) (pool : Pool TaskId π) : Prop :=
  ∀ (σ : Type) (verdict : Verdict π) (rules : RuleId → Rule σ) (registry : Registry) (user : σ)
    (graph : Graph) (list : List TaskId) (params : π) (firstId : Nat),
    let o := (r.setup rules registry).optimize user graph (list.map some)
    let ran := r.run verdict rules registry user graph list params firstId pool
    ran.pool = pool ∧
      (graph.check list = .ok () → ∀ stats, o.result = .ok stats → o.list.filterMap id ≠ [] →
        ran.result = .error (.error .queueStopped) ∨
          ¬ o.graph.WellFormed (o.list.filterMap id) ∧ ∃ f, ran.result = .error (.fault f))

theorem execute_of_stopped (hstopped : pool.queue.running = false) (verdict : Verdict π)
    (p : Prepared) (params : π) (firstId : Nat) :
    execute verdict p params firstId pool =
      (if p.order.isEmpty then .ok true else .error .queueStopped, pool) := by
  have hjobs : (p.jobs firstId).map Pool.workJob ++
      [Pool.barrierJob (p.barrier firstId) (p.jobs firstId)] ≠ [] := by simp
  have hrefused : pool.runBatch (p.jobs firstId) params (p.barrier firstId) =
      .error .queueStopped := Pool.submit_eq_error params hjobs hstopped
  unfold execute
  rw [hrefused]
  split <;> rfl

theorem refusedBy_of_stopped (hstopped : pool.queue.running = false) : r.RefusedBy pool := by
  intro σ verdict rules registry user graph list params firstId o ran
  cases hprepared : (r.prepare rules registry user graph list).result with
  | error e =>
      have hran : ran.pool = pool ∧ ran.result = .error e := by
        simp only [ran, run, hprepared, and_self]
      refine ⟨hran.1, fun hcheck stats hresult hne => Or.inr ⟨fun hwf => ?_, ?_⟩⟩
      · obtain ⟨p, hp⟩ := exists_prepared (Graph.check_eq_ok_iff.mp hcheck) hresult hwf
        rw [hprepared] at hp
        cases hp
      · obtain ⟨f, rfl⟩ := fault_of_prepare (Graph.check_eq_ok_iff.mp hcheck) hresult hprepared
        exact ⟨f, hran.2⟩
  | ok p =>
      have horder : p.order = o.list.filterMap id := by
        rw [← (prepares hprepared).order_eq]
        simp
      by_cases hempty : p.order = []
      · refine ⟨?_, fun _ stats _ hne => absurd (horder.symm.trans hempty) hne⟩
        simp [ran, run, hprepared, execute_of_stopped hstopped, hempty]
      · have hran : ran.pool = pool ∧ ran.result = .error (.error .queueStopped) := by
          simp [ran, run, hprepared, execute_of_stopped hstopped, hempty]
        exact ⟨hran.1, fun _ _ _ _ => Or.inl hran.2⟩

end Renderer

namespace World

/-- The renderer can start nothing any more: its pool refuses all its runs, and begins no job, not
even one that was submitted before, whatever else happens. -/
structure Retired (w : World π) (r : Renderer) : Prop where
  refuses : ∀ acts, ∃ p, (w.run acts).pool? r.queue = some p ∧ r.RefusedBy p
  begins_nothing : ∃ p, w.pool? r.queue = some p ∧ ∀ acts, ∃ p',
    (w.run acts).pool? r.queue = some p' ∧
      jobsBegun p'.history = jobsBegun p.history

variable {w : World π} {acts : List (WorldAct π)} {c : Nat} {r : Renderer}

theorem retired_of_stopped {p : Pool TaskId π} (hp : w.pool? r.queue = some p)
    (hstopped : p.queue.running = false) : w.Retired r := by
  have hlater : ∀ acts, ∃ p', (w.run acts).pool? r.queue = some p' ∧ p'.queue.running = false ∧
      jobsBegun p'.history = jobsBegun p.history := by
    intro acts
    obtain ⟨as, p', hp', hrun⟩ := (continues_run w acts).pools _ p hp
    exact ⟨p', hp', Pool.jobsBegun_of_run hrun hstopped⟩
  constructor
  · intro acts
    obtain ⟨p', hp', hstopped', _⟩ := hlater acts
    exact ⟨p', hp', Renderer.refusedBy_of_stopped hstopped'⟩
  · refine ⟨p, hp, fun acts => ?_⟩
    obtain ⟨p', hp', _, hbegun⟩ := hlater acts
    exact ⟨p', hp', hbegun⟩

theorem retired_of_dropped (hdropped : Dropped acts c) (howned : Owned acts c r) :
    (after acts).Retired r := by
  obtain ⟨o, ho, hqueue⟩ := exists_opened_of_owned howned
  obtain ⟨o', ho', hdead⟩ := exists_opened_of_dropped hdropped
  obtain rfl : o = o' := Option.some.inj (ho.symm.trans ho')
  obtain ⟨p, hp, hstopped⟩ := (sound_after acts).housed c o ho
  exact retired_of_stopped (hqueue ▸ hp) (hstopped hdead)

/-- **Contexts own their pools.** After any course of events, each context that was not dropped lists
what its map says, with the names in the strictly increasing order of their bytes, and all of it works
on its own pool. The answers are those of the maps, and what is refused changes neither the world nor
the maps. Every renderer that a dropped context made, or ever registered, is at rest. -/
theorem ownership (acts : List (WorldAct π)) :
    let w := after acts
    let m := roster acts
    (∀ c context, w.context? c = some context → context.Keeps (m c)) ∧
      (∀ c context name i r, w.context? c = some context → w.renderers[i]? = some r →
        (w.perform (.register c name i)).2 =
          if (m c name).isSome then .refused (.duplicateRenderer name)
          else if r.queue = context.queue then .done
          else .refused (.foreignRenderer name)) ∧
      (∀ c context name, w.context? c = some context →
        (w.perform (.unregister c name)).2 =
          match m c name with
          | some r => .renderer r
          | none => .refused (.unknownRenderer name)) ∧
      (∀ a e, (w.perform a).2 = .refused e → (w.perform a).1 = w ∧ w.noted m a = m) ∧
      (∀ a, roster (acts ++ [a]) = w.noted m a) ∧
      ∀ c r, Dropped acts c → Owned acts c r → w.Retired r := by
  intro w m
  have h : w.Sound m := sound_after acts
  refine ⟨h.keeps, ?_, ?_, ?_, ?_, fun c r => retired_of_dropped⟩
  · intro c context name i r hcontext hr
    simp only [perform, hcontext, hr, (h.keeps c context hcontext).register_eq]
    split_ifs <;> rfl
  · intro c context name hcontext
    simp only [perform, hcontext, Context.unregister, (h.keeps c context hcontext).lookup]
    cases m c name <;> rfl
  · exact fun a e => h.unchanged
  · exact roster_append_singleton acts

/-! ### A renderer that outlives its context

It is made by the context and registered. After the drop it is handed a list that passes the check and
that no rule changes, and the pool refuses the batch. -/

/-- The context has come and gone. -/
def outliving : List (WorldAct Unit) :=
  [.openContext 2 {}, .create 0 Renderer.brief.options, .register 0 "cpu" 0, .drop 0]

theorem ownership_outliving :
    Dropped outliving 0 ∧ Owned outliving 0 Renderer.brief ∧
      ∃ p, (after outliving).pool? Renderer.brief.queue = some p ∧
        (Renderer.brief.run (fun _ _ _ _ => true) (fun _ => Renderer.restingRule) .empty ()
          HazardPlan.stripGraph Renderer.stripList () 0 p).result = .error (.error .queueStopped) := by
  have hdropped : Dropped outliving 0 := ⟨outliving.take 3, [], rfl, rfl⟩
  have howned : Owned outliving 0 Renderer.brief :=
    ⟨outliving.take 1, _, outliving.drop 2, rfl, Or.inl ⟨_, rfl, rfl⟩⟩
  have hretired := (ownership outliving).2.2.2.2.2 0 _ hdropped howned
  obtain ⟨p, hp, hrefused⟩ := hretired.refuses []
  refine ⟨hdropped, howned, p, hp, ?_⟩
  have hprepares := Renderer.prepares Renderer.prepare_strips
  have hlist := hprepares.order_eq
  obtain ⟨-, hresult⟩ := hrefused Unit (fun _ _ _ _ => true) (fun _ => Renderer.restingRule) .empty
    () HazardPlan.stripGraph Renderer.stripList () 0
  have hwf : HazardPlan.stripGraph.WellFormed Renderer.stripList := hprepares.checked
  rw [← hlist, ← hprepares.graph_eq] at hresult
  refine (hresult (Graph.check_eq_ok_iff.mpr hwf) _ hprepares.optimized (by decide)).resolve_right ?_
  rintro ⟨hnot, -⟩
  exact hnot hwf

end World

end RenderPlan
