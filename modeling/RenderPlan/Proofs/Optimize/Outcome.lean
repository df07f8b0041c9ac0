/-
# RenderPlan.Proofs.Optimize.Outcome -- what comes of a part of an optimization

A part of an optimization ends with a value or a stop, and in a workspace. `Work.Ensures` speaks of
both endings at once: the workspace that is left behind counts also where the optimization stopped.
-/
import RenderPlan.Optimize.Visit

namespace RenderPlan

/-- The calls in the order in which they were made. -/
theorem Journal.calls_cons {e : Entry} {j : Journal} :
    calls (e :: j) = j.calls ++ e.call?.toList := by
  cases h : e.call? <;> simp [calls, h]

/-- What a part that cannot stop answers and leaves behind. -/
def Leaves {σ α : Type} (m : StateM (Workspace σ) α) (w : Workspace σ)
    (P : α → Workspace σ → Prop) : Prop :=
  P (m.run w).1 (m.run w).2

theorem Leaves.bind {σ α β : Type} {m : StateM (Workspace σ) α} {f : α → StateM (Workspace σ) β}
    {w : Workspace σ} {P : α → Workspace σ → Prop} {Q : β → Workspace σ → Prop}
    (h : Leaves m w P) (hnext : ∀ a w', P a w' → Leaves (f a) w' Q) : Leaves (m >>= f) w Q :=
  hnext _ _ h

theorem leaves_pure {σ α : Type} {a : α} {w : Workspace σ} {P : α → Workspace σ → Prop}
    (h : P a w) : Leaves (pure a) w P := h

theorem leaves_modify_bind {σ α : Type} {change : Workspace σ → Workspace σ}
    {rest : StateM (Workspace σ) α} {w : Workspace σ} {P : α → Workspace σ → Prop}
    (h : Leaves rest (change w) P) :
    Leaves (do modify change; rest : StateM (Workspace σ) α) w P := h

theorem leaves_get_bind {σ α : Type} {rest : Workspace σ → StateM (Workspace σ) α}
    {w : Workspace σ} {P : α → Workspace σ → Prop} (h : Leaves (rest w) w P) :
    Leaves (do rest (← get) : StateM (Workspace σ) α) w P := h

namespace Work

variable {σ α β : Type} {m : Work σ α} {f : α → Work σ β} {w : Workspace σ}

/-- The ending of a part that begins in a workspace. -/
def outcome (m : Work σ α) (w : Workspace σ) : Except Stop α × Workspace σ := m.run.run w

theorem outcome_bind (m : Work σ α) (f : α → Work σ β) (w : Workspace σ) :
    (m >>= f).outcome w = match m.outcome w with
      | (.ok a, w') => (f a).outcome w'
      | (.error stop, w') => (.error stop, w') := by
  change ((ExceptT.bindCont f (m.outcome w).1 : StateM (Workspace σ) _).run (m.outcome w).2) = _
  rcases m.outcome w with ⟨_ | _, _⟩ <;> rfl

/-- What part of a sequence a value comes from. -/
theorem exists_of_outcome_bind {b : β} {w'' : Workspace σ} (h : (m >>= f).outcome w = (.ok b, w'')) :
    ∃ a w', m.outcome w = (.ok a, w') ∧ (f a).outcome w' = (.ok b, w'') := by
  rw [outcome_bind] at h
  rcases hm : m.outcome w with ⟨_ | a, w'⟩
  · rw [hm] at h
    cases h
  · rw [hm] at h
    exact ⟨a, w', rfl, h⟩

/-- Whatever the ending is, `P` holds of it and of the workspace that is left behind. -/
def Ensures (m : Work σ α) (w : Workspace σ) (P : Except Stop α → Workspace σ → Prop) : Prop :=
  P (m.outcome w).1 (m.outcome w).2

theorem Ensures.leaves {P : Except Stop α → Workspace σ → Prop} (h : m.Ensures w P) :
    Leaves m.run w P := h

theorem Ensures.of_outcome {P : Except Stop α → Workspace σ → Prop} {r : Except Stop α}
    {w' : Workspace σ} (h : m.Ensures w P) (hr : m.outcome w = (r, w')) : P r w' := by
  unfold Ensures at h
  rwa [hr] at h

/-- A value is handed on, a stop is the ending of the whole. -/
theorem Ensures.bind {P : Except Stop α → Workspace σ → Prop}
    {Q : Except Stop β → Workspace σ → Prop} (h : m.Ensures w P)
    (hok : ∀ a w', P (.ok a) w' → (f a).Ensures w' Q)
    (hstop : ∀ stop w', P (.error stop) w' → Q (.error stop) w') : (m >>= f).Ensures w Q := by
  unfold Ensures at h ⊢
  rw [outcome_bind]
  rcases hm : m.outcome w with ⟨stop | a, w'⟩
  · rw [hm] at h
    exact hstop stop w' h
  · rw [hm] at h
    exact hok a w' h

/-- A change of the workspace is not seen by what follows, except in the workspace. -/
theorem ensures_modify_bind {P : Except Stop α → Workspace σ → Prop}
    {change : Workspace σ → Workspace σ} {rest : Work σ α} (h : rest.Ensures (change w) P) :
    (do modify change; rest : Work σ α).Ensures w P := h

/-! ## The primitives -/

theorem outcome_spend (maxSteps : Nat) (w : Workspace σ) :
    (spend maxSteps).outcome w =
      if maxSteps < w.steps + 1 then
        (.error .exhausted, { w with steps := w.steps + 1 }.note (.exhausted maxSteps))
      else (.ok (), { w with steps := w.steps + 1 }) := by
  unfold spend
  rw [outcome_bind]
  change ((do if maxSteps < (← get).steps then _ else _ : Work σ Unit)).outcome _ = _
  rw [outcome_bind]
  change Work.outcome (if maxSteps < w.steps + 1 then _ else _) _ = _
  split <;> rfl

theorem ensures_spend (maxSteps : Nat) (w : Workspace σ) :
    (spend maxSteps).Ensures w fun r w' => match r with
      | .ok () => w.steps + 1 ≤ maxSteps ∧ w' = { w with steps := w.steps + 1 }
      | .error stop => maxSteps < w.steps + 1 ∧ stop = .exhausted ∧
        w' = { w with steps := w.steps + 1 }.note (.exhausted maxSteps) := by
  unfold Ensures
  rw [outcome_spend]
  split
  · next h => exact ⟨h, rfl, rfl⟩
  · next h => exact ⟨Nat.le_of_not_lt h, rfl⟩

theorem outcome_fetch (id : TaskId) (w : Workspace σ) :
    (fetch id).outcome w = match w.graph.get? id with
      | some n => (.ok n, w)
      | none => (.error (.fault (.missingTask id)), w) := by
  unfold fetch
  rw [outcome_bind]
  change Work.outcome (match w.graph.get? id with | some n => _ | none => _) w = _
  split <;> rfl

theorem ensures_fetch (id : TaskId) (w : Workspace σ) :
    (fetch id).Ensures w fun r w' => w' = w ∧ match r with
      | .ok n => w.graph.get? id = some n
      | .error stop => w.graph.get? id = none ∧ stop = .fault (.missingTask id) := by
  unfold Ensures
  rw [outcome_fetch]
  cases h : w.graph.get? id with
  | some n => exact ⟨rfl, rfl⟩
  | none => exact ⟨rfl, rfl, rfl⟩

theorem outcome_copy (id : TaskId) (w : Workspace σ) :
    (copy id).outcome w = match w.graph.get? id with
      | some n => (.ok w.graph.nextId, { w with graph := w.graph.insert n })
      | none => (.error (.fault (.missingTask id)), w) := by
  unfold copy
  rw [outcome_bind, outcome_fetch]
  cases w.graph.get? id <;> rfl

end Work

/-- The node with another sub-task in a slot. -/
def Node.withSlot (slot : Nat) (sub : Option TaskId) (n : Node) : Node :=
  { n with subTasks := n.subTasks.set slot sub }

theorem Work.outcome_setSlot {σ : Type} (id : TaskId) (slot : Nat) (sub : Option TaskId)
    (w : Workspace σ) :
    (setSlot id slot sub).outcome w = match w.graph.get? id with
      | some n =>
        if slot < n.subTasks.length then
          (.ok (), { w with graph := w.graph.modify id (Node.withSlot slot sub) })
        else (.error (.fault (.missingSlot id slot)), w)
      | none => (.error (.fault (.missingTask id)), w) := by
  unfold setSlot
  rw [outcome_bind, outcome_fetch]
  cases w.graph.get? id with
  | none => rfl
  | some n =>
      change Work.outcome (if slot < n.subTasks.length then _ else _) w =
        if slot < n.subTasks.length then _ else _
      split <;> rfl

end RenderPlan
