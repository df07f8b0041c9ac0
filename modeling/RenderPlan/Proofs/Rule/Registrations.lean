/-
# RenderPlan.Proofs.Rule.Registrations -- a registry after any history of requests

Rules come and go, and may come again; the registry is only what the requests so far have made of
it. This module says what that is without a registry: a registration stands if it was accepted and
its rule was not taken out afterwards (`standsAt`), and the standing registrations, in the order of
the requests, are what the categories hold, each rule under the category of its own descriptor.
Because a rule that stands is refused, no rule stands twice; because a rule that relies on
categories behind its own is refused, all that stand rely on settled ones. The visit of a task
counts on the second when it takes the union of the masks as its gate.

A rule is an identity here. Its header is the same at every request, and two rules may share one.
-/
import Mathlib.Data.List.Induction
import Mathlib.Data.List.Nodup
import RenderPlan.Proofs.Category.Membership
import RenderPlan.Rule.Registry

namespace RenderPlan

/-- A request to a registry. -/
inductive RegistryCall where
  /-- Put the rule at the end of its category. -/
  | register (id : RuleId)
  /-- Take the rule out of its category. -/
  | unregister (id : RuleId)
  deriving DecidableEq, Repr

namespace Registry

/-! ## Requests -/

/-- The registry after a request, and the answer. A registry that refuses a rule stays as it is. -/
def perform (headers : RuleId → RuleHeader) (r : Registry) :
    RegistryCall → Registry × Except Error Unit
  | .register id =>
      match r.register id (headers id) with
      | .ok r' => (r', .ok ())
      | .error e => (r, .error e)
  | .unregister id => (r.unregister id (headers id), .ok ())

/-- The registry after a history of requests, the oldest one first. -/
def after (headers : RuleId → RuleHeader) (calls : List RegistryCall) : Registry :=
  calls.foldl (fun r call => (r.perform headers call).1) empty

/-- The registry would take the rule in. -/
def accepts (headers : RuleId → RuleHeader) (r : Registry) (id : RuleId) : Bool :=
  (r.perform headers (.register id)).2.isOk

/-- The rule whose registration is the request at `i`, if it was accepted then and the rule has not
been taken out since. -/
def standsAt (headers : RuleId → RuleHeader) (calls : List RegistryCall) (i : Nat) :
    Option RuleId :=
  match calls[i]? with
  | some (.register id) =>
      if (after headers (calls.take i)).accepts headers id ∧
          .unregister id ∉ calls.drop (i + 1) then some id
      else none
  | _ => none

/-- The rules whose registrations stand after a history, in the order of these registrations. -/
def standing (headers : RuleId → RuleHeader) (calls : List RegistryCall) : List RuleId :=
  (List.range calls.length).filterMap (standsAt headers calls)

variable {headers : RuleId → RuleHeader} {r : Registry} {calls : List RegistryCall}
  {call : RegistryCall} {id : RuleId}

theorem after_append_singleton :
    after headers (calls ++ [call]) = ((after headers calls).perform headers call).1 := by
  simp [after]

@[simp] theorem rules_update {c d : Category} {ids : List RuleId} :
    (r.update c ids).rules d = if d = c then ids else r.rules d := rfl

/-- What a registration does, in the three cases of its answer. -/
theorem perform_register : r.perform headers (.register id) =
    let d := (headers id).descriptor
    if r.isRegistered id (headers id) then (r, .error (.duplicateRule (headers id).name))
    else if d.allowed.contains d.dependsFrom then
      (r.update d.category (r.rules d.category ++ [id]), .ok ())
    else
      (r, .error (.laterDependency (headers id).name d.category (d.dependsFrom \ d.allowed))) := by
  simp only [perform, register]
  split_ifs <;> rfl

theorem accepts_iff : r.accepts headers id = true ↔
    r.isRegistered id (headers id) = false ∧
      (headers id).descriptor.allowed.contains (headers id).descriptor.dependsFrom = true := by
  simp only [accepts, perform_register]
  split_ifs with hthere hallowed
  · simp [hthere, Except.isOk, Except.toBool]
  · simp [hthere, hallowed, Except.isOk, Except.toBool]
  · simp [hthere, hallowed, Except.isOk, Except.toBool]

theorem perform_of_accepts (haccept : r.accepts headers id = true) :
    (r.perform headers (.register id)).1 =
      r.update (headers id).descriptor.category
        (r.rules (headers id).descriptor.category ++ [id]) := by
  obtain ⟨hnew, hallowed⟩ := accepts_iff.mp haccept
  simp [perform_register, hnew, hallowed]

/-- A rule that is refused leaves no trace. -/
theorem perform_of_not_accepts (hrefuse : r.accepts headers id = false) :
    (r.perform headers (.register id)).1 = r := by
  rw [perform_register]
  simp only
  split_ifs with hthere hallowed
  · rfl
  · rw [accepts_iff.mpr ⟨Bool.not_eq_true _ ▸ hthere, hallowed⟩] at hrefuse
    cases hrefuse
  · rfl

/-! ## Standing registrations -/

/-- A later request takes nothing away from the standing of a registration, unless it takes the rule
out. -/
theorem standsAt_append_of_lt {i : Nat} (hi : i < calls.length) :
    standsAt headers (calls ++ [call]) i =
      (standsAt headers calls i).filter fun id => call ≠ .unregister id := by
  have htake : (calls ++ [call]).take i = calls.take i := by
    rw [List.take_append_of_le_length (Nat.le_of_lt hi)]
  have hdrop : (calls ++ [call]).drop (i + 1) = calls.drop (i + 1) ++ [call] := by
    rw [List.drop_append_of_le_length hi]
  simp only [standsAt, List.getElem?_append_left hi, htake, hdrop]
  cases calls[i]? with
  | none => rfl
  | some entry =>
      cases entry with
      | unregister _ => rfl
      | register id =>
          simp only [List.mem_append, List.mem_singleton, not_or]
          by_cases hcall : call = .unregister id
          · subst hcall
            simp [Option.filter]
            split_ifs <;> simp
          · have hne : RegistryCall.unregister id ≠ call := fun h => hcall h.symm
            split_ifs with h1 h2 h2
            · simp [Option.filter, hcall]
            · exact absurd ⟨h1.1, h1.2.1⟩ h2
            · exact absurd ⟨h2.1, h2.2, hne⟩ h1
            · rfl

theorem standsAt_append_length : standsAt headers (calls ++ [call]) calls.length =
    match call with
    | .register id => if (after headers calls).accepts headers id then some id else none
    | .unregister _ => none := by
  cases call with
  | register id => simp [standsAt]
  | unregister id => simp [standsAt]

theorem standing_append : standing headers (calls ++ [call]) =
    ((standing headers calls).filter fun id => call ≠ .unregister id) ++
      match call with
      | .register id => if (after headers calls).accepts headers id then [id] else []
      | .unregister _ => [] := by
  have hold : (List.range calls.length).filterMap (standsAt headers (calls ++ [call])) =
      (standing headers calls).filter fun id => call ≠ .unregister id := by
    rw [standing, List.filter_filterMap]
    refine List.filterMap_congr fun i hi => ?_
    exact standsAt_append_of_lt (List.mem_range.mp hi)
  rw [standing, List.length_append, List.length_singleton, List.range_succ,
    List.filterMap_append, hold]
  congr 1
  rw [List.filterMap_cons, standsAt_append_length]
  cases call with
  | register id => dsimp only; split_ifs <;> rfl
  | unregister id => rfl

theorem standing_register_of_accepts (haccept : (after headers calls).accepts headers id = true) :
    standing headers (calls ++ [.register id]) = standing headers calls ++ [id] := by
  simp [standing_append, haccept]

theorem standing_register_of_not_accepts
    (hrefuse : (after headers calls).accepts headers id = false) :
    standing headers (calls ++ [.register id]) = standing headers calls := by
  simp [standing_append, hrefuse]

theorem standing_unregister : standing headers (calls ++ [.unregister id]) =
    (standing headers calls).filter fun other => other ≠ id := by
  simp only [standing_append, List.append_nil]
  refine List.filter_congr fun other _ => ?_
  simp [eq_comm]

/-! ## The invariant -/

/-- What every history keeps between a registry and the list of the rules that stand. -/
structure Holds (headers : RuleId → RuleHeader) (held : List RuleId) (r : Registry) : Prop where
  /-- A category lists the rules with its descriptor, in the order of the list. -/
  rules : ∀ c, r.rules c = held.filter fun id => (headers id).descriptor.category = c
  /-- No rule stands twice. -/
  nodup : held.Nodup
  /-- Rules rely on their own category and those before it. -/
  allowed : ∀ id ∈ held,
    (headers id).descriptor.allowed.contains (headers id).descriptor.dependsFrom = true

namespace Holds

variable {held : List RuleId}

theorem mem_rules (h : Holds headers held r) {c : Category} :
    id ∈ r.rules c ↔ id ∈ held ∧ (headers id).descriptor.category = c := by
  rw [h.rules c, List.mem_filter, decide_eq_true_iff]

theorem isRegistered_iff (h : Holds headers held r) :
    r.isRegistered id (headers id) = true ↔ id ∈ held := by
  rw [isRegistered, List.contains_iff_mem, h.mem_rules]
  exact and_iff_left rfl

theorem empty : Holds headers [] empty where
  rules _ := rfl
  nodup := .nil
  allowed _ hid := nomatch hid

theorem register (h : Holds headers held r) (haccept : r.accepts headers id = true) :
    Holds headers (held ++ [id]) (r.perform headers (.register id)).1 := by
  obtain ⟨hnew, hallowed⟩ := accepts_iff.mp haccept
  have hout : id ∉ held := by
    intro hin
    rw [h.isRegistered_iff.mpr hin] at hnew
    cases hnew
  rw [perform_of_accepts haccept]
  refine ⟨fun c => ?_, ?_, ?_⟩
  · rw [rules_update, List.filter_append, ← h.rules c]
    split_ifs with hc
    · subst hc
      simp
    · have hne : ¬(headers id).descriptor.category = c := fun he => hc he.symm
      simp [hne]
  · exact List.nodup_append.mpr
      ⟨h.nodup, List.nodup_singleton id, fun a ha b hb hab =>
        hout (List.mem_singleton.mp hb ▸ hab ▸ ha)⟩
  · intro other hother
    rcases List.mem_append.mp hother with hin | hin
    · exact h.allowed other hin
    · rw [List.mem_singleton.mp hin]
      exact hallowed

theorem unregister (h : Holds headers held r) :
    Holds headers (held.filter fun other => other ≠ id)
      (r.perform headers (.unregister id)).1 := by
  refine ⟨fun c => ?_, h.nodup.filter _, fun other hother =>
    h.allowed other (List.mem_filter.mp hother).1⟩
  show (r.update _ _).rules c = _
  rw [rules_update, List.filter_comm, ← h.rules c]
  split_ifs with hc
  · rw [hc]
  -- The rule stands in no other category, so that nothing is lost there.
  · refine (List.filter_eq_self.mpr fun other hother => ?_).symm
    have hcat := (h.mem_rules.mp hother).2
    refine decide_eq_true fun heq => hc ?_
    rw [← hcat, heq]

end Holds

theorem holds_after (headers : RuleId → RuleHeader) (calls : List RegistryCall) :
    Holds headers (standing headers calls) (after headers calls) := by
  induction calls using List.reverseRecOn with
  | nil => exact Holds.empty
  | append_singleton calls call ih =>
      rw [after_append_singleton]
      cases call with
      | unregister id =>
          rw [standing_unregister]
          exact ih.unregister
      | register id =>
          cases haccept : (after headers calls).accepts headers id with
          | true =>
              rw [standing_register_of_accepts haccept]
              exact ih.register haccept
          | false =>
              rw [standing_register_of_not_accepts haccept, perform_of_not_accepts haccept]
              exact ih

/-! ## The registry of a history -/

theorem nodup_flatMap_rules {held : List RuleId} (h : Holds headers held r) :
    (Category.all.flatMap r.rules).Nodup := by
  refine List.nodup_flatMap.mpr ⟨fun c _ => ?_, ?_⟩
  · rw [h.rules c]
    exact h.nodup.filter _
  · refine List.Pairwise.imp_of_mem ?_ (by decide : Category.all.Nodup)
    intro c d _ _ hne id hc hd
    exact hne ((h.mem_rules.mp hc).2.symm.trans (h.mem_rules.mp hd).2)

/-- A mask that is allowed names categories only, and none behind the one of the descriptor. -/
theorem settled_of_allowed {d : Descriptor} (h : d.allowed.contains d.dependsFrom = true) :
    d.dependsFrom.isStrict = true ∧ ∀ c ∈ d.dependsFrom, c < d.category ∨ c = d.category := by
  have hinter : d.allowed ∩ d.dependsFrom = d.dependsFrom := of_decide_eq_true h
  have hstrict : d.allowed.isStrict = true :=
    Mask.isStrict_union (Mask.isStrict_below _) (Mask.isStrict_mask _)
  refine ⟨?_, fun c hc => ?_⟩
  · rw [← hinter]
    exact Mask.isStrict_inter hstrict
  · rw [← hinter] at hc
    simpa [Descriptor.allowed] using (Mask.mem_inter.mp hc).1

/-- **What a registry holds is what stands of its history.** After any requests, each category lists
the rules of this category whose registrations stand, in the order of these registrations; so every
rule is there at most once, under the category of its own descriptor, and relies on this category
and earlier ones only. The question for a rule is answered by membership, and the answer to a
further registration is a refusal of what stands, or of what relies on a later category, in which
case no category changes, or else an acceptance. -/
theorem rules_after (headers : RuleId → RuleHeader) (calls : List RegistryCall) :
    let r := after headers calls
    (∀ c, r.rules c =
        (standing headers calls).filter fun id => (headers id).descriptor.category = c) ∧
      (Category.all.flatMap r.rules).Nodup ∧
      (∀ c, ∀ id ∈ r.rules c, (headers id).descriptor.category = c ∧
        (c.below ∪ c.mask).contains (headers id).descriptor.dependsFrom = true ∧
        (headers id).descriptor.dependsFrom.isStrict = true ∧
        ∀ d ∈ (headers id).descriptor.dependsFrom, d < c ∨ d = c) ∧
      (∀ id, (r.isRegistered id (headers id) = true ↔ ∃ c, id ∈ r.rules c) ∧
        (r.isRegistered id (headers id) = true ↔ id ∈ standing headers calls)) ∧
      ∀ id,
        (r.perform headers (.register id)).2 =
          (let d := (headers id).descriptor
          if id ∈ standing headers calls then .error (.duplicateRule (headers id).name)
          else if (d.category.below ∪ d.category.mask).contains d.dependsFrom then .ok ()
          else .error (.laterDependency (headers id).name d.category
            (d.dependsFrom \ (d.category.below ∪ d.category.mask)))) ∧
        ∀ e, (r.perform headers (.register id)).2 = .error e →
          ∀ c, (r.perform headers (.register id)).1.rules c = r.rules c := by
  intro r
  have h : Holds headers (standing headers calls) r := holds_after headers calls
  refine ⟨h.rules, nodup_flatMap_rules h, fun c id hid => ?_, fun id => ⟨?_, h.isRegistered_iff⟩,
    fun id => ⟨?_, fun e he c => ?_⟩⟩
  · obtain ⟨hheld, rfl⟩ := h.mem_rules.mp hid
    exact ⟨rfl, h.allowed id hheld, settled_of_allowed (h.allowed id hheld)⟩
  · rw [h.isRegistered_iff]
    exact ⟨fun hheld => ⟨_, h.mem_rules.mpr ⟨hheld, rfl⟩⟩, fun ⟨_, hc⟩ => (h.mem_rules.mp hc).1⟩
  · rw [perform_register]
    simp only [h.isRegistered_iff]
    split_ifs <;> first | rfl | contradiction
  · have hrefuse : r.accepts headers id = false := by
      rw [accepts, he]
      rfl
    rw [perform_of_not_accepts hrefuse]

/-- A rule that leaves and comes back stands behind those that stayed. -/
example : standing (fun _ => ⟨"fold", .ofCategory .common⟩)
    [.register ⟨0⟩, .register ⟨1⟩, .register ⟨0⟩, .unregister ⟨0⟩, .register ⟨0⟩] =
      [⟨1⟩, ⟨0⟩] := by
  decide

end Registry

end RenderPlan
