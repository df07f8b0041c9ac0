/-
# RenderPlan.Rule.Registry -- which rules apply, in which order

A registry lists rules per category in the order of their registration. Rules are told apart by
identity: two rules may agree in everything and still be two. A rule is registered under the
category that its descriptor names at that moment, and it is looked for under the category that its
descriptor names at the moment of the question.
-/
import RenderPlan.Rule.Basic
import RenderPlan.Error

namespace RenderPlan

/-- The identity of a rule. -/
structure RuleId where
  index : Nat
  deriving DecidableEq, Repr

/-- The rules of each category in the order of registration. -/
structure Registry where
  rules : Category → List RuleId

namespace Registry

/-- The registry without rules. -/
def empty : Registry := ⟨fun _ => []⟩

instance : Inhabited Registry := ⟨empty⟩

/-- The registry with the rules of one category replaced. -/
def update (r : Registry) (c : Category) (ids : List RuleId) : Registry :=
  ⟨fun c' => if c' = c then ids else r.rules c'⟩

/-- The rule is registered under the category of its descriptor. -/
def isRegistered (r : Registry) (id : RuleId) (h : RuleHeader) : Bool :=
  (r.rules h.descriptor.category).contains id

/-- Adds a rule at the end of its category. A rule that is there already is refused, and so is one
that relies on categories behind its own. -/
def register (r : Registry) (id : RuleId) (h : RuleHeader) : Except Error Registry :=
  let d := h.descriptor
  if r.isRegistered id h then .error (.duplicateRule h.name)
  else if d.allowed.contains d.dependsFrom then
    .ok (r.update d.category (r.rules d.category ++ [id]))
  else .error (.laterDependency h.name d.category (d.dependsFrom \ d.allowed))

/-- Takes a rule out of its category; nothing happens if it is not there. -/
def unregister (r : Registry) (id : RuleId) (h : RuleHeader) : Registry :=
  let c := h.descriptor.category
  r.update c ((r.rules c).filter fun other => other ≠ id)

end Registry

end RenderPlan
