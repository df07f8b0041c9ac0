/-
# RenderPlan.Category.Basic -- the stages of an optimization

Rules belong to one of seven categories, which are worked through in a fixed order. A rule may
count on every earlier category being settled.
-/

namespace RenderPlan

/-- What a rule is for. The order of the constructors is the order of processing. -/
inductive Category where
  /-- Generic cleanups: drop empty tasks, fold trivial wrappers. -/
  | common
  /-- Changes that prepare a tree for a backend. -/
  | preSpecialize
  /-- Abstract tasks become tasks of a backend. -/
  | specialize
  /-- Cleanups after that. -/
  | postSpecialize
  /-- Conversions between kinds of buffers. -/
  | convert
  /-- Trees are flattened into the submission list. -/
  | linear
  /-- Changes of the whole list: merging, reordering. -/
  | list
  deriving DecidableEq, Repr

namespace Category

/-- All categories in processing order. -/
def all : List Category :=
  [common, preSpecialize, specialize, postSpecialize, convert, linear, list]

/-- The number of categories. -/
def count : Nat := all.length

/-- The position in processing order. -/
def index : Category → Nat
  | common => 0
  | preSpecialize => 1
  | specialize => 2
  | postSpecialize => 3
  | convert => 4
  | linear => 5
  | list => 6

/-- The category at a position, if there is one. -/
def ofIndex? (i : Nat) : Option Category := all[i]?

/-- The rules of these categories run together as one step; the rules of the others run one at a
time in the order of their registration. -/
def simultaneous : Category → Bool
  | common | specialize | list => true
  | _ => false

/-- The spelling of the category. -/
def name : Category → String
  | common => "Common"
  | preSpecialize => "PreSpecialize"
  | specialize => "Specialize"
  | postSpecialize => "PostSpecialize"
  | convert => "Convert"
  | linear => "Linear"
  | list => "List"

/-- The category with a given spelling. -/
def ofName? (s : String) : Option Category := all.find? fun c => c.name = s

instance : LT Category := ⟨fun a b => a.index < b.index⟩

instance (a b : Category) : Decidable (a < b) :=
  inferInstanceAs (Decidable (a.index < b.index))

theorem ofIndex?_index (c : Category) : ofIndex? c.index = some c := by
  cases c <;> rfl

theorem index_lt_count (c : Category) : c.index < count := by
  cases c <;> decide

theorem index_of_ofIndex?_eq_some {i : Nat} {c : Category} (h : ofIndex? i = some c) :
    c.index = i := by
  match i, h with
  | 0, h | 1, h | 2, h | 3, h | 4, h | 5, h | 6, h => cases h; rfl

theorem mem_all (c : Category) : c ∈ all := by
  cases c <;> decide

end Category

end RenderPlan
