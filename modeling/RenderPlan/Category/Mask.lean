/-
# RenderPlan.Category.Mask -- sets of categories

A mask is a 32-bit word whose lowest seven bits stand for the categories. The other bits stand for
nothing, but they are kept by every operation: a mask with such a bit is not empty, and it is
contained only in masks that have the bit too.
-/
import RenderPlan.Category.Basic
import RenderPlan.Text.Flags

namespace RenderPlan

/-- A set of categories, open to bits that name none. -/
structure Mask where
  bits : UInt32
  deriving DecidableEq, Repr

namespace Mask

/-- No bit. -/
def empty : Mask := ⟨0⟩

instance : EmptyCollection Mask := ⟨empty⟩
instance : Inhabited Mask := ⟨empty⟩
instance : Union Mask := ⟨fun a b => ⟨a.bits ||| b.bits⟩⟩
instance : Inter Mask := ⟨fun a b => ⟨a.bits &&& b.bits⟩⟩
instance : SDiff Mask := ⟨fun a b => ⟨a.bits &&& ~~~b.bits⟩⟩

/-- The seven categories. -/
def full : Mask := ⟨127⟩

/-- No bit is set. -/
def isEmpty (m : Mask) : Bool := m.bits = 0

/-- The masks have a bit in common. -/
def intersects (a b : Mask) : Bool := !(a ∩ b).isEmpty

/-- Every bit of `b` is set in `a`. -/
def contains (a b : Mask) : Bool := a ∩ b = b

/-- Every category is in the mask. -/
def isFull (m : Mask) : Bool := m.contains full

/-- The mask without the bits that name no category. -/
def truncate (m : Mask) : Mask := m ∩ full

/-- Every bit of the mask names a category. -/
def isStrict (m : Mask) : Bool := full.contains m

/-- The names of the flags. -/
def table : Text.FlagTable :=
  [("COMMON", 1), ("PRE_SPECIALIZE", 2), ("SPECIALIZE", 4), ("POST_SPECIALIZE", 8),
    ("CONVERT", 16), ("LINEAR", 32), ("LIST", 64)]

/-- The mask as the names of its categories. -/
def text (m : Mask) : String := table.write m.bits

/-- The form shown in messages. -/
def debugText (m : Mask) : String := table.debugText "CategoryMask" m.bits

/-- The mask that a text names. -/
def read? (s : String) : Option Mask := (table.read? s).map Mask.mk

end Mask

namespace Category

/-- The mask of this category alone. -/
def mask (c : Category) : Mask := ⟨1 <<< UInt32.ofNat c.index⟩

/-- The mask of the categories strictly before this one. -/
def below (c : Category) : Mask := ⟨(1 <<< UInt32.ofNat c.index) - 1⟩

end Category

namespace Mask

/-- The mask of a list of categories. -/
def ofList (cs : List Category) : Mask := cs.foldl (fun acc c => acc ∪ c.mask) ∅

/-- The categories of a mask, in processing order. -/
def toList (m : Mask) : List Category := Category.all.filter fun c => m.contains c.mask

instance : Membership Category Mask where
  mem m c := m.contains c.mask = true

instance (c : Category) (m : Mask) : Decidable (c ∈ m) :=
  inferInstanceAs (Decidable (m.contains c.mask = true))

theorem bits_union (a b : Mask) : (a ∪ b).bits = a.bits ||| b.bits := rfl

theorem bits_inter (a b : Mask) : (a ∩ b).bits = a.bits &&& b.bits := rfl

theorem bits_sdiff (a b : Mask) : (a \ b).bits = a.bits &&& ~~~b.bits := rfl

end Mask

end RenderPlan
