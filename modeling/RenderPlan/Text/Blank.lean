/-
# RenderPlan.Text.Blank -- white space of Unicode

`isBlank` is the property `White_Space` of the Unicode character database: twenty-five characters.
The classes of `Char` know ASCII only and leave out the vertical tab and the form feed, so text
that may hold any character is trimmed with this table.
-/

namespace RenderPlan.Text

/-- The ranges of code points that count as white space, both ends included. -/
def blankRanges : List (Nat × Nat) :=
  [(0x09, 0x0D), (0x20, 0x20), (0x85, 0x85), (0xA0, 0xA0), (0x1680, 0x1680), (0x2000, 0x200A),
    (0x2028, 0x2029), (0x202F, 0x202F), (0x205F, 0x205F), (0x3000, 0x3000)]

/-- The code point lies in one of the ranges. -/
def inRanges (ranges : List (Nat × Nat)) (c : Char) : Bool :=
  ranges.any fun r => r.1 ≤ c.toNat && c.toNat ≤ r.2

/-- White space, of any script. -/
def isBlank (c : Char) : Bool := inRanges blankRanges c

/-- The text without white space at either end. -/
def trim (cs : List Char) : List Char :=
  ((cs.dropWhile isBlank).reverse.dropWhile isBlank).reverse

/-- The pieces of a text between the occurrences of `mark`. There is always one piece more than
there are marks. -/
def pieces (mark : Char) : List Char → List (List Char)
  | [] => [[]]
  | c :: cs =>
    if c = mark then [] :: pieces mark cs
    else match pieces mark cs with
      | [] => [[c]]
      | p :: ps => (c :: p) :: ps

/-- The pieces with the mark put back between them. -/
def joined (mark : Char) : List (List Char) → List Char
  | [] => []
  | [p] => p
  | p :: q :: ps => p ++ mark :: joined mark (q :: ps)

theorem pieces_ne_nil (mark : Char) (cs : List Char) : pieces mark cs ≠ [] := by
  cases cs with
  | nil => simp [pieces]
  | cons c cs =>
    unfold pieces
    split
    · simp
    · split <;> simp

/-- Cutting a text loses nothing. -/
theorem joined_pieces (mark : Char) (cs : List Char) : joined mark (pieces mark cs) = cs := by
  induction cs with
  | nil => rfl
  | cons c cs ih =>
    obtain ⟨p, ps, hp⟩ := List.exists_cons_of_ne_nil (pieces_ne_nil mark cs)
    rw [hp] at ih
    unfold pieces
    rw [hp]
    split
    · rename_i h
      simp [joined, ih, h]
    · cases ps with
      | nil => simpa [joined] using ih
      | cons q qs => simpa [joined] using ih

end RenderPlan.Text
