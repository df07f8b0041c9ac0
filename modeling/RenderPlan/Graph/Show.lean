/-
# RenderPlan.Graph.Show -- nodes and task lists as text

A dump is a title line, one line for each node and each hole of the unfolded trees in pre-order,
and a closing rule. A node at depth `d` stands behind `2 * d` spaces, a hole behind one more; so
the shape of the trees can be read off the lines. A node that is reached twice is shown twice. The
lines go down at most as many levels as the graph has nodes.

A node on its own can also be shown with all its fields by name (`Node.debugText`). That form is meant
for people who look into a graph, and does not follow sub-tasks.
-/
import RenderPlan.Graph.Walk
import RenderPlan.Text.Quoted
import RenderPlan.Decimal.Shortest

namespace RenderPlan

/-! ## A node -/

namespace Node

/-- The line of a node, without its indentation. The rectangle is shown when it is valid. -/
def describe (n : Node) : String :=
  n.name
    ++ (match n.bounds with
      | some b => " bounds " ++ b.text
      | none => "")
    ++ (if n.rect.IsValid then " target " ++ n.rect.text else "")
    ++ (match n.target with
      | some b => " surface " ++ b.text
      | none => "")

end Node

/-- A value that may be absent. -/
def optionText {α : Type} (text : α → String) : Option α → String
  | none => "None"
  | some a => "Some(" ++ text a ++ ")"

/-- A coordinate, with the fewest digits that read back. -/
def coordinateText (x : Decimal.Double) : String := x.shortestText ⟨-4, false⟩

/-- The form of a box with named corners. -/
def Bounds.debugText (b : Bounds) : String :=
  "Rect \x7b x0: " ++ coordinateText b.x0 ++ ", y0: " ++ coordinateText b.y0
    ++ ", x1: " ++ coordinateText b.x1 ++ ", y1: " ++ coordinateText b.y1 ++ " \x7d"

/-- All fields of a node. -/
def Node.debugText (n : Node) : String :=
  "TaskNode \x7b kind: " ++ Text.debugQuote n.name
    ++ ", target: " ++ optionText Buffer.text n.target
    ++ ", target_rect: " ++ n.rect.debugText
    ++ ", bounds: " ++ optionText Bounds.debugText n.bounds
    ++ ", sub_tasks: [" ++ ", ".intercalate (n.subTasks.map (optionText TaskId.debugText))
    ++ "] \x7d"

/-! ## A list -/

namespace Graph

/-- So many spaces. -/
def indent (n : Nat) : String := String.ofList (List.replicate n ' ')

/-- The lines of a slot at a level. -/
def slotLines (g : Graph) : Nat → Nat → Option TaskId → Except Fault (List String)
  | _, level, none => .ok [indent (2 * level) ++ " NULL"]
  | 0, _, some _ => .error .endless
  | depth + 1, level, some id => do
    let n ← g.fetch id
    let below ← n.subTasks.mapM (g.slotLines depth (level + 1))
    return (indent (2 * level) ++ n.describe) :: below.flatten

/-- The rule that closes a dump. -/
def rule : String := String.ofList (List.replicate 43 '-')

/-- The opening rule with a title in it. The title stands behind four dashes, is cut at the length
of the rule, and has dashes for its spaces. -/
def titleLine (title : String) : String :=
  let width := rule.length
  let cs := ("    ".toList ++ title.toList).take width
  let cs := cs ++ List.replicate (width - cs.length) ' '
  String.ofList (cs.map fun c => if c = ' ' then '-' else c)

/-- The lines of a list of slots. -/
def listLines (g : Graph) (list : List (Option TaskId)) : Except Fault (List String) :=
  (list.mapM (g.slotLines (g.size + 1) 0)).map List.flatten

/-- The lines of a titled list. -/
def dump (g : Graph) (list : List (Option TaskId)) (title : String) : Except Fault (List String) :=
  (g.listLines list).map fun lines => titleLine title :: lines ++ [rule]

end Graph

end RenderPlan
