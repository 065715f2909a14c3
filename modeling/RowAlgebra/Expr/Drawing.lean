import RowAlgebra.Expr.Label

/-!
# Drawings

`Expr.explain` writes an expression as an indented tree, with a line for each use of a node.
`Expr.drawing` lists what has to be drawn to show it as a graph: each node once, when it is first
reached, and one edge per input. Specialized products are bold, transpositions dashed and
checkpoints grey boxes. Both show the label and the sides of every node, so they fail where one of
these cannot be told or written.
-/

namespace RowAlgebra

inductive DrawStep where
  | node (id : NodeId) (label : Text) (attributes : List (String × String))
  | edge (source target : NodeId)

namespace DrawStep

def ids : DrawStep → List NodeId
  | node id _ _ => [id]
  | edge source target => [source, target]

def rename (f : NodeId → Nat) : DrawStep → DrawStep
  | node id label attributes => node (f id) label attributes
  | edge source target => edge (f source) (f target)

/-- Numbers the nodes of a drawing by their first appearance. -/
def numbered (steps : List DrawStep) : List DrawStep :=
  let ids := (steps.flatMap DrawStep.ids).eraseDups
  steps.map (rename ids.idxOf)

end DrawStep

namespace Expr

variable {α : Type}

/-- The two sides of an expression. The first one is written before the second one is told. -/
def sides (e : Expr α) : Except Error Text := do
  let nrow ← Decimal.intText (← e.schema.rows.count)
  return nrow ++ "x" ++ (← Decimal.intText (← e.schema.columns.count))

/-- The line of a node at a depth of the tree. -/
def explainAt (indent : Int) (depth : Nat) (e : Expr α) : Except Error Text := do
  let spaces ← Capacity.spaces (indent * depth)
  let label ← e.label
  return spaces ++ (if depth = 0 then "" else "<- ") ++ label ++ " [" ++ (← e.sides) ++ "]"

def explainFrom (indent : Int) (depth : Nat) : Expr α → Except Error (List Text)
  | e@(checkpoint _ _) | e@(foreign _ _) => do return [← explainAt indent depth e]
  | e@(unary _ _ input) => do
    let line ← explainAt indent depth e
    return line :: (← input.explainFrom indent (depth + 1))
  | e@(binary _ _ left right) => do
    let line ← explainAt indent depth e
    let lines ← left.explainFrom indent (depth + 1)
    return line :: (lines ++ (← right.explainFrom indent (depth + 1)))

/-- The lines of an expression as one text, inputs `indent` spaces further in than their
operator. -/
def explain (e : Expr α) (indent : Int) : Except Error Text := do
  return .intercalate "\n" (← e.explainFrom indent 0)

/-! ## Drawing -/

def attributes : Expr α → List (String × String)
  | checkpoint _ _ => [("shape", "box"), ("color", "grey")]
  | unary _ .selfGramian _ | binary _ .matMulTransA _ _ | binary _ .matMulTransB _ _ =>
    [("style", "bold")]
  | unary _ .transpose _ | unary _ .transposeAnyKey _ => [("style", "dashed")]
  | unary _ (.mapBlock _ _ _) _ => [("shape", "hexagon")]
  | _ => []

/-- Every backslash doubled, so that the drawing program shows it. -/
def escapeLabel (t : Text) : Text :=
  ⟨t.points.flatMap fun (p : CodePoint) => if p = '\\' then [p, p] else [p]⟩

/-- What a node is labelled with in a drawing. -/
def caption (e : Expr α) : Except Error Text := do
  let label ← e.label
  return label ++ "\n" ++ (← e.sides)

def drawNode (e : Expr α) : Except Error DrawStep := do
  return .node e.id (escapeLabel (← e.caption)) e.attributes

/-- The steps that draw a node and what lies below it, and the nodes drawn after that. -/
def drawFrom (drawn : List NodeId) : Expr α → Except Error (List DrawStep × List NodeId)
  | e@(checkpoint id _) | e@(foreign id _) => do return ([← drawNode e], id :: drawn)
  | e@(unary id _ input) => do
    let node ← drawNode e
    let drawn := id :: drawn
    let (steps, drawn) ←
      if drawn.contains input.id then pure ([], drawn) else input.drawFrom drawn
    return (node :: .edge id input.id :: steps, drawn)
  | e@(binary id _ left right) => do
    let node ← drawNode e
    let drawn := id :: drawn
    let (first, drawn) ←
      if drawn.contains left.id then pure ([], drawn) else left.drawFrom drawn
    let (second, drawn) ←
      if drawn.contains right.id then pure ([], drawn) else right.drawFrom drawn
    return (node :: .edge id left.id :: first ++ .edge id right.id :: second, drawn)

/-- The steps that draw an expression, if all its nodes have a caption. -/
def drawing (e : Expr α) : Except Error (List DrawStep) := do
  return (← e.drawFrom []).1

end Expr

end RowAlgebra
