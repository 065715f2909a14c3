import RowAlgebra.Expr

/-!
# Labels

How operators and expressions are written: `Expr.label` names one node with its parameters,
`Expr.text` a whole expression, each operator followed by its inputs in brackets. A label shows
integers, and one of very many digits cannot be written (`Decimal.intText`). An expression is
written from the root down, and each operator nests what is written below it one level deeper;
`Expr.representation` gives up when the nesting exceeds the room that there is for it.
-/

namespace RowAlgebra

/-- The two sides of a matrix in a label. -/
def Shape.label (s : Shape) : Except Error Text := do
  let nrow ← Decimal.intText s.nrow
  return nrow ++ "x" ++ (← Decimal.intText s.ncol)

namespace UnaryOp

variable {α : Type}

def name : UnaryOp α → String
  | transpose => "Transpose"
  | transposeAnyKey => "TransposeAnyKey"
  | selfGramian => "SelfGramian"
  | scalar _ _ => "ElementwiseScalar"
  | rowRange _ _ => "RowRange"
  | leftMultiply _ => "LeftMatrixMultiply"
  | rightMultiply _ => "RightMatrixMultiply"
  | mapBlock _ _ _ => "MapBlock"

def parameters : UnaryOp α → Except Error Text
  | transpose | transposeAnyKey | selfGramian => .ok ""
  | scalar op s => do return "(" ++ op.symbol ++ " " ++ (← s.label) ++ ")"
  | rowRange start stop => do
    let start ← Decimal.intText start
    return "(" ++ start ++ ":" ++ (← Decimal.intText stop) ++ ")"
  | leftMultiply m | rightMultiply m => do return "(" ++ (← m.shape.label) ++ ")"
  | mapBlock fn _ _ => .ok ("(" ++ fn ++ ")" : String)

def label (op : UnaryOp α) : Except Error Text := do
  return op.name ++ (← op.parameters)

/-- The names of the parts of an operator, in the order in which it is taken apart. -/
def fields : UnaryOp α → List String
  | transpose | transposeAnyKey | selfGramian => ["input_node"]
  | scalar _ _ => ["input_node", "scalar", "operator"]
  | rowRange _ _ => ["input_node", "rows"]
  | leftMultiply _ => ["matrix", "input_node"]
  | rightMultiply _ => ["input_node", "matrix"]
  | mapBlock _ _ _ => ["input_node", "fn"]

end UnaryOp

namespace BinaryOp

def name : BinaryOp → String
  | matMul => "MatMul"
  | matMulTransA => "MatMulTransA"
  | matMulTransB => "MatMulTransB"
  | elementwise _ => "ElementwiseBinary"

def label : BinaryOp → String
  | elementwise op => "ElementwiseBinary(" ++ op.symbol ++ ")"
  | op => op.name

def fields : BinaryOp → List String
  | elementwise _ => ["left_input", "right_input", "operator"]
  | _ => ["left_input", "right_input"]

end BinaryOp

/-- A tag as the sixteen hexadecimal digits of its 64 bits. -/
def Tag.hex (tag : Tag) : String :=
  String.ofList (Text.hexPadded 16 (tag % 2 ^ 64).toNat)

def Checkpoint.label {α : Type} (c : Checkpoint α) : Except Error Text := do
  return "Checkpoint(" ++ (← c.shape.label) ++ ", tag=" ++ c.tag.hex ++ ")"

namespace Expr

variable {α : Type}

def name : Expr α → String
  | checkpoint _ _ => "Checkpoint"
  | foreign _ _ => "ForeignOperator"
  | unary _ op _ => op.name
  | binary _ op _ _ => op.name

def label : Expr α → Except Error Text
  | checkpoint _ c => c.label
  | foreign _ _ => .ok "ForeignOperator"
  | unary _ op _ => op.label
  | binary _ op _ _ => .ok op.label

def fields : Expr α → List String
  | checkpoint _ _ => ["handle"]
  | foreign _ _ => []
  | unary _ op _ => op.fields
  | binary _ op _ _ => op.fields

/-- A whole expression, written with room for so many nodes one below the other. -/
def representation : Expr α → (room : Nat) → Except Error Text
  | _, 0 => .error (.fault .recursion)
  | checkpoint _ c, _ + 1 => c.label
  | foreign _ _, _ + 1 => .ok "ForeignOperator"
  | unary _ op input, room + 1 => do
    let label ← op.label
    return label ++ "[" ++ (← input.representation room) ++ "]"
  | binary _ op left right, room + 1 => do
    let first ← left.representation room
    return op.label ++ "[" ++ first ++ ", " ++ (← right.representation room) ++ "]"

/-- A whole expression, written with as much room as it takes. -/
def text (e : Expr α) : Except Error Text :=
  e.representation e.size

end Expr

end RowAlgebra
