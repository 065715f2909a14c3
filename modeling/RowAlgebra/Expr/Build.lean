import RowAlgebra.Expr

/-!
# Building expressions

`Expr.ofUnary` and `Expr.ofBinary` build a node with a number of its own, provided that the operator
admits its inputs: shapes have to fit, and operators that read keys as positions need integer keys.
`Expr.withInput` and `Expr.withInputs` exchange the inputs of a node. They give the node itself back
if the inputs are the nodes that it already has, and build a new node otherwise.
-/

namespace RowAlgebra

/-- Computations that build nodes; the state is the next free number. -/
abbrev Build := StateT NodeId (Except Error)

namespace Build

/-- A number that no node has yet. -/
def fresh : Build NodeId := fun next => .ok (next, next + 1)

/-- Fails unless `condition` holds. -/
def require (condition : Bool) (error : Error) : Except Error Unit :=
  if condition then .ok () else .error error

/-- Fails unless two sides are equally long; `refuse` words the shapes of the operands. -/
def requireFit (a b : Side) (left right : Except Error Shape) (refuse : Shape → Shape → Error) :
    Except Error Unit := do
  if (← a.count) = (← b.count) then return ()
  else throw (refuse (← left) (← right))

end Build

def rangeText (start stop : Int) : String :=
  "range(" ++ toString start ++ ", " ++ toString stop ++ ")"

namespace UnaryOp

variable {α : Type}

def admits (s : Schema) : UnaryOp α → Except Error Unit
  | transpose => Build.require s.keyType.isInt (.transposedKeys s.keyType)
  | rowRange start stop => do
    Build.require s.keyType.isInt .rangeKeys
    let nrow ← s.rows.count
    Build.require (decide (0 ≤ start ∧ start ≤ stop ∧ stop ≤ nrow))
      (.rangeBounds (rangeText start stop) nrow)
  | leftMultiply m => do
    Build.requireFit (.ofLength m.ncol) s.rows (.ok m.shape) s.shape (.productShapes .plain)
    Build.require s.keyType.isInt .leftFactorKeys
  | rightMultiply m =>
    Build.requireFit s.columns (.ofLength m.nrow) s.shape (.ok m.shape) (.productShapes .plain)
  | transposeAnyKey | selfGramian | scalar _ _ | mapBlock _ _ _ => .ok ()

end UnaryOp

namespace BinaryOp

/-- Checks that an operator can be applied to inputs with the schemas `l` and `r`. -/
def admits (l r : Schema) : BinaryOp → Except Error Unit
  | matMul => Build.requireFit l.columns r.rows l.shape r.shape (.productShapes .plain)
  | matMulTransA => Build.requireFit l.rows r.rows l.shape r.shape (.productShapes .transposedLeft)
  | matMulTransB => do
    Build.requireFit l.columns r.columns l.shape r.shape (.productShapes .transposedRight)
    Build.require r.keyType.isInt .rightOperandKeys
  | elementwise _ => do
    let left ← l.shape
    let right ← r.shape
    Build.require (left == right) (.elementwiseShapes left right)
    Build.require (l.keyType == r.keyType) .elementwiseKeys

end BinaryOp

namespace Expr

variable {α : Type}

def ofUnary (op : UnaryOp α) (input : Expr α) : Build (Expr α) := do
  op.admits input.schema
  return unary (← Build.fresh) op input

def ofBinary (op : BinaryOp) (left right : Expr α) : Build (Expr α) := do
  op.admits left.schema right.schema
  return binary (← Build.fresh) op left right

/-- The transposed matrix, by the operator that fits its keys. -/
def transposed (e : Expr α) : Build (Expr α) :=
  ofUnary (if e.keyType.isInt then .transpose else .transposeAnyKey) e

/-- The node `unary id op input` with another input. A transposition picks its operator anew. -/
def withInput (id : NodeId) (op : UnaryOp α) (input new : Expr α) : Build (Expr α) :=
  if new.id = input.id then pure (unary id op input)
  else
    match op with
    | .transpose => transposed new
    | op => ofUnary op new

/-- The node `binary id op left right` with other inputs. -/
def withInputs (id : NodeId) (op : BinaryOp) (left right newLeft newRight : Expr α) :
    Build (Expr α) :=
  if newLeft.id = left.id ∧ newRight.id = right.id then pure (binary id op left right)
  else ofBinary op newLeft newRight

end Expr

end RowAlgebra
