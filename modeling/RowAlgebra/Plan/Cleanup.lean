import RowAlgebra.Expr.Build
import RowAlgebra.Expr.Label

/-!
# Double transpositions

The second pass of the planner removes double transpositions, and refuses a transposition of rows
whose keys are not integers: the first pass has made all such transpositions part of a product that
could be, and the remaining ones cannot be carried out.
-/

namespace RowAlgebra.Expr

variable {α : Type}

/-- The second pass of the planner. -/
def cleanup : Expr α → Build (Expr α)
  | checkpoint id c => pure (checkpoint id c)
  | foreign id shape => throw (.noCleanupRule (foreign (α := α) id shape).name)
  | unary id op input =>
    match op with
    | .transpose =>
      match input with
      | unary _ .transpose a => a.cleanup
      | input => do withInput id .transpose input (← input.cleanup)
    | .transposeAnyKey => throw (.survivingTransposition input.keyType)
    | op => do withInput id op input (← input.cleanup)
  | binary id op left right => do
    let l ← left.cleanup
    withInputs id op left right l (← right.cleanup)

end RowAlgebra.Expr
