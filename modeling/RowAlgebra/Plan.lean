import RowAlgebra.Plan.Cleanup
import RowAlgebra.Plan.Normalize

/-!
# Plans

A plan is an expression that can be executed: the two passes of the planner turn any expression into
one, or refuse it.
-/

namespace RowAlgebra.Expr

/-- The plan of an expression. -/
def optimize {α : Type} [Cell α] (e : Expr α) : Build (Expr α) := do
  cleanup (← e.normalize)

end RowAlgebra.Expr
