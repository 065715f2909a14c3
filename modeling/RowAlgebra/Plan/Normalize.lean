import RowAlgebra.Expr.Build
import RowAlgebra.Expr.Equality
import RowAlgebra.Expr.Label

/-!
# Normal products

The first pass of the planner turns matrix products into special ones, so that transposed operands
become part of a product instead of being transposed physically. The rules are tried from the root
down, and the first that fits wins:

* `A'A` becomes a self-gramian, if both occurrences of `A` are equal expressions;
* `AB'` becomes a product with a transposed right operand;
* `A'B` becomes a product with a transposed left operand;
* any other `AB` becomes `A(B')'`;
* `MB` becomes `(B'M')'`.

All other operators keep their place, and nodes below which nothing changes are kept as they are.
-/

namespace RowAlgebra.Expr

variable {α : Type} [Cell α]

/-- The first pass of the planner. -/
def normalize : Expr α → Build (Expr α)
  | checkpoint id c => pure (checkpoint id c)
  | foreign id shape => throw (.noNormalForm (foreign (α := α) id shape).name)
  | unary id op input =>
    match op with
    | .leftMultiply m => do
      let flipped ← transposed (← input.normalize)
      ofUnary .transpose (← ofUnary (.rightMultiply m.transposed) flipped)
    | op => do withInput id op input (← input.normalize)
  | binary id op left right =>
    match op with
    | .matMul =>
      match left, right with
      | unary i .transpose a, right => do
        if a.same right then ofUnary .selfGramian (← a.normalize)
        else
          match right with
          | unary _ .transpose b =>
            let l ← (unary i .transpose a).normalize
            ofBinary .matMulTransB l (← b.normalize)
          | right =>
            let l ← a.normalize
            ofBinary .matMulTransA l (← right.normalize)
      | unary i .transposeAnyKey a, right => do
        if a.same right then ofUnary .selfGramian (← a.normalize)
        else
          match right with
          | unary _ .transpose b =>
            let l ← (unary i .transposeAnyKey a).normalize
            ofBinary .matMulTransB l (← b.normalize)
          | right =>
            let l ← a.normalize
            ofBinary .matMulTransA l (← right.normalize)
      | left, unary _ .transpose b => do
        let l ← left.normalize
        ofBinary .matMulTransB l (← b.normalize)
      | left, right => do
        let l ← left.normalize
        ofBinary .matMulTransB l (← transposed (← right.normalize))
    | op => do
      let l ← left.normalize
      withInputs id op left right l (← right.normalize)

end RowAlgebra.Expr
