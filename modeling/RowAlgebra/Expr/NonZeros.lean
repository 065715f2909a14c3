import RowAlgebra.Expr.Label

/-!
# Deriving non-zero counts

The non-zero count of an expression follows from its leaves as long as only transpositions and the
scaling by a non-zero, finite number lie between. `Expr.nonZeroCount` derives it or says why it
cannot; `Expr.determineNonZeroCount` answers an unknown count where an operator has no rule.
-/

namespace RowAlgebra

namespace Scalar

/-- Whether a scalar is a finite number. Only integers of 64 bits, signed or not, can be asked. -/
def isFinite : Scalar → Except Error Bool
  | int n =>
    if -(2 ^ 63 : Int) ≤ n ∧ n < 2 ^ 64 then .ok true else .error (.fault .type)
  | bool _ => .ok true
  | float x => .ok (FloatBits.of x).isFinite
  | absent | text _ => .error (.fault .type)

end Scalar

namespace UnaryOp

variable {α : Type}

/-- Whether an operator keeps the number of non-zero cells. -/
def keepsNonZeros : UnaryOp α → Except Error Bool
  | transpose | transposeAnyKey => .ok true
  | scalar .times s | scalar .divide s => if s.isZero then .ok false else s.isFinite
  | _ => .ok false

end UnaryOp

namespace Expr

variable {α : Type}

def nonZeroCount : Expr α → Except Error NonZeroCount
  | checkpoint _ c => .ok c.nonZeros
  | e@(unary _ op input) => do
    if ← op.keepsNonZeros then input.nonZeroCount
    else .error (.countUnsupported e.name)
  | e => .error (.countUnsupported e.name)

/-- The non-zero count, or an unknown one if some operator has no rule for it. -/
def determineNonZeroCount (e : Expr α) : Except Error NonZeroCount :=
  match e.nonZeroCount with
  | .error (.countUnsupported _) => .ok .unknown
  | answer => answer

end Expr

end RowAlgebra
