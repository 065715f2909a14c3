import RowAlgebra.Expr

/-!
# Structural equality

Two expressions are equal if they apply the same operators with equal parameters to equal inputs.
Checkpoints are equal only to themselves. Parameters compare by value, so a scalar or a cell that is
not a number equals nothing, and a node that holds one does not even equal itself.
-/

namespace RowAlgebra

namespace UnaryOp

variable {α : Type} [Cell α]

/-- Whether two row ranges select the same rows; all empty ranges do. -/
def sameRange (start stop start' stop' : Int) : Bool :=
  if stop ≤ start then stop' ≤ start' else start == start' && stop == stop'

def same : UnaryOp α → UnaryOp α → Bool
  | transpose, transpose => true
  | transposeAnyKey, transposeAnyKey => true
  | selfGramian, selfGramian => true
  | scalar op s, scalar op' s' => s.same s' && op == op'
  | rowRange start stop, rowRange start' stop' => sameRange start stop start' stop'
  | leftMultiply m, leftMultiply m' => m.same m'
  | rightMultiply m, rightMultiply m' => m.same m'
  | mapBlock fn ncol keeps, mapBlock fn' ncol' keeps' =>
    fn == fn' && ncol == ncol' && keeps == keeps'
  | _, _ => false

end UnaryOp

namespace Expr

variable {α : Type} [Cell α]

def same : Expr α → Expr α → Bool
  | checkpoint i _, checkpoint j _ => i == j
  | foreign _ shape, foreign _ shape' => shape == shape'
  | unary _ op a, unary _ op' a' => op.same op' && same a a'
  | binary _ op a b, binary _ op' a' b' => op == op' && same a a' && same b b'
  | _, _ => false

end Expr

end RowAlgebra
