import RowAlgebra.Scalar.Arithmetic

/-!
# Cell arithmetic

Matrices are computed over any type of cells with the operations of `Cell`. Nothing is assumed of
them: they need not be associative, a scalar may have no cell at all, and there may be matrices that
are too large to be held. Doubles are the cells that programs run on (`instance : Cell Float`).
-/

namespace RowAlgebra

/-- Arithmetic on the cells of a matrix. -/
class Cell (α : Type) where
  zero : α
  add : α → α → α
  sub : α → α → α
  mul : α → α → α
  div : α → α → α
  /-- The cell that a scalar stands for next to other cells. -/
  ofScalar : Scalar → Except Error α
  /-- The scalar that a cell is next to other scalars. -/
  toScalar : α → Scalar := fun _ => .absent
  /-- Equality of cells, as far as it decides whether two in-core matrices are equal. -/
  same : α → α → Bool
  /-- Whether a cell counts as a zero. -/
  isZero : α → Bool
  /-- Why a matrix with so many rows and columns cannot be held, if it is too large. -/
  tooLarge? : Nat → Nat → Option ErrorKind := fun _ _ => none

namespace CellOp

def apply {α : Type} [Cell α] : CellOp → α → α → α
  | plus => Cell.add
  | minus => Cell.sub
  | hadamard => Cell.mul
  | divide => Cell.div

end CellOp

namespace ScalarOp

def apply {α : Type} [Cell α] : ScalarOp → α → α → α
  | plus, a, s => Cell.add a s
  | minus, a, s => Cell.sub a s
  | minusReversed, a, s => Cell.sub s a
  | times, a, s => Cell.mul a s
  | divide, a, s => Cell.div a s
  | divideReversed, a, s => Cell.div s a

/-- The failure of a symbol between a row and a text: only division is not told apart from other
operations on a wrong type. -/
def textFault : ScalarOp → ErrorKind
  | divide | divideReversed => .type
  | _ => .elementType

end ScalarOp

instance : Cell Float where
  zero := 0.0
  add := (· + ·)
  sub := (· - ·)
  mul := (· * ·)
  div := (· / ·)
  ofScalar := Scalar.toFloat
  toScalar := .float
  same x y := (Magnitude.ofFloat x).same (Magnitude.ofFloat y)
  isZero x := Magnitude.ofFloat x == .finite 0
  tooLarge? := Capacity.tableFault?

end RowAlgebra
