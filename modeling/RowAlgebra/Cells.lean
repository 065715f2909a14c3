import RowAlgebra.Dense

/-!
# Cells of distributed rows

A row of a distributed matrix normally holds plain cells. A row without cells that meets an absent
scalar has nothing to fail at, and becomes `mixed`: from then on, whatever gets into it is kept and
computed with as a scalar (`Scalar.add` and the others), until the row is turned into plain cells
again (`Cells.toRow`). A row that is computed from a mixed one is mixed, too.
-/

namespace RowAlgebra

inductive Cells (α : Type) where
  | plain (row : Row α)
  | mixed (row : List Scalar)

namespace Cells

variable {α : Type}

def length : Cells α → Nat
  | plain row => row.length
  | mixed row => row.length

def plain? : Cells α → Option (Row α)
  | plain row => some row
  | mixed _ => none

variable [Cell α]

def toScalars : Cells α → List Scalar
  | plain row => row.map Cell.toScalar
  | mixed row => row

/-- The plain cells of a row; not every scalar stands for one. -/
def toRow : Cells α → Except Error (Row α)
  | plain row => .ok row
  | mixed row => row.mapM Cell.ofScalar

/-- The plain cells of a row that is stretched to `n` cells. -/
def stretch (n : Nat) : Cells α → Except Error (Vector α n)
  | plain row => Row.stretch n row
  | mixed row =>
    if row.length = n ∨ row.length = 1 then do Row.stretch n (← row.mapM Cell.ofScalar)
    else .error (.fault .value)

def combine (op : CellOp) : Cells α → Cells α → Except Error (Cells α)
  | plain a, plain b => do return plain (← Row.combine op.apply a b)
  | a, b => do
    return mixed (← (← Row.paired a.toScalars b.toScalars).mapM fun (x, y) => op.onScalars x y)

/-- Combines the cells of a row with a scalar. A text is refused by plain cells as a whole, an
absent scalar by each of them. -/
def withScalar (op : ScalarOp) : Scalar → Cells α → Except Error (Cells α)
  | s, mixed row => do return mixed (← row.mapM fun x => op.onScalars x s)
  | .text _, plain _ => .error (.fault op.textFault)
  | .absent, plain [] => .ok (mixed [])
  | s, plain row => do
    let cell ← Cell.ofScalar s
    return plain (row.map fun x => op.apply x cell)

/-- The inner products of a row with the rows of a dense matrix of the same width. -/
def againstRows (m : Dense α) (cells : Cells α) : Except Error (Cells α) :=
  if cells.length ≠ m.ncol then .error (.fault .value)
  else
    match cells with
    | plain row => .ok (plain (m.rows.map fun other => Dense.dot other row))
    | mixed row => do
      return mixed (← m.rows.mapM fun other => Scalar.dot ((other.map Cell.toScalar).zip row))

/-- Why the outer product of two rows cannot be added to a matrix of plain cells: if not for its own
sake, since it is mixed. -/
def outerRefusal (a b : Cells α) : Error :=
  let products := a.toScalars.flatMap fun x => b.toScalars.map fun y => (x, y)
  match products.mapM fun (x, y) => x.mul y with
  | .error e => e
  | .ok _ => .fault .elementType

def addOuter {r c : Nat} (grid : Grid α r c) : Cells α → Cells α → Except Error (Grid α r c)
  | plain a, plain b => do
    let x ← Row.stretch r a
    let y ← Row.stretch c b
    return Vector.ofFn fun i => Vector.ofFn fun j => Cell.add grid[i][j] (Cell.mul x[i] y[j])
  | a, b => .error (outerRefusal a b)

end Cells

end RowAlgebra
