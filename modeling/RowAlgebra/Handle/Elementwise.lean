import RowAlgebra.Collection.Index
import RowAlgebra.Handle

/-!
# Element-wise operators

Two matrices are combined cell by cell (`combine`): rows with equal keys meet, and a row that only
one side has meets a row of zeros. The rows of the left operand stay where they are; those of the
right operand alone follow at the end of the last partition. A scalar is combined with the cells of
the rows that are there (`withScalar`), and `rowRange` selects rows by their keys.
-/

namespace RowAlgebra.Handle

variable {α : Type}

/-- Appends rows to the last partition, which has to exist. -/
def appendToLast (extra : List (KeyedRow α)) :
    List (List (KeyedRow α)) → Except Error (List (List (KeyedRow α)))
  | [] => .error (.fault .index)
  | [p] => .ok [p ++ extra]
  | p :: ps => do return p :: (← appendToLast extra ps)

/-! ## Selecting rows -/

/-- Whether a key stands for an integer from `start` up to, but without, `stop`. -/
def inRange (start stop : Int) (k : Key) : Bool :=
  match k.magnitude with
  | .finite q => q.den == 1 && decide (start ≤ q.num) && decide (q.num < stop)
  | _ => false

/-- The key counted from `start`. -/
def rekeyed (start : Int) : Key → Key
  | .int n => .int (n - start)
  | .bool b => .int ((if b then 1 else 0) - start)
  | .float x => .float (x - (nearestFloat? start).getD 0.0)
  | k => k

/-- The rows of a collection whose keys lie in a range, with keys counted from its start. -/
def selected (c : Collection α) (start stop : Int) : Collection α :=
  { c with
    partitions := c.partitions.map fun p =>
      (p.filter fun entry => inRange start stop entry.1).map fun entry =>
        (rekeyed start entry.1, entry.2) }

/-- Selects the rows whose keys lie in a range, as the call with a number. -/
def rowRange (a : Handle α) (start stop : Int) (call : Nat) : Handle α :=
  ⟨(selected a.collection start stop).settle call, a.ncol⟩

variable [Cell α]

/-- Combines two matrices of `ncol` columns cell by cell. -/
def combine (op : CellOp) (a b : Handle α) (ncol : Int) : Except Error (Handle α) := do
  let zeroRow : Cells α := .plain (List.replicate (← Dense.sides α 1 ncol).2 Cell.zero)
  let left := a.collection.index
  let right := b.collection.index
  let merged ← a.collection.mapPartitions fun p => p.mapM fun (key, row) => do
    return (key, ← row.combine op ((right.find? key).getD zeroRow))
  let missing ← (b.collection.rows.filter fun entry => (left.find? entry.1).isNone).mapM
    fun (key, row) => do return (key, ← zeroRow.combine op row)
  if missing.isEmpty then return ⟨merged, ncol⟩
  else return ⟨⟨← appendToLast missing merged.partitions, merged.keyType⟩, ncol⟩

def withScalar (op : ScalarOp) (s : Scalar) (a : Handle α) : Except Error (Handle α) := do
  return ⟨← a.collection.mapRows (Cells.withScalar op s), a.ncol⟩

end RowAlgebra.Handle
