import RowAlgebra.Collection.Index
import RowAlgebra.Handle

/-!
# Physical products

Products with a distributed result (`timesTransposed`, `timesDense`) keep the rows of their left
operand where they are. Products with a small result (`transposedTimes`, `gramian`) add up the outer
products of rows in the order of the collection, starting from zeros, and spread the rows of the sum
over as many partitions as their left operand has, but over no more than there are rows.
-/

namespace RowAlgebra.Handle

variable {α : Type}

def numbered (first : Nat) : List (Row α) → List (KeyedRow α)
  | [] => []
  | row :: rows => (.int first, .plain row) :: numbered (first + 1) rows

/-- Distributes a dense matrix over at most `partitions` partitions. -/
def ofDense (m : Dense α) (partitions : Nat) : Handle α :=
  ⟨Collection.spread (numbered 0 m.rows) (max 1 (min partitions m.nrow)) .int, m.ncol⟩

variable [Cell α]

/-- The transposed matrix `A'`, where `A` has `nrow` rows. -/
def transposed (a : Handle α) (nrow : Int) : Except Error (Handle α) := do
  let dense ← a.collect nrow
  return ofDense dense.transposed a.collection.partitions.length

/-- The product `AB'`, where `B` has `ncol` rows. -/
def timesTransposed (a b : Handle α) (ncol : Int) : Except Error (Handle α) := do
  let dense ← b.collect ncol
  return ⟨← a.collection.mapRows (Cells.againstRows dense), ncol⟩

/-- The product `AM` with a dense matrix. -/
def timesDense (a : Handle α) (m : Dense α) : Except Error (Handle α) := do
  return ⟨← a.collection.mapRows (Cells.againstRows m.transposed), m.ncol⟩

/-! ## Sums of outer products -/

/-- Adds the outer products of the rows at equal positions. -/
def addZipped {r c : Nat} (grid : Grid α r c) :
    List (KeyedRow α) → List (KeyedRow α) → Except Error (Grid α r c)
  | a :: as, b :: bs => do addZipped (← Cells.addOuter grid a.2 b.2) as bs
  | _, _ => .ok grid

/-- Adds the outer products of rows at equal positions, partition by partition. -/
def addZippedPartitions {r c : Nat} (grid : Grid α r c) :
    List (List (KeyedRow α)) → List (List (KeyedRow α)) → Except Error (Grid α r c)
  | p :: ps, q :: qs => do addZippedPartitions (← addZipped grid p q) ps qs
  | _, _ => .ok grid

/-- Adds the outer product of a row and the indexed row with the same key, if there is one. -/
def addJoined {r c : Nat} (b : RowIndex α) (grid : Grid α r c) (entry : KeyedRow α) :
    Except Error (Grid α r c) :=
  match b.find? entry.1 with
  | some row => Cells.addOuter grid entry.2 row
  | none => .ok grid

/-- The product `A'B` of the given shape. Rows are paired by position if the operands are
`zippable`, that is, known to hold the same keys at the same places, and by key otherwise. -/
def transposedTimes (a b : Handle α) (shape : Shape) (zippable : Bool) :
    Except Error (Handle α) := do
  let (r, c) ← Dense.sides α shape.nrow shape.ncol
  let zeros := Dense.zeros r c
  let cells ←
    if zippable then
      if a.collection.samePartitionKeys b.collection then
        addZippedPartitions zeros a.collection.partitions b.collection.partitions
      else .error .notIdenticallyPartitioned
    else a.collection.rows.foldlM (addJoined b.collection.index) zeros
  return ofDense ⟨r, c, cells⟩ a.collection.partitions.length

/-- The product `A'A` of the given shape. -/
def gramian (a : Handle α) (shape : Shape) : Except Error (Handle α) := do
  let (r, c) ← Dense.sides α shape.nrow shape.ncol
  let cells ← a.collection.rows.foldlM (fun grid entry => Cells.addOuter grid entry.2 entry.2)
    (Dense.zeros r c)
  return ofDense ⟨r, c, cells⟩ a.collection.partitions.length

end RowAlgebra.Handle
