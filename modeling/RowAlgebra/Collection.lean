import RowAlgebra.Cells

/-!
# Row collections

A `Collection` spreads keyed rows over partitions. It is immutable; operations on it produce new
collections with the same partitions (`mapPartitions`, `mapRows`). `parallelize` cuts a sequence of
rows into contiguous partitions whose sizes differ by at most one, and `find?` looks a row up by its
key, where a later row hides an earlier one.
-/

namespace RowAlgebra

/-- A row of a distributed matrix: its key and its cells. -/
abbrev KeyedRow (α : Type) := Key × Cells α

structure Collection (α : Type) where
  partitions : List (List (KeyedRow α))
  keyType : KeyType

namespace Collection

variable {α : Type}

def rows (c : Collection α) : List (KeyedRow α) :=
  c.partitions.flatten

def keys (c : Collection α) : List Key :=
  c.rows.map Prod.fst

def partitionKeys (c : Collection α) : List (List Key) :=
  c.partitions.map fun p => p.map Prod.fst

def count (c : Collection α) : Nat :=
  (c.partitions.map List.length).sum

/-! ## Spreading rows -/

/-- The sizes of `k` parts of `n` items: the first `n % k` parts hold one item more. -/
def evenSizes (n k : Nat) : List Nat :=
  List.replicate (n % k) (n / k + 1) ++ List.replicate (k - n % k) (n / k)

def cut {β : Type} : List Nat → List β → List (List β)
  | [], _ => []
  | size :: sizes, items => items.take size :: cut sizes (items.drop size)

/-- Spreads rows evenly over `k` partitions. -/
def spread (rows : List (KeyedRow α)) (k : Nat) (keyType : KeyType) : Collection α :=
  ⟨cut (evenSizes rows.length k) rows, keyType⟩

/-- The number of partitions that a scalar asks for. What is no integer has to be at least one
before it is cut off. -/
def partitionCount : Scalar → Except Error Int
  | .int n => .ok n
  | s => if s.magnitude.below (.finite 1) then .error (.about .noPartitions s.label) else s.cutOff

/-- Distributes rows into `k` contiguous partitions of almost equal size, unless there are far too
many empty ones among them. -/
def parallelize (rows : List (KeyedRow α)) (k : Int) (keyType : KeyType) :
    Except Error (Collection α) :=
  if k < 1 then .error (.about .noPartitions (Scalar.int k).label)
  else do
    Capacity.sequence (k - rows.length)
    return spread rows k.toNat keyType

/-! ## Transformations -/

def mapPartitions (f : List (KeyedRow α) → Except Error (List (KeyedRow α))) (c : Collection α) :
    Except Error (Collection α) := do
  return ⟨← c.partitions.mapM f, c.keyType⟩

/-- Transforms each row, which keeps its key and its partition. -/
def mapRows (f : Cells α → Except Error (Cells α)) (c : Collection α) :
    Except Error (Collection α) :=
  c.mapPartitions fun p => p.mapM fun (key, row) => do return (key, ← f row)

/-- Settles the keys of some partitions, before which there are `position` rows. -/
def settleFrom (call position : Nat) : List (List (KeyedRow α)) → List (List (KeyedRow α))
  | [] => []
  | p :: ps =>
    ((p.zipIdx position).map fun (entry, i) => (entry.1.settle call i, entry.2)) ::
      settleFrom call (position + p.length) ps

def settle (call : Nat) (c : Collection α) : Collection α :=
  { c with partitions := settleFrom call 0 c.partitions }

/-! ## Look-up by key -/

def findIn? (k : Key) : List (KeyedRow α) → Option (Cells α)
  | [] => none
  | (key, row) :: rest =>
    match findIn? k rest with
    | some found => some found
    | none => if k.same key then some row else none

def find? (c : Collection α) (k : Key) : Option (Cells α) :=
  findIn? k c.rows

def hasKey (c : Collection α) (k : Key) : Bool :=
  c.keys.any k.same

/-- Whether two sequences of partitions hold the same keys at the same places. -/
def sameLayout : List (List Key) → List (List Key) → Bool
  | [], [] => true
  | p :: ps, q :: qs => Key.sameAll p q && sameLayout ps qs
  | _, _ => false

def samePartitionKeys (a b : Collection α) : Bool :=
  sameLayout a.partitionKeys b.partitionKeys

/-- The summary of a collection that is stored at some level. -/
def display (c : Collection α) (level : String) : String :=
  "RowCollection(partitions=" ++ toString c.partitions.length ++ ", rows=" ++ toString c.count ++
    ", cached=" ++ level ++ ")"

end Collection

end RowAlgebra
