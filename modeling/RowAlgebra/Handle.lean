import RowAlgebra.Collection

/-!
# Handles

A `Handle` is the physical form of a matrix: its rows and its number of columns. `Handle.collect`
gathers an integer-keyed matrix into a dense one; rows without a key are zero, a later row hides an
earlier one with the same key, and a negative key counts from the end. Positions are signed numbers
of 64 bits.
-/

namespace RowAlgebra

structure Handle (α : Type) where
  collection : Collection α
  ncol : Int

/-! ## Keys as positions -/

namespace Key

def next : Key → Except Error Key
  | int n => .ok (int (n + 1))
  | bool b => .ok (int (if b then 2 else 1))
  | float x => .ok (float (x + 1.0))
  | undefined _ => .ok (undefined .fresh)
  | text _ => .error (.fault .type)

/-- The number of rows that a key stands for. -/
def extent : Key → Except Error Int
  | int n => .ok n
  | _ => .error (.fault .type)

def largest (first : Key) : List Key → Key
  | [] => first
  | k :: ks => largest (if first.magnitude.below k.magnitude then k else first) ks

end Key

namespace Handle

variable {α : Type}

/-- The number of rows up to the largest key. -/
def openExtent (keys : List Key) : Except Error Int := do
  match ← keys.mapM Key.next with
  | [] => return 0
  | k :: ks => (Key.largest k ks).extent

/-- Why an integer is no position: either it is out of bounds, or its 64 bits leave no room for a
sign. -/
def positionFault (k : Int) : ErrorKind :=
  if 2 ^ 63 ≤ k ∧ k < 2 ^ 64 then .overflow else .index

/-- Writes one row into a grid. A truth value addresses all rows or none. -/
def place [Cell α] {r c : Nat} (grid : Grid α r c) (entry : KeyedRow α) :
    Except Error (Grid α r c) :=
  match entry.1 with
  | .int k =>
    if 0 ≤ k ∧ k < r then do return grid.setIfInBounds k.toNat (← entry.2.stretch c)
    else if -(r : Int) ≤ k ∧ k < 0 then do
      return grid.setIfInBounds (k + r).toNat (← entry.2.stretch c)
    else .error (.fault (positionFault k))
  | .bool b => do
    let row ← entry.2.stretch c
    return if b then Vector.replicate r row else grid
  | _ => .error (.fault .index)

section Collecting

variable [Cell α]

/-- The dense matrix with `nrow` rows, or with as many as the largest key asks for. -/
def collect (h : Handle α) (nrow : Option Int) : Except Error (Dense α) := do
  if !h.collection.keyType.isInt then
    throw (.collectedKeys h.collection.keyType)
  let nrow ← match nrow with
    | some n => pure n
    | none => openExtent h.collection.keys
  let (r, c) ← Dense.sides α nrow h.ncol
  let cells ← h.collection.rows.foldlM place (Dense.zeros r c)
  return ⟨r, c, cells⟩

end Collecting

end Handle

end RowAlgebra
