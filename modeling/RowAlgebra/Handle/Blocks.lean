import RowAlgebra.Handle

/-!
# Block functions

A block function receives the keys and the rows of one partition and yields a new pair. The list of
keys is handed to it as it is, so it may also change that list in place. It is known by its name; a
`BlockCatalogue` says what each name computes. `mapBlock` applies one to every partition that holds
rows, turns what it yields into plain cells, and checks that these are as many rows and keys as the
handed list has keys, of the promised width, and with the keys of the handed list where the operator
promises to keep them. The checks come after the call and look at the handed list as it is then
(`BlockContract.enforce`). Keys that a block function makes are settled afterwards.
-/

namespace RowAlgebra

abbrev BlockName := String

/-- The rows of a partition as one matrix, which holds scalars if any of the rows is mixed. -/
inductive Block (α : Type) where
  | plain (m : Dense α)
  | mixed (m : Dense Scalar)

namespace Block

/-- The plain cells of a block; not every scalar stands for one. -/
def toDense {α : Type} [Cell α] : Block α → Except Error (Dense α)
  | plain m => .ok m
  | mixed m => do return ⟨m.nrow, m.ncol, ← m.cells.mapM fun row => row.mapM Cell.ofScalar⟩

/-- Rearranges the rows and columns of a block, whatever its cells are. -/
def rearrange {α : Type} (f : {β : Type} → Dense β → Dense β) : Block α → Block α
  | plain m => plain (f m)
  | mixed m => mixed (f m)

end Block

/-- What a block function leaves behind: the keys and the rows that it yields, and the list of keys
that it was handed, as it is after the call. -/
structure BlockResult (β : Type) where
  keys : List Key
  block : β
  handed : List Key

abbrev BlockFunction (α : Type) := List Key → Block α → Except Error (BlockResult (Block α))

/-- What each block function computes. -/
abbrev BlockCatalogue (α : Type) := BlockName → BlockFunction α

/-- What a `mapBlock` operator asks of its block function. -/
structure BlockContract where
  fn : BlockName
  ncol : Int
  keepsKeys : Bool

namespace BlockContract

/-- The rows that a block function yields for a partition, if it keeps to the contract. -/
def enforce {α : Type} (contract : BlockContract) (result : BlockResult (Dense α)) :
    Except Error (List (KeyedRow α)) :=
  let expected : Shape := ⟨result.handed.length, contract.ncol⟩
  if result.block.shape ≠ expected ∨ result.keys.length ≠ result.handed.length then
    .error (.blockShape contract.fn result.block.shape expected)
  else if contract.keepsKeys && !Key.sameAll result.keys result.handed then
    .error (.blockKeys contract.fn)
  else .ok (result.keys.zip (result.block.rows.map .plain))

end BlockContract

namespace Handle

variable {α : Type} [Cell α]

def stacked (rows : List (Cells α)) : Except Error (Block α) :=
  let width := rows.head?.elim 0 Cells.length
  let block? := match rows.mapM Cells.plain? with
    | some rows => (Dense.ofRows? width rows).map Block.plain
    | none => (Dense.ofRows? width (rows.map Cells.toScalars)).map Block.mixed
  match block? with
  | some block => .ok block
  | none => .error (.fault .value)

/-- Applies a block function to one partition. -/
def applyBlock (f : BlockFunction α) (contract : BlockContract) (p : List (KeyedRow α)) :
    Except Error (List (KeyedRow α)) :=
  if p.isEmpty then .ok []
  else do
    let result ← f (p.map Prod.fst) (← stacked (p.map Prod.snd))
    contract.enforce ⟨result.keys, ← result.block.toDense, result.handed⟩

/-- Applies a block function to every partition, as the call with a number. -/
def mapBlock (f : BlockFunction α) (contract : BlockContract) (call : Nat) (a : Handle α) :
    Except Error (Handle α) := do
  let collection ← a.collection.mapPartitions (applyBlock f contract)
  return ⟨collection.settle call, contract.ncol⟩

end Handle

end RowAlgebra
