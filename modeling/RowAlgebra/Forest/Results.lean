import RowAlgebra.Forest.Share
import RowAlgebra.Forest.Tree
import RowAlgebra.Json.Access
import RowAlgebra.Json.Parser
import RowAlgebra.Json.Writer

/-!
# Stored trees

When all trees are built, they are stored together with the sizes of the partitions (`store`): the
text of a file is written, unless a tree is too deep for the writer. Each partition then loads the
trees of all other partitions (`load`), which keep their index in the forest but now belong to the
loading partition. What is stored has to fit the forest: the numbers of partitions and of trees must
agree, and so must the number of trees that remain.
-/

namespace RowAlgebra.Forest

open Json (Datum Value)

/-- Identifies a tree: the partition that it belongs to, and its index in the whole forest. -/
structure TreeId where
  partition : Value
  index : Value

namespace TreeId

def toJson (id : TreeId) : Value :=
  .object [("partition", id.partition), ("tree_id", id.index)]

end TreeId

/-! ## Storing -/

def storedTree (id : TreeId) (tree : Tree) : Datum :=
  .record [(.text "key", id.toJson.toDatum), (.text "tree", tree.toDatum)]

/-- What a file of trees holds. -/
def stored (ids : List TreeId) (trees : List Tree) (sizes : List Value) : Datum :=
  .record [
    (.text "sizes", .list (sizes.map Value.toDatum)),
    (.text "trees", .list (List.zipWith storedTree ids trees))]

/-- The text of the file in which trees are stored, where `room` calls of the writer may be open. -/
def store (room : Nat) (ids : List TreeId) (trees : List Tree) (sizes : List Value) :
    Except Error Text :=
  if ids.length ≠ trees.length then .error (.keysForTrees ids.length trees.length)
  else (stored ids trees sizes).write Json.Style.plain.piecewise room

/-! ## Loading -/

/-- The two parts of a stored identifier, which has exactly these fields. -/
def storedId : Value → Except Error (Value × Value)
  | .object fields =>
    match fields.length, Value.fieldIn? "partition" fields, Value.fieldIn? "tree_id" fields with
    | 2, some partition, some index => .ok (partition, index)
    | _, _, _ => .error (.fault .type)
  | _ => .error (.fault .type)

/-- Loads one stored tree for a partition, unless the tree is its own. -/
def loadTree (partition : Value) (entry : Value) : Except Error (Option (TreeId × Tree)) := do
  let (owner, index) ← storedId (← entry.field "key")
  if owner.same partition then return none
  let tree ← Tree.ofJson (← entry.field "tree")
  return some (⟨partition, index⟩, tree)

/-- A number for a partition that may be given by any value. It only matters whether it is the first
one. -/
def partitionNumber (partition : Value) : Int :=
  if partition.same (.int 0) then 0 else 1

/-- The number of trees that a partition tests, which may be given by any value. -/
def expectedTrees (partitions trees : Int) (partition : Value) : Except Error Int := do
  if ← partition.less (.int 0) then throw (.negativePartition partition.displayAlone)
  concernedTrees partitions trees (partitionNumber partition)

/-- A number as it is shown if it was computed from the given values. -/
def computedFrom (given : List Value) (n : Int) : Value :=
  if given.any Value.isFloat then .float (.ofInt n) else .int n

/-- Loads the trees that a partition tests, in the order in which they were stored. The numbers of
partitions and trees have to be equal to those that are stored. -/
def load (contents partitions trees partition : Value) : Except Error (List (TreeId × Tree)) := do
  let sizes ← (← contents.field "sizes").elements
  if !partitions.same (.int sizes.length) then
    throw (.storedPartitions sizes.length partitions.displayAlone)
  let entries ← (← contents.field "trees").elements
  if !trees.same (.int entries.length) then
    throw (.storedTrees entries.length trees.displayAlone)
  let loaded := (← entries.mapM (loadTree partition)).filterMap fun entry => entry
  let expected ← expectedTrees sizes.length entries.length partition
  if (loaded.length : Int) ≠ expected then
    throw (.receivedTrees partition.displayAlone (computedFrom [partitions, trees] expected).display
      loaded.length)
  return loaded

def loadText (text : String) (partitions trees partition : Value) :
    Except Error (List (TreeId × Tree)) :=
  do load (← Json.parse text) partitions trees partition

end RowAlgebra.Forest
