import RowAlgebra.Collection
import RowAlgebra.Json.Access

/-!
# Sharing the work

A forest is built and tested by several partitions of a data set. Each partition builds the same
number of trees, and the first one the remaining trees too (`builtTrees`). It tests the trees of all
other partitions (`concernedTrees`). The data set itself is cut into contiguous parts of equal size,
the last of which takes the remaining instances (`splitData`).
-/

namespace RowAlgebra.Forest

def builtTrees (partitions trees partition : Int) : Except Error Int :=
  if partitions = 0 then .error (.fault .zeroDivision)
  else
    let share := trees.fdiv partitions
    .ok (if partition = 0 then share + (trees - share * partitions) else share)

def concernedTrees (partitions trees partition : Int) : Except Error Int :=
  if partition < 0 then .error (.negativePartition (toString partition))
  else do return trees - (← builtTrees partitions trees partition)

/-- The sizes of `k` parts of `n` instances, of which there is at least one. -/
def partSizes (n k : Nat) : List Nat :=
  List.replicate (k - 1) (n / k) ++ [n - (k - 1) * (n / k)]

/-- Cuts a data set into `k` parts. -/
def splitData {β : Type} (data : List β) (k : Json.Value) : Except Error (List (List β)) := do
  if ← k.less (.int 1) then throw (.noSplits k.displayAlone)
  return Collection.cut (partSizes data.length (← k.asInt).toNat) data

end RowAlgebra.Forest
