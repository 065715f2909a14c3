import RowAlgebra.Decimal.Numeral
import RowAlgebra.Forest.Results

/-!
# Cross-validation

A partition classifies its own instances with the trees of all other partitions. `Validation` holds
the predictions made so far, one row per tree and one number per instance; an instance that was not
classified yet has the prediction `unknownPrediction`. `Validation.map` classifies one instance, and
`crossValidate` does all of it for a whole data set.
-/

namespace RowAlgebra.Forest

open Json (Value)

/-- A predicted label, a signed number of 64 bits. -/
abbrev Prediction := Int

def unknownPrediction : Prediction := -1

/-! ## Labels as predictions -/

namespace Prediction

/-- The prediction of a number, if it has 64 bits. -/
def ofInt (n : Int) : Except Error Prediction :=
  if -(2 ^ 63 : Int) ≤ n ∧ n < 2 ^ 63 then .ok n else .error (.fault .overflow)

/-- The prediction that a label stands for. A double is cut off towards zero, and a text has to
write an integer. -/
def ofLabel : Value → Except Error Prediction
  | .int n => ofInt n
  | .bool b => .ok (if b then 1 else 0)
  | .float x =>
    match truncated? x with
    | some n => ofInt n
    | none => .error (.fault (if x.isNaN then .value else .overflow))
  | .text s => do ofInt (← Decimal.intOfText s.shown)
  | .null | .list _ | .object _ => .error (.fault .type)

end Prediction

/-! ## Classifying the instances of a partition -/

structure Validation where
  partition : Value
  ids : List TreeId
  trees : List Tree
  instances : Nat
  predictions : List (Array Prediction)

/-- The places that an instance has in the predictions of a tree. -/
inductive Place where
  | only (i : Nat)
  | everywhere
  | nowhere

namespace Place

/-- The places of the instance `id`. A truth value stands for all places or for none, and a double
is no instance. -/
def ofInstance (id : Value) : Except Error Place :=
  match id with
  | .int i => .ok (only i.toNat)
  | .bool b => .ok (if b then everywhere else nowhere)
  | _ => .error (.fault .index)

/-- Puts a prediction into its places. -/
def fill (p : Prediction) (row : Array Prediction) : Place → Array Prediction
  | only i => row.setIfInBounds i p
  | everywhere => row.map fun _ => p
  | nowhere => row

end Place

namespace Validation

/-- The length of the tables of `trees` trees for a number of instances. -/
def tableLength (trees : Nat) : Value → Except Error Nat
  | .int n =>
    if n < 0 then .error (.fault .value)
    else
      match Capacity.tableFault? trees n.toNat with
      | some kind => .error (.fault kind)
      | none => .ok n.toNat
  | _ => .error (.fault .type)

/-- A partition before it classifies its first instance. -/
def start (partition : Value) (ids : List TreeId) (trees : List Tree) (instances : Value) :
    Except Error Validation := do
  if ← partition.less (.int 0) then throw (.negativePartition partition.displayAlone)
  if ids.length ≠ trees.length then throw (.keysForTrees ids.length trees.length)
  if ids.any fun id => !id.partition.same partition then
    throw (.foreignTrees partition.displayAlone)
  let instances ← tableLength trees.length instances
  return {
    partition, ids, trees, instances
    predictions := trees.map fun _ => Array.replicate instances unknownPrediction }

def predict (id : Value) (sample : Sample) (tree : Tree) : Except Error (Place × Prediction) := do
  let label ← tree.classify sample
  return (← Place.ofInstance id, ← Prediction.ofLabel label)

/-- Puts the predictions of the trees for one instance into their places, tree by tree, until one of
them fails. -/
def record (id : Value) (sample : Sample) :
    List Tree → List (Array Prediction) → Except Error Unit × List (Array Prediction)
  | tree :: trees, row :: rows =>
    match predict id sample tree with
    | .error e => (.error e, row :: rows)
    | .ok (place, p) =>
      let (answer, rows) := record id sample trees rows
      (answer, place.fill p row :: rows)
  | _, rows => (.ok (), rows)

/-- Whether an instance is one of the partition. -/
def contains (v : Validation) (id : Value) : Except Error Bool := do
  if (← (Value.int 0).less id) || id.same (.int 0) then id.less (.int v.instances)
  else return false

/-- Classifies an instance of the partition with all trees. The trees before a failing one keep what
they predicted. -/
def map (v : Validation) (id : Value) (sample : Sample) : Except Error Unit × Validation :=
  match v.contains id with
  | .ok true =>
    let ⟨partition, ids, trees, instances, predictions⟩ := v
    let (answer, predictions) := record id sample trees predictions
    (answer, ⟨partition, ids, trees, instances, predictions⟩)
  | .ok false =>
    (.error (.instanceOutside id.displayAlone v.partition.displayAlone (toString v.instances)), v)
  | .error e => (.error e, v)

/-- The predictions of each tree, in the order of the trees. -/
def outputs (v : Validation) : List (TreeId × List Prediction) :=
  v.ids.zip (v.predictions.map Array.toList)

/-- Classifies samples as the instances from `first` on. -/
def mapFrom (v : Validation) (first : Nat) : List Sample → Except Error Validation
  | [] => .ok v
  | sample :: samples =>
    match v.map (.int first) sample with
    | (.error e, _) => .error e
    | (.ok (), v) => v.mapFrom (first + 1) samples

end Validation

/-! ## Whole forests -/

/-- What the partitions of a data set find out. -/
structure CrossValidation where
  ids : List TreeId
  sizes : List Nat
  outputs : List (List (TreeId × List Prediction))

/-- The identifiers of the trees that the partitions build one after the other. -/
def builtIds (first : Nat) : List (Nat × Nat) → List TreeId
  | [] => []
  | (partition, count) :: rest =>
    (List.range count).map (fun k => ⟨.int partition, .int (first + k : Nat)⟩) ++
      builtIds (first + count) rest

/-- One partition tests the trees of the others on its samples. -/
def validatePartition (file : Text) (partitions trees : Int) (partition : Nat)
    (samples : List Sample) : Except Error (List (TreeId × List Prediction)) := do
  let loaded ← loadText file.shown (.int partitions) (.int trees) (.int partition)
  let v ← Validation.start (.int partition) (loaded.map Prod.fst) (loaded.map Prod.snd)
    (.int samples.length)
  return (← v.mapFrom 0 samples).outputs

/-- Cuts a data set into partitions, which build the given trees in turn and then test the trees of
each other. The trees are stored in between, where `room` calls of the writer may be open. -/
def crossValidate (room : Nat) (partitions : Value) (trees : List Tree) (data : List Sample) :
    Except Error CrossValidation := do
  let parts ← splitData data partitions
  let partitions ← partitions.asInt
  let indexed := (List.range parts.length).zip parts
  let counts ← indexed.mapM fun (p, _) => do
    return (p, (← builtTrees partitions trees.length p).toNat)
  let ids := builtIds 0 counts
  let sizes := parts.map List.length
  let file ← store room ids trees (sizes.map fun (n : Nat) => .int n)
  let outputs ← indexed.mapM fun (p, samples) =>
    validatePartition file partitions trees.length p samples
  return ⟨ids, sizes, outputs⟩

end RowAlgebra.Forest
