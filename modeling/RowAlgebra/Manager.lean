import RowAlgebra.Exec.Placed
import RowAlgebra.Expr.NonZeros
import RowAlgebra.Plan
import RowAlgebra.Text.Tally

/-!
# Checkpoint managers

A `Manager` materializes expressions and remembers the results, so that it computes each node at
most once: it looks nodes up by their identity, not by their structure. An entry lives until it is
forgotten, and its storage is released with it.

What managers share is the `Substrate`: the numbers of nodes and calls, the storage of collections
and the source of partitioning tags. Every operation yields the substrate and the manager as they
are afterwards, also when it fails. A failing one has at most made calls, and drawn a tag for a
result whose rows could not be counted; the collections that it has made are referred to by nothing,
so they leave the storage.

Before a plan is executed, it is written down together with its expression. That is done for a log,
and whether or not there is one; what cannot be written is not executed.
-/

namespace RowAlgebra

/-- What all managers of a program share. -/
structure Substrate where
  nextNode : NodeId
  /-- The number of the next call. -/
  nextCall : Nat
  storage : Storage
  tags : TagSource
  /-- How many nodes may lie one below the other in an expression that is written down. -/
  room : Nat

namespace Substrate

/-- The room that is usually left on the stack. -/
def usualRoom : Nat := 190

def ofScript (draws : List Int) : Substrate where
  nextNode := 0
  nextCall := 0
  storage := .empty
  tags := .ofScript draws
  room := usualRoom

end Substrate

abbrev LibraryId := Nat

/-- The physical operators that a manager executes plans with, and the calls made so far. -/
structure Library (α : Type) where
  id : LibraryId
  trace : List (Call α)

namespace Library

variable {α : Type}

def display (l : Library α) : String :=
  "LocalOperatorLibrary(calls=" ++ toString l.trace.length ++ ")"

def families (l : Library α) : List String :=
  l.trace.map fun call => call.family.name

/-- How often each family was called, in the order of their names. -/
def familyCounts (l : Library α) : List (Text × Nat) :=
  Text.tally (l.families.map .ofString)

end Library

/-- The result that a manager remembers of a node. -/
structure Entry (α : Type) where
  node : NodeId
  id : NodeId
  checkpoint : Checkpoint α

namespace Entry

/-- The remembered result as an expression. -/
def result {α : Type} (e : Entry α) : Expr α :=
  .checkpoint e.id e.checkpoint

end Entry

structure Manager (α : Type) where
  library : Library α
  entries : List (Entry α)

namespace Manager

variable {α : Type}

def ofLibrary (id : LibraryId) : Manager α := ⟨⟨id, []⟩, []⟩

/-- The entry of a node. -/
def find? (m : Manager α) (node : NodeId) : Option (Entry α) :=
  m.entries.find? fun e => e.node == node

def isCheckpointed (m : Manager α) (e : Expr α) : Bool :=
  (m.find? e.id).isSome

def size (m : Manager α) : Nat :=
  m.entries.length

def display (m : Manager α) : String :=
  "CheckpointManager(library=" ++ m.library.display ++ ", checkpoints=" ++ toString m.size ++ ")"

def remember (m : Manager α) (entry : Entry α) : Manager α :=
  { m with entries := m.entries ++ [entry] }

end Manager

/-- A manager together with what it shares. -/
structure Managed (α : Type) where
  substrate : Substrate
  manager : Manager α

namespace Managed

variable {α : Type}

/-- Brings the collection of a checkpoint to a level of the storage, and the checkpoint to a number
of its own. -/
def create (s : Managed α) (c : Checkpoint α) (storage : Storage) (level : StorageLevel) :
    (NodeId × Checkpoint α) × Managed α :=
  ((s.substrate.nextNode, c),
    { s with substrate := { s.substrate with
        nextNode := s.substrate.nextNode + 1
        storage := storage.set c.slot level } })

/-- Adds calls to the trace of the manager's library. -/
def record (s : Managed α) (calls : List (Call α)) : Managed α :=
  let library := s.manager.library
  { substrate := { s.substrate with nextCall := s.substrate.nextCall + calls.length }
    manager := { s.manager with library := { library with trace := library.trace ++ calls } } }

def drawTag (s : Managed α) : Tag × Managed α :=
  let (tag, tags) := s.substrate.tags.next
  (tag, { s with substrate := { s.substrate with tags } })

/-- The tag of a result: that of its plan, or a fresh one if that is unknown. -/
def resultTag (s : Managed α) (plan : Tag) : Tag × Managed α :=
  if plan = Tag.unknown then s.drawTag else (plan, s)

/-! ## Materialization -/

section Materialization

variable [Cell α]

/-- The words about a plan that is going to be executed. -/
def announcement (s : Managed α) (e plan : Expr α) : Except Error (List Text) := do
  let shown ← e.representation s.substrate.room
  return ["Optimized plan for", shown, "::", ← plan.representation s.substrate.room]

/-- Turns the result of a plan into the checkpoint of an expression, and remembers it. The sides of
the expression have to be counted for that. -/
def finish (s : Managed α) (e plan : Expr α) (result : Placed α) (storage : Storage)
    (count : NonZeroCount) (level : StorageLevel) : Except Error (Expr α) × Managed α :=
  let (tag, s) := s.resultTag plan.tag
  match e.shape with
  | .error err => (.error err, s)
  | .ok shape =>
    let ((id, checkpoint), s) := s.create {
      level, tag
      handle := result.handle
      slot := result.slot
      nrow := shape.nrow
      ncol := shape.ncol
      nonZeros := count
      keyType := e.keyType } storage level
    (.ok (.checkpoint id checkpoint),
      { s with manager := s.manager.remember ⟨e.id, id, checkpoint⟩ })

/-- Computes an expression that is not remembered yet. -/
def materialize (blocks : BlockCatalogue α) (s : Managed α) (e : Expr α) (level : StorageLevel) :
    Except Error (Expr α) × Managed α :=
  match e.determineNonZeroCount with
  | .error err => (.error err, s)
  | .ok count =>
    match e.optimize s.substrate.nextNode with
    | .error err => (.error err, s)
    | .ok (plan, nextNode) =>
      match s.announcement e plan with
      | .error err => (.error err, s)
      | .ok _ =>
        let run := plan.execPlaced blocks s.substrate.nextCall s.substrate.storage
        let s := { s with substrate := { s.substrate with nextNode } }.record run.calls
        match run.result with
        | .error err => (.error err, s)
        | .ok (result, storage) => s.finish e plan result storage count level

/-- The materialized form of an expression: itself if it is a checkpoint, the remembered result if
there is one, and a new one otherwise. -/
def checkpoint (blocks : BlockCatalogue α) (s : Managed α) (e : Expr α) (level : StorageLevel) :
    Except Error (Expr α) × Managed α :=
  match e with
  | .checkpoint id c => (.ok (.checkpoint id c), s)
  | e =>
    match s.manager.find? e.id with
    | some entry => (.ok entry.result, s)
    | none => s.materialize blocks e level

end Materialization

/-! ## Leaves -/

/-- The keys of the rows of a matrix: those that are given, or else their indices. -/
def rowKeys (m : Dense α) (keys : Option GivenKeys) : GivenKeys :=
  keys.getD (.plain ((List.range m.nrow).map fun (i : Nat) => .int i))

/-- Pairs the rows of a matrix with their keys and spreads them over partitions. The keys have to be
of one type. -/
def distribute (m : Dense α) (partitions : Int) (keys : Option GivenKeys) :
    Except Error (Collection α) :=
  let given := rowKeys m keys
  if given.keys.length ≠ m.nrow then .error (.rowKeyCount m.nrow given.keys.length)
  else
    let keyType := given.types.headD .int
    if given.types.any (· != keyType) then .error .mixedRowKeys
    else Collection.parallelize (given.keys.zip (m.rows.map .plain)) partitions keyType

/-- Distributes an in-core matrix. The result is cached, but not remembered. -/
def parallelize [Cell α] (s : Managed α) (matrix : InCore α) (partitions : Int)
    (keys : Option GivenKeys) (level : StorageLevel) : Except Error (Expr α) × Managed α :=
  match matrix.toDense .notDistributable with
  | .error err => (.error err, s)
  | .ok m =>
    match distribute m partitions keys with
    | .error err => (.error err, s)
    | .ok collection =>
      let (tag, s) := s.drawTag
      let (leaf, storage) := s.substrate.storage.place ⟨collection, m.ncol⟩
      let ((id, checkpoint), s) := s.create {
        level, tag
        handle := leaf.handle
        slot := leaf.slot
        nrow := m.nrow
        ncol := m.ncol
        nonZeros := .known m.nonZeros
        keyType := collection.keyType } storage level
      (.ok (.checkpoint id checkpoint), s)

/-! ## Forgetting -/

/-- Releases the storage of some entries. -/
def release (s : Managed α) (entries : List (Entry α)) : Managed α :=
  { s with substrate := { s.substrate with
      storage := entries.foldl (fun st e => st.release e.checkpoint.slot) s.substrate.storage } }

/-- Forgets the result of a node and releases its storage. -/
def forget (s : Managed α) (node : NodeId) : Managed α :=
  let s' := s.release (s.manager.entries.filter fun e => e.node == node)
  { s' with manager := { s.manager with
      entries := s.manager.entries.filter fun e => e.node != node } }

/-- Forgets all results and releases their storage. -/
def clear (s : Managed α) : Managed α :=
  let s' := s.release s.manager.entries
  { s' with manager := { s.manager with entries := [] } }

end Managed

end RowAlgebra
