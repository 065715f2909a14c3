import RowAlgebra.Handle.Blocks
import RowAlgebra.NonZeroCount
import RowAlgebra.Storage
import RowAlgebra.Tag

/-!
# Expressions

An expression says what to compute on distributed row matrices. Its leaves are checkpoints, that is,
materialized matrices; its inner nodes are operators on one or two inputs. Expressions never change.

Every node carries a number, and two nodes are *the same node* exactly when their numbers agree: a
node that is used as an input twice is shared, not copied. Numbers are handed out by the builder
(`RowAlgebra.Expr.Build`), so a number belongs to one node only.

`Expr.schema` is what is known of a node without computing it: its two sides, the type of its row
keys and its partitioning tag. It is read off the schemas of the inputs, operator by operator. Very
long ranges of rows cannot be counted; `Side.count` fails for them, and for what takes a side over
from them.
-/

namespace RowAlgebra

abbrev NodeId := Nat

/-- One side of a matrix: how many rows, or how many columns, there are. -/
structure Side where
  length : Int
  /-- Whether the length can be told. -/
  isCounted : Bool
  deriving DecidableEq, Repr

namespace Side

def ofLength (n : Int) : Side :=
  ⟨n, true⟩

instance : Coe Int Side := ⟨ofLength⟩

/-- The rows of a range, which are counted only up to the largest signed integer of 64 bits. -/
def ofRange (start stop : Int) : Side :=
  ⟨stop - start, decide (stop - start < 2 ^ 63)⟩

/-- The length of a side, if it can be told. -/
def count (s : Side) : Except Error Int :=
  if s.isCounted then .ok s.length else .error (.fault .overflow)

end Side

/-- What is known of a matrix without computing it. -/
structure Schema where
  rows : Side
  columns : Side
  keyType : KeyType
  tag : Tag
  deriving DecidableEq, Repr

namespace Schema

def nrow (s : Schema) : Int := s.rows.length

def ncol (s : Schema) : Int := s.columns.length

def shape (s : Schema) : Except Error Shape := do
  return ⟨← s.rows.count, ← s.columns.count⟩

end Schema

/-- A materialized matrix. Its storage level at the time of creation is `level`; the current one is
in the slot of its collection. -/
structure Checkpoint (α : Type) where
  handle : Handle α
  slot : Slot
  nrow : Int
  ncol : Int
  nonZeros : NonZeroCount
  level : StorageLevel
  tag : Tag
  keyType : KeyType

namespace Checkpoint

variable {α : Type}

def shape (c : Checkpoint α) : Shape :=
  ⟨c.nrow, c.ncol⟩

def schema (c : Checkpoint α) : Schema :=
  ⟨c.nrow, c.ncol, c.keyType, c.tag⟩

end Checkpoint

/-- Operators on one distributed matrix, with their other operands. -/
inductive UnaryOp (α : Type) where
  /-- `A'`, for integer keys. -/
  | transpose
  /-- `A'` for any keys, which can be computed as part of a product only. -/
  | transposeAnyKey
  /-- `A'A` -/
  | selfGramian
  | scalar (op : ScalarOp) (s : Scalar)
  /-- The rows from `start` up to, but without, `stop`, with keys counted from `start`. -/
  | rowRange (start stop : Int)
  /-- `MA` -/
  | leftMultiply (m : Dense α)
  /-- `AM` -/
  | rightMultiply (m : Dense α)
  /-- A block function on every partition; `keepsKeys` promises that it leaves the keys alone. -/
  | mapBlock (fn : BlockName) (ncol : Int) (keepsKeys : Bool)

/-- Operators on two distributed matrices. -/
inductive BinaryOp where
  /-- `AB` -/
  | matMul
  /-- `A'B` -/
  | matMulTransA
  /-- `AB'` -/
  | matMulTransB
  | elementwise (op : CellOp)
  deriving DecidableEq, Repr

inductive Expr (α : Type) where
  | checkpoint (id : NodeId) (c : Checkpoint α)
  /-- A leaf that no rule of the planner knows. -/
  | foreign (id : NodeId) (shape : Shape)
  | unary (id : NodeId) (op : UnaryOp α) (input : Expr α)
  | binary (id : NodeId) (op : BinaryOp) (left right : Expr α)

/-! ## Schemas -/

namespace UnaryOp

variable {α : Type}

/-- The schema of the result for an input with the schema `s`. -/
def schema (s : Schema) : UnaryOp α → Schema
  | transpose | transposeAnyKey => ⟨s.columns, s.rows, .int, .unknown⟩
  | selfGramian => ⟨s.columns, s.columns, .int, .unknown⟩
  | scalar _ _ => s
  | rowRange start stop => ⟨.ofRange start stop, s.columns, s.keyType, .unknown⟩
  | leftMultiply m => ⟨.ofLength m.nrow, s.columns, .int, .unknown⟩
  | rightMultiply m => { s with columns := .ofLength m.ncol }
  | mapBlock _ ncol keepsKeys =>
    { s with columns := ncol, tag := if keepsKeys then s.tag else .unknown }

end UnaryOp

namespace BinaryOp

/-- The schema of the result for inputs with the schemas `l` and `r`. Rows that only the right
input of an element-wise operator has join the layout of the left one, so that layout is known to
stay only if both inputs are partitioned alike. -/
def schema (l r : Schema) : BinaryOp → Schema
  | matMul => ⟨l.rows, r.columns, l.keyType, .unknown⟩
  | matMulTransA => ⟨l.columns, r.columns, .int, .unknown⟩
  | matMulTransB => ⟨l.rows, r.rows, l.keyType, .unknown⟩
  | elementwise _ => { l with tag := if Tag.evident l.tag r.tag then l.tag else .unknown }

end BinaryOp

namespace Expr

variable {α : Type}

def id : Expr α → NodeId
  | checkpoint id _ | foreign id _ | unary id _ _ | binary id _ _ _ => id

def schema : Expr α → Schema
  | checkpoint _ c => c.schema
  | foreign _ shape => ⟨shape.nrow, shape.ncol, .int, .unknown⟩
  | unary _ op input => op.schema input.schema
  | binary _ op left right => op.schema left.schema right.schema

def shape (e : Expr α) : Except Error Shape :=
  e.schema.shape

def nrow (e : Expr α) : Int := e.schema.nrow

def ncol (e : Expr α) : Int := e.schema.ncol

def keyType (e : Expr α) : KeyType := e.schema.keyType

def tag (e : Expr α) : Tag := e.schema.tag

def children : Expr α → List (Expr α)
  | checkpoint _ _ | foreign _ _ => []
  | unary _ _ input => [input]
  | binary _ _ left right => [left, right]

/-- Whether two expressions are known to be partitioned alike. -/
def isIdenticallyPartitioned (a b : Expr α) : Bool :=
  Tag.evident a.tag b.tag

/-- A node and all nodes below it, depth first; a shared node comes once per use. -/
def walk : Expr α → List (Expr α)
  | e@(checkpoint _ _) => [e]
  | e@(foreign _ _) => [e]
  | e@(unary _ _ input) => e :: input.walk
  | e@(binary _ _ left right) => e :: (left.walk ++ right.walk)

/-- The number of nodes, shared ones counted once per use. -/
def size : Expr α → Nat
  | checkpoint _ _ | foreign _ _ => 1
  | unary _ _ input => input.size + 1
  | binary _ _ left right => left.size + right.size + 1

end Expr

end RowAlgebra
