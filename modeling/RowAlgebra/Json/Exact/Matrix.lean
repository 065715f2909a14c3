import RowAlgebra.Collection
import RowAlgebra.Json.Exact

/-!
# Matrices in the exact form

Row keys, scalar operands and the cells of matrices as JSON values in the exact form, in which an
integer, a truth value and a double of the same value can be told apart. A row is a list of doubles
on their own, and a collection a list of partitions of keyed rows.
-/

namespace RowAlgebra.Json.Exact

/-- The undefined double. -/
def undefined : Float := 0.0 / 0.0

/-! ## Writing -/

def ofKey : Key → Value
  | .int n => .int n
  | .text s => .text s
  | .bool b => .bool b
  | .float x => ofValue (.float x)
  | .undefined _ => ofValue (.float undefined)

def ofScalar : Scalar → Value
  | .int n => .int n
  | .bool b => .bool b
  | .float x => ofValue (.float x)
  | .absent => .null
  | .text s => .text s

def ofRow (row : Row Float) : Value :=
  .list (row.map ofFloat)

def ofDense (m : Dense Float) : Value :=
  .list (m.rows.map ofRow)

/-- A keyed row, whose cells have to be plain or to stand for plain ones. -/
def ofKeyedRow (entry : KeyedRow Float) : Except Error Value := do
  return .list [ofKey entry.1, ofRow (← entry.2.toRow)]

def ofCollection (c : Collection Float) : Except Error Value := do
  return .list (← c.partitions.mapM fun p => do return .list (← p.mapM ofKeyedRow))

/-! ## Reading -/

/-- A row key; `serial` marks one that is a double without a value. -/
def toKey (serial : Nat) (v : Value) : Except Error Key := do
  match ← toValue v with
  | .int n => return .int n
  | .text s => return .text s
  | .bool b => return .bool b
  | .float x => return if x.isNaN then .undefined (.given serial) else .float x
  | _ => throw (.fault .type)

def toKeys (serial : Nat) (vs : List Value) : Except Error (List Key) :=
  (vs.zipIdx serial).mapM fun (v, i) => toKey i v

def toRow (v : Value) : Except Error (Row Float) := do
  (← v.asItems).mapM toFloat

/-- Keyed rows, where keys have the serial numbers from `serial` on. -/
def toKeyedRows (serial : Nat) (vs : List Value) : Except Error (List (KeyedRow Float)) :=
  (vs.zipIdx serial).mapM fun (v, i) => do
    match v with
    | .list [key, row] => return (← toKey i key, .plain (← toRow row))
    | _ => throw (.fault .type)

/-- Partitions of keyed rows, where keys have the serial numbers from `serial` on. -/
def toPartitions (serial : Nat) : List Value → Except Error (List (List (KeyedRow Float)))
  | [] => .ok []
  | v :: vs => do
    let rows ← v.asItems
    return (← toKeyedRows serial rows) :: (← toPartitions (serial + rows.length) vs)

/-- A number as it stands, be it an integer, a truth value or a double. -/
def toNumber : Value → Except Error Scalar
  | .int n => .ok (.int n)
  | .bool b => .ok (.bool b)
  | .float x => .ok (.float x)
  | _ => .error (.fault .type)

end RowAlgebra.Json.Exact
