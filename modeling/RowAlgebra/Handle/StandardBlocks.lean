import RowAlgebra.Handle.Blocks
import RowAlgebra.Key.Label

/-!
# Standard block functions

A few block functions on doubles, by name (`BlockCatalogue.standard`). Some of them keep the
promises that a `mapBlock` operator may make of them; others break one on purpose, to see it being
enforced. All of them leave the list of keys alone that they are handed.
-/

namespace RowAlgebra

namespace BlockFunction

/-- Changes every row of a matrix; `c` is the width of the new rows. -/
def changed {β : Type} (c : Nat) (f : Key → Row β → Except Error (Row β)) (keys : List Key)
    (m : Dense β) : Except Error (Dense β) := do
  match Dense.ofRows? c (← (keys.zip m.rows).mapM fun (key, row) => f key row) with
  | some m => return m
  | none => throw (.fault .value)

/-- Changes every row and keeps the keys: a row of plain cells by `f`, and one of scalars by `g`.
What the old width becomes is told by `c`. -/
def onRows (c : Nat → Nat) (f : Key → Row Float → Except Error (Row Float))
    (g : Key → Row Scalar → Except Error (Row Scalar)) : BlockFunction Float := fun keys block => do
  match block with
  | .plain m => return ⟨keys, .plain (← changed (c m.ncol) f keys m), keys⟩
  | .mixed m => return ⟨keys, .mixed (← changed (c m.ncol) g keys m), keys⟩

def onCells (f : Float → Float) (g : Scalar → Except Error Scalar) : BlockFunction Float :=
  onRows id (fun _ row => .ok (row.map f)) fun _ row => row.mapM g

/-- Changes the keys and keeps the rows. -/
def onKeys (f : List Key → Except Error (List Key)) : BlockFunction Float := fun keys block => do
  return ⟨← f keys, block, keys⟩

def identity : BlockFunction Float :=
  onKeys .ok

def double : BlockFunction Float :=
  onCells (· * 2.0) fun x => x.mul (.int 2)

def negate : BlockFunction Float :=
  onCells (- ·) Scalar.neg

/-- Turns the rows upside down, together with their keys. -/
def reverse : BlockFunction Float := fun keys block =>
  .ok ⟨keys.reverse, block.rearrange fun m => ⟨m.nrow, m.ncol, m.cells.reverse⟩, keys⟩

def shiftKeys : BlockFunction Float :=
  onKeys fun keys => keys.mapM Key.next

def sameKey : BlockFunction Float :=
  onKeys fun keys => .ok (keys.map fun _ => keys.headD (.int 0))

def textKeys : BlockFunction Float :=
  onKeys fun keys => keys.mapM fun k => do return .text ("k" ++ (← k.label))

def keyFactor : Key → Scalar
  | .int n => .int n
  | .bool b => .bool b
  | .float x => .float x
  | .undefined _ => .float (0.0 / 0.0)
  | .text s => .text s

def scaleByKey : BlockFunction Float :=
  onRows id
    (fun key row => row.mapM fun x => do (← (Scalar.float x).mul (keyFactor key)).toFloat)
    fun key row => row.mapM fun x => x.mul (keyFactor key)

def appendOne : BlockFunction Float :=
  onRows (· + 1) (fun _ row => .ok (row ++ [1.0])) fun _ row => .ok (row ++ [.float 1.0])

def firstColumn : BlockFunction Float :=
  onRows (min 1) (fun _ row => .ok (row.take 1)) fun _ row => .ok (row.take 1)

def firstRow : BlockFunction Float := fun keys block =>
  .ok ⟨keys, block.rearrange fun m => ⟨_, m.ncol, m.cells.extract 0 1⟩, keys⟩

/-- Keeps all rows, but not the last key. -/
def dropKey : BlockFunction Float :=
  onKeys fun keys => .ok keys.dropLast

def rowSum : BlockFunction Float :=
  onRows (fun _ => 1) (fun _ row => .ok [row.foldl (· + ·) 0.0]) fun _ row => do
    return [← row.foldlM Scalar.add (.float 0.0)]

def fail : BlockFunction Float := fun _ _ =>
  .error (.fault .value)

end BlockFunction

namespace BlockCatalogue

open BlockFunction in
/-- The standard block functions by name; any other name fails. -/
def standard : BlockCatalogue Float
  | "identity" => identity
  | "double" | "Doubler" => double
  | "negate" => negate
  | "reverse" => reverse
  | "shift_keys" => shiftKeys
  | "same_key" => sameKey
  | "str_keys" => textKeys
  | "scale_by_key" => scaleByKey
  | "append_one" => appendOne
  | "first_column" => firstColumn
  | "first_row" => firstRow
  | "drop_key" => dropKey
  | "row_sum" => rowSum
  | _ => BlockFunction.fail

end BlockCatalogue

end RowAlgebra
