import RowAlgebra.Json.Value

/-!
# Data frames

A `Frame` is a table with named columns. The columns of a frame are those of its first record; other
records may have more fields, but must not lack one. A column that holds doubles, or integers and
gaps, and nothing else but numbers and gaps is a column of doubles throughout, where a gap is an
undefined double; only integers that do not fit into 64 bits together keep it from that.
-/

namespace RowAlgebra

open Json (Value)

structure Frame where
  columns : List Text
  rows : List (List Value)

namespace Frame

/-- What is known of a column after some of its values. -/
structure ColumnScan where
  /-- Whether all values so far are integers, doubles or gaps. -/
  isNumeric : Bool
  hasInt : Bool
  hasFloat : Bool
  hasGap : Bool
  /-- Whether some integer needs a sign, or the 64th bit. -/
  needsSign : Bool
  needsTopBit : Bool

namespace ColumnScan

def start : ColumnScan := ⟨true, false, false, false, false, false⟩

/-- Goes on to the next value. All integers have to fit into 64 bits together, signed or not. -/
def step (s : ColumnScan) : Value → ColumnScan
  | .null => { s with hasGap := true }
  | .float x => if x.isNaN then { s with hasGap := true } else { s with hasFloat := true }
  | .int n =>
    let s := { s with
      hasInt := true
      needsSign := s.needsSign || decide (n < 0)
      needsTopBit := s.needsTopBit || decide (2 ^ 63 ≤ n) }
    if (s.needsSign && s.needsTopBit) || n < -2 ^ 63 || 2 ^ 64 ≤ n then
      { s with isNumeric := false }
    else s
  | _ => { s with isNumeric := false }

def isFloating (s : ColumnScan) : Bool :=
  s.isNumeric && (s.hasFloat || (s.hasInt && s.hasGap))

end ColumnScan

/-- The double that a number or gap becomes. -/
def toFloating : Value → Value
  | .int n => .float ((nearestFloat? n).getD (0.0 / 0.0))
  | .null => .float (0.0 / 0.0)
  | v => v

/-- The values of a column as the frame holds them. -/
def unified (column : List Value) : List Value :=
  if (column.foldl ColumnScan.step .start).isFloating then column.map toFloating else column

/-- What a record holds under a name. -/
def cellOf (record : Value) (name : Text) : Except Error Value :=
  match record with
  | .object fields =>
    match Value.fieldIn? name fields with
    | some v => .ok v
    | none => .error (.fault .key)
  | _ => .error (.fault .type)

def columnsOf : Nat → List (List Value) → List (List Value)
  | 0, _ => []
  | n + 1, rows => rows.filterMap List.head? :: columnsOf n (rows.map List.tail)

/-- The frame of some records; without any, it has the given columns and no rows. The first record
says which columns there are. -/
def ofRecords (records : List Value) (columns : List Text) : Except Error Frame :=
  match records with
  | [] => .ok ⟨columns.eraseDups, []⟩
  | .object fields :: _ => do
    let names := fields.map Prod.fst
    let rows ← records.mapM fun record => names.mapM (cellOf record)
    if names.isEmpty then return ⟨[], []⟩
    let cells := (columnsOf names.length rows).map unified
    return ⟨names, columnsOf records.length cells⟩
  | _ => .error (.fault .member)

end Frame

end RowAlgebra
