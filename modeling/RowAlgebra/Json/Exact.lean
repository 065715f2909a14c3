import RowAlgebra.Json.Access
import RowAlgebra.Json.Parser

/-!
# Exact numbers in JSON

A decimal in a JSON text says neither whether an integer or a double is meant nor, if it has been
rounded, which double. In the exact form of a value a bare number is an integer, and a double is an
object with the single field `float`. Its value is a number where the double is a small integer,
one of the words `nan`, `inf`, `-inf` and `-0.0`, or else the 64 bits of the double in hexadecimal
digits.
-/

namespace RowAlgebra.Json.Exact

/-! ## Writing -/

/-- Whether every integer up to `n` in absolute value is a double. -/
def isSmall (n : Int) : Bool :=
  n.natAbs ≤ 2 ^ 53

/-- The small integer that a double is, if it is one; the negative zero is none. -/
def smallInt? (x : Float) : Option Int :=
  let b := FloatBits.of x
  match truncated? x with
  | none => none
  | some n =>
    if isSmall n && Magnitude.ofInt n == Magnitude.ofFloat x && !(n == 0 && b.negative) then some n
    else none

def ofFloat (x : Float) : Value :=
  let b := FloatBits.of x
  match smallInt? x with
  | some n => .int n
  | none =>
    if !b.isFinite then .text (FloatLayout.display.text x : String)
    else if b.significand = 0 then .text "-0.0"
    else .text ("0x" ++ String.ofList (Text.hexPadded 16 x.toBits.toNat) : String)

mutual

def ofValue : Value → Value
  | .float x => .object [("float", ofFloat x)]
  | .list items => .list (ofItems items)
  | .object fields => .object (ofFields fields)
  | v => v

def ofItems : List Value → List Value
  | [] => []
  | item :: items => ofValue item :: ofItems items

def ofFields : List (Text × Value) → List (Text × Value)
  | [] => []
  | (name, value) :: rest => (name, ofValue value) :: ofFields rest

end

/-! ## Reading -/

/-- The number that hexadecimal digits write. -/
def hexValue? (cs : List Char) : Option Nat :=
  cs.foldlM (fun value c => (hexDigit? c).map fun d => 16 * value + d) 0

/-- The double that a text stands for: sixteen hexadecimal digits are its bits, and any other text
has to be a numeral. -/
def floatOfText (s : String) : Except Error Float :=
  match s.toList with
  | '0' :: 'x' :: digits =>
    match hexValue? digits with
    | some bits =>
      if digits.length = 16 then .ok (Float.ofBits bits.toUInt64) else .error (.fault .value)
    | none => .error (.fault .value)
  | _ => Decimal.floatOfText s

/-- The double in the exact form of a double, or in any other form that a number can have. -/
def toFloat : Value → Except Error Float
  | .int n =>
    match nearestFloat? n with
    | some x => .ok x
    | none => .error (.fault .overflow)
  | .float x => .ok x
  | .bool b => .ok (if b then 1.0 else 0.0)
  | .null => .ok (0.0 / 0.0)
  | .text s => floatOfText s.shown
  | .object [(name, v)] => if name = "float" then toFloat v else .error (.fault .type)
  | _ => .error (.fault .type)

mutual

def toValue : Value → Except Error Value
  | .list items => do return .list (← toItems items)
  | .object [(name, v)] => do
    if name = "float" then return .float (← toFloat v)
    else return .object [(name, ← toValue v)]
  | .object fields => do return .object (← toFields fields)
  | v => .ok v

def toItems : List Value → Except Error (List Value)
  | [] => .ok []
  | item :: items => do
    let item ← toValue item
    return item :: (← toItems items)

def toFields : List (Text × Value) → Except Error (List (Text × Value))
  | [] => .ok []
  | (name, value) :: rest => do
    let value ← toValue value
    return (name, value) :: (← toFields rest)

end

end RowAlgebra.Json.Exact
