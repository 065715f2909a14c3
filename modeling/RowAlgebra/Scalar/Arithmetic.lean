import RowAlgebra.Capacity
import RowAlgebra.Decimal.Numeral
import RowAlgebra.Scalar
import RowAlgebra.Symbol

/-!
# Arithmetic of scalars

Scalars are computed with as what they are: integers exactly, truth values as the integers zero and
one, and doubles with rounding, where an integer next to a double becomes the nearest double. The
quotient of two integers is the nearest double. Unlike cells of a matrix, scalars cannot be divided
by zero. Texts can be joined, and repeated a whole number of times; there is no arithmetic with
absent scalars.
-/

namespace RowAlgebra

/-- The double nearest to `n / d`, or nothing where it lies beyond the range of doubles. The
quotient is taken to at least 65 bits, as far as there are doubles in between, and then rounded. -/
def nearestRatio? (n d : Nat) : Option Float :=
  let shift := min 1074 (66 + d.log2 - n.log2)
  let quotient := (n <<< shift) / d
  let rest := (n <<< shift) % d
  if quotient < 2 ^ 53 then
    let isUp := d < 2 * rest || (2 * rest == d && quotient % 2 == 1)
    some ((Float.ofNat (if isUp then quotient + 1 else quotient)).scaleB (-shift))
  else
    (nearestFloat? (2 * quotient + if rest = 0 then 0 else 1)).map fun x => x.scaleB (-shift - 1)

namespace Scalar

/-- The double of a scalar: the nearest one for an integer, unless that is beyond their range, and
the one that it writes for a text. -/
def toFloat : Scalar → Except Error Float
  | int n =>
    match nearestFloat? n with
    | some x => .ok x
    | none => .error (.fault .overflow)
  | bool b => .ok (if b then 1.0 else 0.0)
  | float x => .ok x
  | text s => Decimal.floatOfText s.shown
  | absent => .error (.fault .type)

/-- The integer that a scalar is; truth values count as zero and one. -/
def whole? : Scalar → Option Int
  | int n => some n
  | bool b => some (if b then 1 else 0)
  | _ => none

/-- The integer of a number; a double is cut off towards zero. -/
def cutOff : Scalar → Except Error Int
  | int n => .ok n
  | bool b => .ok (if b then 1 else 0)
  | float x =>
    match truncated? x with
    | some n => .ok n
    | none => .error (.fault (if x.isNaN then .value else .overflow))
  | absent | text _ => .error (.fault .type)

/-- Computes with two numbers, which stay integers if both of them are. -/
def compute (onInts : Int → Int → Int) (onFloats : Float → Float → Float) (a b : Scalar) :
    Except Error Scalar :=
  match a.whole?, b.whole? with
  | some m, some n => .ok (int (onInts m n))
  | _, _ =>
    if a.isReal && b.isReal then do return float (onFloats (← a.toFloat) (← b.toFloat))
    else .error (.fault .type)

def add : Scalar → Scalar → Except Error Scalar
  | text s, text t => .ok (text (s ++ t))
  | a, b => compute (· + ·) (· + ·) a b

def sub (a b : Scalar) : Except Error Scalar :=
  compute (· - ·) (· - ·) a b

def neg (a : Scalar) : Except Error Scalar :=
  match a, a.whole? with
  | _, some n => .ok (int (-n))
  | float x, none => .ok (float (-x))
  | _, none => .error (.fault .type)

/-- A text so many times in a row. -/
def repeated (s : Text) (n : Option Int) : Except Error Scalar :=
  match n with
  | some n => do
    Capacity.length n
    Capacity.sequence (n * s.length)
    return text (.join (List.replicate n.toNat s))
  | none => .error (.fault .type)

def mul : Scalar → Scalar → Except Error Scalar
  | text s, b => repeated s b.whole?
  | a, text s => repeated s a.whole?
  | a, b => compute (· * ·) (· * ·) a b

def quotient (m n : Int) : Except Error Scalar :=
  if n = 0 then .error (.fault .zeroDivision)
  else
    match nearestRatio? m.natAbs n.natAbs with
    | some x => .ok (float (if (m < 0) = (n < 0) then x else -x))
    | none => .error (.fault .overflow)

def div (a b : Scalar) : Except Error Scalar :=
  match a.whole?, b.whole? with
  | some m, some n => quotient m n
  | _, _ =>
    if a.isReal && b.isReal then do
      let x ← a.toFloat
      let y ← b.toFloat
      if Magnitude.ofFloat y = .finite 0 then .error (.fault .zeroDivision)
      else return float (x / y)
    else .error (.fault .type)

/-- The inner product of two sequences of scalars, from the left; it is zero if they are empty. -/
def dot : List (Scalar × Scalar) → Except Error Scalar
  | [] => .ok (int 0)
  | (a, b) :: rest => do
    rest.foldlM (fun sum (x, y) => do sum.add (← x.mul y)) (← a.mul b)

end Scalar

namespace CellOp

/-- What a symbol computes from two scalars. -/
def onScalars : CellOp → Scalar → Scalar → Except Error Scalar
  | plus => Scalar.add
  | minus => Scalar.sub
  | hadamard => Scalar.mul
  | divide => Scalar.div

end CellOp

namespace ScalarOp

/-- What a symbol computes from a scalar in the place of a cell, and the scalar operand. -/
def onScalars : ScalarOp → Scalar → Scalar → Except Error Scalar
  | plus, a, s => a.add s
  | minus, a, s => a.sub s
  | minusReversed, a, s => s.sub a
  | times, a, s => a.mul s
  | divide, a, s => a.div s
  | divideReversed, a, s => s.div a

end ScalarOp

end RowAlgebra
