import RowAlgebra.Number

/-!
# The shortest decimal that reads back

A positive double is `m * 2 ^ q`. The reals that round to it form an interval around it, whose ends
belong to it exactly when `m` is even. `Decimal.shortest` looks for the coarsest decimal grid that
has a point in that interval, and takes the nearest such point. All arithmetic is on natural
numbers over one common denominator, so nothing is rounded on the way.
-/

namespace RowAlgebra

/-- The number `significand * 10 ^ exponent`. -/
structure Decimal where
  significand : Nat
  exponent : Int

namespace Decimal

def digitCount (n : Nat) : Nat :=
  (Nat.toDigits 10 n).length

/-- A value and the ends of its rounding interval, over one denominator. -/
structure Interval where
  low : Nat
  value : Nat
  high : Nat
  denominator : Nat
  /-- Whether the ends belong to the interval. -/
  closed : Bool

/-- The interval of the reals that round to a finite double, its sign left aside. -/
def Interval.ofBits (b : FloatBits) : Interval :=
  let unit := 2 ^ b.scale
  let value := 4 * b.significand * unit
  let below := if b.fraction = 0 ∧ 1 < b.exponent then unit else 2 * unit
  { low := value - below
    value := value
    high := value + 2 * unit
    denominator := 2 ^ 1076
    closed := b.significand % 2 == 0 }

/-- The exponent of the first decimal digit of `v.value / v.denominator`, which is not zero. -/
def Interval.leadingExponent (v : Interval) : Int :=
  if v.denominator ≤ v.value then digitCount (v.value / v.denominator) - 1
  else
    let d := digitCount (v.denominator / v.value)
    if v.denominator ≤ v.value * 10 ^ (d - 1) then -((d : Int) - 1) else -(d : Int)

/-- The point of the grid `10 ^ p` that is nearest to the value, if the interval holds a point of
that grid at all. Of two nearest points it is the even one. -/
def Interval.gridPoint? (v : Interval) (p : Int) : Option Nat :=
  let up := 10 ^ (-p).toNat
  let step := v.denominator * 10 ^ p.toNat
  let inside (c : Nat) : Bool :=
    if v.closed then v.low * up ≤ c * step && c * step ≤ v.high * up
    else v.low * up < c * step && c * step < v.high * up
  let floor := v.value * up / step
  let below := v.value * up - floor * step
  match inside floor, inside (floor + 1) with
  | true, true =>
    some (if 2 * below < step ∨ (2 * below = step ∧ floor % 2 = 0) then floor else floor + 1)
  | true, false => some floor
  | false, true => some (floor + 1)
  | false, false => none

/-- Drops the zeros at the end of the significand; `fuel` bounds their number. -/
def trim : Nat → Decimal → Decimal
  | 0, d => d
  | fuel + 1, d =>
    if d.significand ≠ 0 ∧ d.significand % 10 = 0 then
      trim fuel ⟨d.significand / 10, d.exponent + 1⟩
    else d

/-- The first grid with a point in the interval, from `digits` digits on, with at most `fuel`
further ones. -/
def Interval.search (v : Interval) (leading : Int) : Nat → Nat → Decimal
  | 0, digits => ⟨v.value / v.denominator, digits⟩
  | fuel + 1, digits =>
    let p := leading - (digits : Int) + 1
    match v.gridPoint? p with
    | some c => trim (digits + 1) ⟨c, p⟩
    | none => v.search leading fuel (digits + 1)

/-- The shortest decimal that rounds to the finite, non-zero double with the fields `b`. Seventeen
digits always suffice. -/
def shortest (b : FloatBits) : Decimal :=
  let v := Interval.ofBits b
  v.search v.leadingExponent 17 1

end Decimal

end RowAlgebra
