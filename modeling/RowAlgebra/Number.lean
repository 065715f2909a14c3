/-!
# Numbers compared by value

Integers of any size, truth values and doubles meet in scalars, row keys and tree attributes, and
there they compare by the number that they stand for: no rounding takes place, so `2^53 + 1` and
the double nearest to it differ. `Magnitude.ofFloat` reads a double as the exact value that its bits
denote, and `Magnitude.same` and `Magnitude.below` are the two comparisons.
-/

namespace RowAlgebra

/-! ## Arithmetic

A power of an integer and a sum of natural numbers are the same terms in every module: they are taken
by the instances of the core library, whatever others are known.
-/

@[default_instance 20000]
instance (priority := high) corePow {α : Type} [NatPow α] : Pow α Nat :=
  instPowNat

instance (priority := high) coreZero : Zero Nat :=
  Zero.ofOfNat0

/-! ## Values -/

/-- What a number stands for: a rational, one of the two infinities, or nothing at all. -/
inductive Magnitude where
  | finite (q : Rat)
  | posInf
  | negInf
  | undefined
  deriving DecidableEq

namespace Magnitude

/-- Equality of values; the undefined value equals nothing, itself included. -/
def same : Magnitude → Magnitude → Bool
  | undefined, _ => false
  | a, b => decide (a = b)

/-- Strict order of values; the undefined value stands in no order. -/
def below : Magnitude → Magnitude → Bool
  | finite p, finite q => decide (p < q)
  | finite _, posInf => true
  | negInf, finite _ => true
  | negInf, posInf => true
  | _, _ => false

theorem same_eq_true_iff {a b : Magnitude} : same a b = true ↔ a ≠ undefined ∧ a = b := by
  cases a <;> simp [same]

theorem same_comm (a b : Magnitude) : same a b = same b a := by
  rw [Bool.eq_iff_iff, same_eq_true_iff, same_eq_true_iff]
  constructor <;> rintro ⟨h, rfl⟩ <;> exact ⟨h, rfl⟩

theorem same_trans {a b c : Magnitude} (hab : same a b = true) (hbc : same b c = true) :
    same a c = true := by
  rw [same_eq_true_iff] at *
  obtain ⟨h, rfl⟩ := hab
  exact hbc

end Magnitude

/-! ## The bits of a double -/

/-- The three fields of a double: its sign, the biased exponent and the fraction. -/
structure FloatBits where
  negative : Bool
  exponent : Nat
  fraction : Nat

def FloatBits.of (x : Float) : FloatBits :=
  let bits := x.toBits.toNat
  { negative := decide (2 ^ 63 ≤ bits)
    exponent := bits / 2 ^ 52 % 2 ^ 11
    fraction := bits % 2 ^ 52 }

def FloatBits.isFinite (b : FloatBits) : Bool :=
  b.exponent != 2047

/-- The integer significand `m` of the value `m * 2 ^ (scale - 1074)`. -/
def FloatBits.significand (b : FloatBits) : Nat :=
  if b.exponent = 0 then b.fraction else 2 ^ 52 + b.fraction

/-- The power of two, counted from the smallest one that a double can have. -/
def FloatBits.scale (b : FloatBits) : Nat :=
  b.exponent - 1

namespace Magnitude

def ofFloat (x : Float) : Magnitude :=
  let b := FloatBits.of x
  if b.isFinite then
    let m : Int := b.significand * 2 ^ b.scale
    finite (mkRat (if b.negative then -m else m) (2 ^ 1074))
  else if b.fraction ≠ 0 then undefined
  else if b.negative then negInf
  else posInf

def ofInt (n : Int) : Magnitude :=
  finite n

/-- Integers may as well be compared directly. -/
theorem same_ofInt (m n : Int) : same (ofInt m) (ofInt n) = (m == n) := by
  rw [Bool.eq_iff_iff, same_eq_true_iff, beq_iff_eq]
  constructor
  · rintro ⟨-, h⟩
    exact Rat.intCast_inj.1 (finite.inj h)
  · rintro rfl
    exact ⟨nofun, rfl⟩

theorem below_ofInt (m n : Int) : below (ofInt m) (ofInt n) = decide (m < n) := by
  simp only [below, ofInt, Rat.intCast_lt_intCast]

def ofBool (b : Bool) : Magnitude :=
  finite (if b then 1 else 0)

end Magnitude

/-- The double nearest to an integer, or nothing where it lies beyond the range of doubles. -/
def nearestFloat? (n : Int) : Option Float :=
  let x := Float.ofScientific n.natAbs false 0
  if x.isInf then none else some (if n < 0 then -x else x)

/-- The integer next to a double on the side of zero, or nothing for infinities and the undefined
value. -/
def truncated? (x : Float) : Option Int :=
  let b := FloatBits.of x
  if b.isFinite then
    let m : Nat := b.significand * 2 ^ b.scale / 2 ^ 1074
    some (if b.negative then -(m : Int) else m)
  else none

end RowAlgebra
