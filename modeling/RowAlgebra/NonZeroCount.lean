import RowAlgebra.Scalar.Arithmetic

/-!
# Non-zero counts

How many cells of a matrix differ from zero is either known or not. A count is shown by its value,
with `-1` for an unknown one.
-/

namespace RowAlgebra

structure NonZeroCount where
  /-- The number of cells that are not zero; negative or zero if it is unknown. -/
  get : Int
  isKnown : Bool
  deriving DecidableEq, Repr

namespace NonZeroCount

def known (n : Nat) : NonZeroCount :=
  ⟨n, true⟩

def unknown : NonZeroCount :=
  ⟨-1, false⟩

/-- The count with the value of a scalar, which must not be below `-1`; negative ones are unknown. A
double is cut off towards zero. -/
def ofScalar (s : Scalar) : Except Error NonZeroCount :=
  if s.magnitude.below (.ofInt (-1)) then .error (.about .countOutOfRange s.label)
  else do return ⟨← s.cutOff, !s.magnitude.below (.ofInt 0)⟩

theorem ofScalar_natCast (n : Nat) : ofScalar (.int n) = .ok (known n) := by
  have below (k : Int) (hk : k ≤ 0) : (Scalar.int n).magnitude.below (.ofInt k) = false := by
    rw [Scalar.magnitude, Magnitude.below_ofInt, decide_eq_false_iff_not]
    omega
  rw [ofScalar, below _ (by decide), below _ (by decide)]
  rfl

theorem ofScalar_neg_one : ofScalar (.int (-1)) = .ok unknown := rfl

def value (c : NonZeroCount) : Except Error Int :=
  if c.isKnown then .ok c.get else .error .countUnknown

/-- Equality of counts: they are shown alike. -/
def same (a b : NonZeroCount) : Bool :=
  a.get == b.get

def text (c : NonZeroCount) : String :=
  if c.isKnown then toString c.get else "unknown"

/-- The text that shows a count together with its type. -/
def display (c : NonZeroCount) : String :=
  "NonZeroCount(" ++ toString c.get ++ ")"

end NonZeroCount

end RowAlgebra
