import Mathlib.Algebra.Field.Rat
import RowAlgebra.Proofs.Expr.Sameness

/-!
# Exact cells

Nothing is assumed of cells in general. `ExactCell` says that they compute as the elements of a
field do, compare by what they are and fit into matrices of any size; the rational numbers are such
cells. Scalars stand for the rational number that they are the value of.
-/

namespace RowAlgebra

/-- Cells with the arithmetic of a field, as far as the field defines it. -/
class ExactCell (α : Type) [Field α] [Cell α] : Prop where
  zero_eq : (Cell.zero : α) = 0
  add_eq (a b : α) : Cell.add a b = a + b
  sub_eq (a b : α) : Cell.sub a b = a - b
  mul_eq (a b : α) : Cell.mul a b = a * b
  div_eq (a b : α) (hb : b ≠ 0) : Cell.div a b = a / b
  same_iff (a b : α) : Cell.same a b = true ↔ a = b
  isZero_iff (a : α) : Cell.isZero a = true ↔ a = 0
  fits (r c : Nat) : @Cell.tooLarge? α _ r c = none

instance (priority := low) {α : Type} [Field α] [Cell α] [ExactCell α] : LawfulSame α where
  symm h := (ExactCell.same_iff _ _).2 ((ExactCell.same_iff _ _).1 h).symm
  trans h₁ h₂ :=
    (ExactCell.same_iff _ _).2 (((ExactCell.same_iff _ _).1 h₁).trans ((ExactCell.same_iff _ _).1 h₂))

/-! ## Rational numbers -/

/-- The rational number that a scalar is, if it is one. -/
def Scalar.rational? (s : Scalar) : Option ℚ :=
  match s.magnitude with
  | .finite q => some q
  | _ => none

theorem Scalar.rational?_of_same {s t : Scalar} (h : s.same t = true) :
    s.rational? = t.rational? := by
  rcases Scalar.same_eq_magnitude h with ⟨rfl, rfl⟩ | ⟨x, rfl, rfl⟩ | h
  · rfl
  · rfl
  · rw [rational?, rational?, (Magnitude.same_eq_true_iff.1 h).2]

instance : Cell ℚ where
  zero := 0
  add := (· + ·)
  sub := (· - ·)
  mul := (· * ·)
  div := (· / ·)
  ofScalar s :=
    match s.rational? with
    | some q => .ok q
    | none => .error (.fault .type)
  same a b := decide (a = b)
  isZero a := decide (a = 0)

instance : ExactCell ℚ where
  zero_eq := rfl
  add_eq _ _ := rfl
  sub_eq _ _ := rfl
  mul_eq _ _ := rfl
  div_eq _ _ _ := rfl
  same_iff _ _ := decide_eq_true_iff
  isZero_iff _ := decide_eq_true_iff
  fits _ _ := rfl

end RowAlgebra
