import RowAlgebra.Decimal.Layout
import RowAlgebra.Decimal.Numeral

/-!
# Scalars

The scalar operand of an operator is kept as it was given: an integer of any size, a truth value or
a double. An operator may also be handed an absent operand or a text; such a node can be built and
shown, but it has no cell value. `Scalar.same` compares by value, as the structural equality of
expressions does.
-/

namespace RowAlgebra

inductive Scalar where
  | int (n : Int)
  | bool (b : Bool)
  | float (x : Float)
  | absent
  | text (s : Text)

namespace Scalar

/-- Whether the scalar is a real number in the wide sense, which the operators `+ - * /` ask of
their scalar operand. -/
def isReal : Scalar → Bool
  | int _ | bool _ | float _ => true
  | absent | text _ => false

def magnitude : Scalar → Magnitude
  | int n => .ofInt n
  | bool b => .ofBool b
  | float x => .ofFloat x
  | absent | text _ => .undefined

def same : Scalar → Scalar → Bool
  | absent, absent => true
  | text s, text t => s == t
  | a, b => a.magnitude.same b.magnitude

def isZero (s : Scalar) : Bool :=
  s.magnitude == .finite 0

/-- The text of a scalar in the label of its operator. Integers of very many digits have none. -/
def label : Scalar → Except Error Text
  | int n => do return (← Decimal.intText n)
  | bool true => .ok "True"
  | bool false => .ok "False"
  | float x => .ok (FloatLayout.display.text x)
  | absent => .ok "None"
  | text s => .ok s

end Scalar

end RowAlgebra
