import RowAlgebra.Text

/-!
# Tallies

How often each of some texts occurs, and texts in their order.
-/

namespace RowAlgebra.Text

/-- Texts in the order of their code points. -/
def sorted (texts : List Text) : List Text :=
  texts.mergeSort fun a b => !b.before a

/-- The different texts in their order, with the number of their occurrences. -/
def tally (texts : List Text) : List (Text × Nat) :=
  (sorted texts.eraseDups).map fun s => (s, texts.count s)

end RowAlgebra.Text
