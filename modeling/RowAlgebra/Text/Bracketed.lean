import RowAlgebra.Text

/-!
# Bracketed lists

Sequences are shown between brackets, their items separated by a comma and a space. A tuple of one
item keeps a comma behind it.
-/

namespace RowAlgebra.Text

/-- The items between `opening` and `closing`. -/
def bracketed (opening closing : Text) (items : List Text) : Text :=
  opening ++ intercalate ", " items ++ closing

def tuple : List Text → Text
  | [item] => "(" ++ item ++ ",)"
  | items => bracketed "(" ")" items

end RowAlgebra.Text
