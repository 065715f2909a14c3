import RowAlgebra.Decimal.Layout
import RowAlgebra.Decimal.Numeral
import RowAlgebra.Key

/-!
# Keys as texts

The text of a key on its own (`Key.label`). Integers of very many digits have none.
-/

namespace RowAlgebra.Key

def label : Key → Except Error Text
  | int n => do return (← Decimal.intText n)
  | text s => .ok s
  | bool b => .ok (if b then "True" else "False" : String)
  | float x => .ok (FloatLayout.display.text x)
  | undefined _ => .ok FloatLayout.display.undefined

end RowAlgebra.Key
