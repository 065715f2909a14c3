import RowAlgebra.Text
import RowAlgebra.Text.Printable

/-!
# Quoted text

Messages show a text between quotes, on one line and with every character visible. The quote is the
single one unless the text holds single quotes and no double ones. Backslashes and the chosen quote
are written after a backslash; characters that are not printable, and halves of surrogate pairs, are
written as escapes.
-/

namespace RowAlgebra.Text

/-- `n` in hexadecimal digits, at least `width` of them. -/
def hexPadded (width n : Nat) : List Char :=
  let digits := Nat.toDigits 16 n
  List.replicate (width - digits.length) '0' ++ digits

/-- The escape of the code point with the number `n`. -/
def escaped (n : Nat) : List Char :=
  if n = '\n'.toNat then ['\\', 'n']
  else if n = '\r'.toNat then ['\\', 'r']
  else if n = '\t'.toNat then ['\\', 't']
  else if n < 0x100 then '\\' :: 'x' :: hexPadded 2 n
  else if n < 0x10000 then '\\' :: 'u' :: hexPadded 4 n
  else '\\' :: 'U' :: hexPadded 8 n

/-- The quote that surrounds a text. -/
def quoteOf (t : Text) : Char :=
  if t.points.contains '\'' && !t.points.contains '"' then '"' else '\''

/-- How a code point is written between quotes. -/
def quotedPoint (quote : Char) (p : CodePoint) : List CodePoint :=
  if p = quote ∨ p = '\\' then ['\\', p]
  else if isPrintable p.number then [p]
  else (escaped p.number).map .ofChar

def quoted (t : Text) : Text :=
  let quote := t.quoteOf
  ⟨(quote : CodePoint) :: t.points.flatMap (quotedPoint quote) ++ [(quote : CodePoint)]⟩

end RowAlgebra.Text
