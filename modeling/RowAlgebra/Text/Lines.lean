import RowAlgebra.Text

/-!
# Lines and blanks

Text of unknown origin is cut into lines at every character that ends a line in Unicode, not only at
the line feed; a carriage return and the line feed behind it end one line together. `trimmed`
removes blanks at both ends, again in the sense of Unicode. Characters are classified by their
numbers.
-/

namespace RowAlgebra.Text

/-- Line feed, vertical tab, form feed, carriage return, the three information separators above the
unit separator, next line, and the line and paragraph separators. -/
def endsLine (n : Nat) : Bool :=
  n ∈ [0x0a, 0x0b, 0x0c, 0x0d, 0x1c, 0x1d, 0x1e, 0x85, 0x2028, 0x2029]

/-- The lines of `ps`, where `current` holds the open line in reverse. -/
def splitLines (current : List CodePoint) : List CodePoint → List Text
  | [] => if current.isEmpty then [] else [⟨current.reverse⟩]
  | ⟨0x0d, _⟩ :: ⟨0x0a, _⟩ :: rest => ⟨current.reverse⟩ :: splitLines [] rest
  | p :: rest =>
    if endsLine p.number then ⟨current.reverse⟩ :: splitLines [] rest
    else splitLines (p :: current) rest

/-- The lines of a text without their ends. A text that ends with a line end has no further, empty
line. -/
def lines (t : Text) : List Text :=
  splitLines [] t.points

/-- The characters that Unicode counts as white space, and the four information separators. -/
def isBlank (n : Nat) : Bool :=
  (0x09 ≤ n && n ≤ 0x0d) || (0x1c ≤ n && n ≤ 0x20) || n == 0x85 || n == 0xa0 || n == 0x1680 ||
    (0x2000 ≤ n && n ≤ 0x200a) || n == 0x2028 || n == 0x2029 || n == 0x202f || n == 0x205f ||
    n == 0x3000

def trimmed (t : Text) : Text :=
  let isBlankPoint (p : CodePoint) : Bool := isBlank p.number
  ⟨((t.points.dropWhile isBlankPoint).reverse.dropWhile isBlankPoint).reverse⟩

/-- Every line end that a terminal produces becomes a line feed. -/
def feedLines : List Char → List Char
  | [] => []
  | '\r' :: '\n' :: rest => '\n' :: feedLines rest
  | c :: rest => (if c = '\r' then '\n' else c) :: feedLines rest

/-- The parts of `ps` between the separators; there is always one more part than separators. -/
def splitPoints (separator : CodePoint) : List CodePoint → List (List CodePoint)
  | [] => [[]]
  | p :: rest =>
    if p = separator then [] :: splitPoints separator rest
    else
      match splitPoints separator rest with
      | [] => [[p]]
      | part :: parts => (p :: part) :: parts

/-- The parts of a text between the separators. -/
def splitAt (separator : Char) (t : Text) : List Text :=
  (splitPoints separator t.points).map fun part => ⟨part⟩

end RowAlgebra.Text
