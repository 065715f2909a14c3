import RowAlgebra.Json.Value
import RowAlgebra.Text.Lines

/-!
# Values over several lines

`Value.laidOut` shows a value on lines of at most `lineWidth` characters, as far as that is
possible: what fits stays on one line, the items of a longer list or object have a line each, and a
longer text is cut into quoted pieces, after its line ends and otherwise after blanks. The fields of
an object are sorted by their names.
-/

namespace RowAlgebra.Json

def lineWidth : Nat := 80

/-! ## Long texts -/

namespace TextLayout

/-- Puts a character in front of lines that keep their ends. -/
def addToLines (p : CodePoint) : List (List CodePoint) → List (List CodePoint)
  | [] => [[p]]
  | line :: lines =>
    if Text.endsLine p.number && !(p == '\r' && line.head? == some '\n') then [p] :: line :: lines
    else (p :: line) :: lines

/-- The lines of a text with their ends. -/
def lines (s : List CodePoint) : List (List CodePoint) :=
  s.foldr addToLines []

def isBlank (p : CodePoint) : Bool :=
  Text.isBlank p.number

/-- Puts a character in front of words that keep the blanks behind them. -/
def addToWords (p : CodePoint) : List (List CodePoint) → List (List CodePoint)
  | [] => [[p]]
  | word :: words =>
    if isBlank p && !(word.head?.any isBlank) then [p] :: word :: words
    else (p :: word) :: words

/-- The words of a text with the blanks behind them. -/
def words (s : List CodePoint) : List (List CodePoint) :=
  s.foldr addToWords []

def quoted (s : List CodePoint) : Text :=
  Text.quoted ⟨s⟩

/-- Joins words to pieces that fit, where `current` is the open piece. Behind the last word there
has to be room for `allowance` more characters. -/
def pieces (indent allowance : Nat) (current : List CodePoint) :
    List (List CodePoint) → List Text
  | [] => if current.isEmpty then [] else [quoted current]
  | word :: rest =>
    let room := if rest.isEmpty then allowance else 0
    if lineWidth < (quoted (current ++ word)).length + indent + room then
      if current.isEmpty then pieces indent allowance word rest
      else quoted current :: pieces indent allowance word rest
    else pieces indent allowance (current ++ word) rest

def chunks (indent allowance : Nat) : List (List CodePoint) → List Text
  | [] => []
  | line :: rest =>
    let room := if rest.isEmpty then allowance else 0
    let here :=
      if (quoted line).length + indent + room ≤ lineWidth then [quoted line]
      else pieces indent room [] (words line)
    here ++ chunks indent allowance rest

def lineBreak (indent : Nat) : Text :=
  "\n" ++ Text.spaces indent

/-- A text that does not fit on one line. Several pieces that are not part of a list or an object
stand in brackets. -/
def broken (indent allowance : Nat) (isOuter : Bool) (t : Text) : Text :=
  let extra := if isOuter then 1 else 0
  match chunks (indent + extra) (allowance + extra) (lines t.points) with
  | [] | [_] => t.quoted
  | several =>
    let text := Text.intercalate (lineBreak (indent + extra)) several
    if isOuter then "(" ++ text ++ ")" else text

end TextLayout

/-! ## Lists and objects -/

namespace Value

mutual

def sorted : Value → Value
  | list items => list (sortedItems items)
  | object fields => object ((sortedFields fields).mergeSort fun f g => !g.1.before f.1)
  | v => v

def sortedItems : List Value → List Value
  | [] => []
  | item :: items => sorted item :: sortedItems items

def sortedFields : List (Text × Value) → List (Text × Value)
  | [] => []
  | (name, value) :: rest => (name, sorted value) :: sortedFields rest

end

mutual

/-- Lays out a value that starts in the column `indent` and is followed by `allowance` more
characters. -/
def layoutAt (indent allowance : Nat) (isOuter : Bool) : Value → Text
  | list items =>
    let text := (list items).display
    if text.length + indent + allowance ≤ lineWidth then text
    else
      "[" ++ Text.intercalate ("," ++ TextLayout.lineBreak (indent + 1))
        (layoutItems (indent + 1) (allowance + 1) items) ++ "]"
  | object fields =>
    let text := (object fields).display
    if text.length + indent + allowance ≤ lineWidth then text
    else
      "\x7b" ++ Text.intercalate ("," ++ TextLayout.lineBreak (indent + 1))
        (layoutFields (indent + 1) (allowance + 1) fields) ++ "\x7d"
  | text s =>
    let quoted := s.quoted
    if quoted.length + indent + allowance ≤ lineWidth then quoted
    else TextLayout.broken indent allowance isOuter s
  | v => v.display

/-- The items of a list, where `allowance` counts what follows the last one. -/
def layoutItems (indent allowance : Nat) : List Value → List Text
  | [] => []
  | item :: rest =>
    layoutAt indent (if rest.isEmpty then allowance else 1) false item ::
      layoutItems indent allowance rest

def layoutFields (indent allowance : Nat) : List (Text × Value) → List Text
  | [] => []
  | (name, value) :: rest =>
    let label := name.quoted ++ ": "
    (label ++
        layoutAt (indent + label.length) (if rest.isEmpty then allowance else 1) false value) ::
      layoutFields indent allowance rest

end

def laidOut (v : Value) : Text :=
  v.sorted.layoutAt 0 0 true

end Value

end RowAlgebra.Json
