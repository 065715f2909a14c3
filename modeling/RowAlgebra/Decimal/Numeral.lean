import RowAlgebra.Decimal.Shortest
import RowAlgebra.Error
import RowAlgebra.Text.Digits

/-!
# Numerals

The numbers that decimal numerals write. `Decimal.wholeNumber` bounds the length of the integers
that are read, and `Decimal.intText` of those that are written; `Decimal.nearest` is the double
nearest to a decimal of any length. The numerals that stand alone in a text are read by
`Decimal.intOfText` and `Decimal.floatOfText`: digits of any script count, blanks around the numeral
do not, and a single underscore may stand between two digits.
-/

namespace RowAlgebra.Decimal

def isDigit (c : Char) : Bool :=
  decide ('0' ≤ c) && decide (c ≤ '9')

def digitsValue (ds : List Char) : Nat :=
  ds.foldl (fun n d => n * 10 + (d.toNat - 48)) 0

/-- The most digits that an integer may be written with. -/
def digitLimit : Nat := 4300

/-- The number that decimal digits write, if there are not too many of them. -/
def wholeNumber (ds : List Char) : Except Error Nat :=
  if digitLimit < ds.length then .error (.fault .value) else .ok (digitsValue ds)

/-- Whether an integer has too many digits. -/
def isLong (n : Int) : Bool :=
  digitLimit < digitCount n.natAbs

/-- The decimal digits of an integer, if there are not too many of them. -/
def intText (n : Int) : Except Error String :=
  if isLong n then .error (.fault .value) else .ok (toString n)

/-- The double nearest to `m * 10 ^ e`. Far outside of the range of doubles the power is not
computed. -/
def nearest (m : Nat) (e : Int) : Float :=
  if m = 0 then 0.0
  else
    let size : Int := digitCount m
    if 400 < size + e then 1.0 / 0.0
    else if size + e < -400 then 0.0
    else Float.ofScientific m (decide (e < 0)) e.natAbs

/-- The sign in front of a numeral, whether it is negative, and the characters behind it. -/
def signed : List Char → Bool × List Char
  | '-' :: cs => (true, cs)
  | '+' :: cs => (false, cs)
  | cs => (false, cs)

def readExponent (cs : List Char) : Option (Int × List Char) :=
  match cs with
  | e :: rest =>
    if e = 'e' ∨ e = 'E' then
      let (negative, rest) := signed rest
      let ds := rest.takeWhile isDigit
      let n : Int := digitsValue ds
      if ds.isEmpty then none
      else some (if negative then -n else n, rest.dropWhile isDigit)
    else none
  | [] => none

/-! ## Numerals that stand alone -/

/-- The characters without the underscores between digits, given whether there is a digit in front;
there must be no other underscores. -/
def ungrouped (behindDigit : Bool) : List Char → Option (List Char)
  | [] => some []
  | '_' :: c :: cs => if behindDigit && isDigit c then (ungrouped true cs).map (c :: ·) else none
  | ['_'] => none
  | c :: cs => (ungrouped (isDigit c) cs).map (c :: ·)

def intOfText (s : String) : Except Error Int :=
  match (ungrouped false (Text.asciiNumeral s.toList)).map signed with
  | some (negative, ds) =>
    if !ds.isEmpty && ds.all isDigit then do
      let n : Int ← wholeNumber ds
      return if negative then -n else n
    else .error (.fault .value)
  | none => .error (.fault .value)

/-- The double that a numeral without a sign writes. Either side of the point may be empty, but not
both of them. -/
def unsignedFloat? (cs : List Char) : Option Float :=
  let whole := cs.takeWhile isDigit
  let (fraction, rest) : List Char × List Char := match cs.dropWhile isDigit with
    | '.' :: rest => (rest.takeWhile isDigit, rest.dropWhile isDigit)
    | rest => ([], rest)
  let (e, rest) := (readExponent rest).getD (0, rest)
  if (whole ++ fraction).isEmpty || !rest.isEmpty then none
  else some (nearest (digitsValue (whole ++ fraction)) (e - fraction.length))

/-- The double that a word stands for, in letters of either case. -/
def wordFloat? (cs : List Char) : Option Float :=
  match String.ofList (cs.map Char.toLower) with
  | "nan" => some (0.0 / 0.0)
  | "inf" | "infinity" => some (1.0 / 0.0)
  | _ => none

def floatOfText (s : String) : Except Error Float :=
  match (ungrouped false (Text.asciiNumeral s.toList)).map signed with
  | some (negative, cs) =>
    match (wordFloat? cs).or (unsignedFloat? cs) with
    | some x => .ok (if negative then -x else x)
    | none => .error (.fault .value)
  | none => .error (.fault .value)

end RowAlgebra.Decimal
