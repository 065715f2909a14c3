import RowAlgebra.Decimal.Shortest

/-!
# How doubles are written

A double is written with the digits of `Decimal.shortest`. A `FloatLayout` fixes what is left to
decide: which exponents are written positionally, and the words for the values without digits.
-/

namespace RowAlgebra

/-- The decisions of a format for doubles. -/
structure FloatLayout where
  /-- The least exponent of a first digit that is written positionally. -/
  positionalFrom : Int
  /-- The first exponent that is no longer written positionally. -/
  positionalBelow : Int
  undefined : String
  posInf : String
  negInf : String

namespace FloatLayout

def display : FloatLayout := ⟨-4, 16, "nan", "inf", "-inf"⟩

/-- Doubles in JSON texts, where the values without digits have names of their own. -/
def json : FloatLayout :=
  { display with undefined := "NaN", posInf := "Infinity", negInf := "-Infinity" }

/-- A decimal exponent, with its sign and at least two digits. -/
def exponentText (e : Int) : String :=
  let digits := toString e.natAbs
  (if e < 0 then "e-" else "e+") ++ (if digits.length < 2 then "0" ++ digits else digits)

/-- A decimal whose first digit counts `10 ^ lead`. -/
def digitsText (layout : FloatLayout) (digits : List Char) (lead : Int) : String :=
  if layout.positionalFrom ≤ lead ∧ lead < layout.positionalBelow then
    if lead < 0 then "0." ++ String.ofList (List.replicate (-lead - 1).toNat '0' ++ digits)
    else
      let whole := lead.toNat + 1
      let padded := digits ++ List.replicate (whole - digits.length) '0'
      let fraction := padded.drop whole
      String.ofList (padded.take whole) ++ "." ++
        (if fraction.isEmpty then "0" else String.ofList fraction)
  else
    let fraction := digits.drop 1
    String.ofList (digits.take 1) ++
      (if fraction.isEmpty then "" else "." ++ String.ofList fraction) ++ exponentText lead

def text (layout : FloatLayout) (x : Float) : String :=
  let b := FloatBits.of x
  if b.isFinite then
    let sign := if b.negative then "-" else ""
    if b.significand = 0 then sign ++ "0.0"
    else
      let d := Decimal.shortest b
      let digits := Nat.toDigits 10 d.significand
      sign ++ layout.digitsText digits (d.exponent + digits.length - 1)
  else if b.fraction ≠ 0 then layout.undefined
  else if b.negative then layout.negInf
  else layout.posInf

end FloatLayout

end RowAlgebra
