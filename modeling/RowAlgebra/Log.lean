import RowAlgebra.Json.Access
import RowAlgebra.Json.Layout

/-!
# Logs

A `Logger` writes one entry per call: a heading, if there is one, and the values that it was called
with, with a separator in between and a terminator behind. A logger that lays values out takes
exactly one value per call and writes no heading. One that is not enabled writes nothing.
-/

namespace RowAlgebra

open Json (Value)

/-- What stands in front of each entry. -/
inductive Heading where
  | nothing
  | fixed (s : Text)
  /-- A text with the number of the entry behind it. -/
  | counted (s : Text)

namespace Heading

/-- The heading that is always the same text; an empty one is none. -/
def ofText (s : Text) : Heading :=
  if s.isEmpty then nothing else fixed s

/-- What stands in front of the entry with a number. -/
def entry (number : Nat) : Heading → List Text
  | nothing => []
  | fixed s => [s]
  | counted s => [s ++ toString number]

end Heading

structure Logger where
  enabled : Bool
  laysOut : Bool
  heading : Heading
  /-- What is to stand between values and behind an entry. -/
  separator : Option Value
  terminator : Option Value

namespace Logger

/-- The text that was given for a purpose, or else the usual one. -/
def wording (usual : Text) : Option Value → Except Error Text
  | none | some .null => .ok usual
  | some v => v.asText

def entry (l : Logger) (number : Nat) (values : List Value) : Except Error Text :=
  if !l.enabled then .ok ""
  else if l.laysOut then
    match values, l.separator, l.terminator with
    | [v], none, none => .ok (v.laidOut ++ "\n")
    | _, _, _ => .error (.fault .type)
  else do
    let separator ← wording " " l.separator
    let terminator ← wording "\n" l.terminator
    let words := l.heading.entry number ++ values.map Value.displayAlone
    return .intercalate separator words ++ terminator

def entriesFrom (l : Logger) (number : Nat) : List (List Value) → Except Error Text
  | [] => .ok ""
  | values :: rest => do
    let text ← l.entry number values
    return text ++ (← l.entriesFrom (number + 1) rest)

/-- All that is written for a sequence of calls. -/
def text (l : Logger) (calls : List (List Value)) : Except Error Text :=
  l.entriesFrom 1 calls

end Logger

end RowAlgebra
