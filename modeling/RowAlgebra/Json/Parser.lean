import RowAlgebra.Decimal.Numeral
import RowAlgebra.Json.Value

/-!
# Reading JSON

`Json.parse` reads one JSON text. Beyond the standard it admits the words `NaN`, `Infinity` and
`-Infinity`; a number is an integer exactly if it has neither a fraction nor an exponent, and of
several fields with one name the last one counts. Control characters inside of strings, leading
zeros, commas before a closing bracket and anything but blanks behind the value are refused. So are
integers of very many digits and values that are nested very deeply, for reasons of their own.

Each reader takes the characters that are left, and yields a value with the characters behind it.
-/

namespace RowAlgebra.Json

/-- A reader that may refuse its input. -/
abbrev Reader (β : Type) := List Char → Except Error (β × List Char)

/-- The refusal of a text that is not JSON. -/
def malformed {β : Type} : Except Error β :=
  .error (.fault .jsonDecode)

/-- The answer of a reader for a part that may be missing. -/
def required {β : Type} : Option β → Except Error β
  | some x => .ok x
  | none => malformed

def skipBlanks : List Char → List Char
  | c :: cs => if c = ' ' ∨ c = '\t' ∨ c = '\n' ∨ c = '\r' then skipBlanks cs else c :: cs
  | [] => []

def expect : List Char → List Char → Option (List Char)
  | [], cs => some cs
  | _ :: _, [] => none
  | w :: ws, c :: cs => if w = c then expect ws cs else none

/-! ## Strings -/

def hexDigit? (c : Char) : Option Nat :=
  if '0' ≤ c ∧ c ≤ '9' then some (c.toNat - 48)
  else if 'a' ≤ c ∧ c ≤ 'f' then some (c.toNat - 87)
  else if 'A' ≤ c ∧ c ≤ 'F' then some (c.toNat - 55)
  else none

/-- The number that four hexadecimal digits write. -/
def unitOf? (a b c d : Char) : Option Nat := do
  let a ← hexDigit? a
  let b ← hexDigit? b
  let c ← hexDigit? c
  let d ← hexDigit? d
  return ((a * 16 + b) * 16 + c) * 16 + d

/-- Adds the code point of an escape to those so far, which are in reverse. The two halves of a
surrogate pair in a row are one character; a half on its own stays what it is. -/
def pushUnit (low : Nat) : List CodePoint → List CodePoint
  | high :: seen =>
    if 0xD800 ≤ high.number ∧ high.number < 0xDC00 ∧ 0xDC00 ≤ low ∧ low < 0xE000 then
      .ofNumber (0x10000 + (high.number - 0xD800) * 0x400 + (low - 0xDC00)) :: seen
    else .ofNumber low :: high :: seen
  | [] => [.ofNumber low]

/-- The character that a letter behind a backslash stands for. -/
def simpleEscape? : Char → Option Char
  | '"' => some '"'
  | '\\' => some '\\'
  | '/' => some '/'
  | 'b' => some '\x08'
  | 'f' => some '\x0c'
  | 'n' => some '\n'
  | 'r' => some '\r'
  | 't' => some '\t'
  | _ => none

/-- Reads the rest of a string behind its opening quote; `seen` holds the code points so far in
reverse. -/
def readString : List CodePoint → Reader Text
  | seen, '"' :: rest => .ok (⟨seen.reverse⟩, rest)
  | seen, '\\' :: 'u' :: a :: b :: c :: d :: rest => do
    readString (pushUnit (← required (unitOf? a b c d)) seen) rest
  | seen, '\\' :: c :: rest => do
    readString (.ofChar (← required (simpleEscape? c)) :: seen) rest
  | seen, c :: rest =>
    if c.toNat < 0x20 ∨ c = '\\' then malformed else readString (.ofChar c :: seen) rest
  | _, [] => malformed

/-! ## Numbers -/

def readFraction : List Char → List Char × List Char
  | '.' :: cs =>
    let ds := cs.takeWhile Decimal.isDigit
    if ds.isEmpty then ([], '.' :: cs) else (ds, cs.dropWhile Decimal.isDigit)
  | cs => ([], cs)

def readUnsigned (negative : Bool) : Reader Value := fun cs =>
  let digits := cs.takeWhile Decimal.isDigit
  let whole := if digits.head? = some '0' then ['0'] else digits
  if whole.isEmpty then malformed
  else
    let (fraction, afterFraction) := readFraction (cs.drop whole.length)
    let exponent := Decimal.readExponent afterFraction
    if fraction.isEmpty ∧ exponent.isNone then do
      let n : Int ← Decimal.wholeNumber whole
      return (.int (if negative then -n else n), afterFraction)
    else
      let (e, rest) := exponent.getD (0, afterFraction)
      let x := Decimal.nearest (Decimal.digitsValue (whole ++ fraction)) (e - fraction.length)
      .ok (.float (if negative then -x else x), rest)

/-! ## Values -/

def readWord (word : String) (value : Value) : Reader Value := fun cs =>
  match expect word.toList cs with
  | some rest => .ok (value, rest)
  | none => malformed

/-- Reads one of the words, or a number. -/
def readAtom : Reader Value := fun cs =>
  match cs with
  | 'n' :: _ => readWord "null" .null cs
  | 't' :: _ => readWord "true" (.bool true) cs
  | 'f' :: _ => readWord "false" (.bool false) cs
  | 'N' :: _ => readWord "NaN" (.float (0.0 / 0.0)) cs
  | 'I' :: _ => readWord "Infinity" (.float (1.0 / 0.0)) cs
  | '-' :: 'I' :: _ => readWord "-Infinity" (.float (-1.0 / 0.0)) cs
  | '-' :: rest => readUnsigned true rest
  | cs => readUnsigned false cs

mutual

/-- Reads a value that starts at once, in which `room` more lists and objects may be open. -/
def readValue : Nat → Nat → Reader Value
  | 0, _, _ => malformed
  | fuel + 1, room, cs =>
    match cs with
    | '"' :: rest => do
      let (s, rest) ← readString [] rest
      return (.text s, rest)
    | '[' :: rest =>
      match room with
      | 0 => .error (.fault .recursion)
      | room + 1 =>
        match skipBlanks rest with
        | ']' :: rest => .ok (.list [], rest)
        | rest => do
          let (items, rest) ← readItems fuel room rest
          return (.list items, rest)
    | '\x7b' :: rest =>
      match room with
      | 0 => .error (.fault .recursion)
      | room + 1 =>
        match skipBlanks rest with
        | '\x7d' :: rest => .ok (.object [], rest)
        | rest => do
          let (fields, rest) ← readFields fuel room [] rest
          return (.object fields, rest)
    | cs => readAtom cs

/-- Reads the items of a list that is not empty, up to its closing bracket. -/
def readItems : Nat → Nat → Reader (List Value)
  | 0, _, _ => malformed
  | fuel + 1, room, cs => do
    let (item, rest) ← readValue fuel room cs
    match skipBlanks rest with
    | ']' :: rest => return ([item], rest)
    | ',' :: rest =>
      let (items, rest) ← readItems fuel room (skipBlanks rest)
      return (item :: items, rest)
    | _ => malformed

/-- Reads the fields of an object that is not empty, up to its closing brace, on top of the fields
read so far. -/
def readFields : Nat → Nat → List (Text × Value) → Reader (List (Text × Value))
  | 0, _, _, _ => malformed
  | fuel + 1, room, fields, cs =>
    match cs with
    | '"' :: rest => do
      let (name, rest) ← readString [] rest
      match skipBlanks rest with
      | ':' :: rest =>
        let (value, rest) ← readValue fuel room (skipBlanks rest)
        let fields := Value.setField name value fields
        match skipBlanks rest with
        | '\x7d' :: rest => return (fields, rest)
        | ',' :: rest => readFields fuel room fields (skipBlanks rest)
        | _ => malformed
      | _ => malformed
    | _ => malformed

end

/-- Reads a JSON text. Every step of the readers consumes a character or is followed by one that
does. -/
def parse (s : String) : Except Error Value := do
  let cs := skipBlanks s.toList
  let (v, rest) ← readValue (2 * cs.length + 2) nestingLimit cs
  if (skipBlanks rest).isEmpty then return v else malformed

end RowAlgebra.Json
