import RowAlgebra.Decimal.Numeral
import RowAlgebra.Json.Value
import RowAlgebra.Sorting.Runs

/-!
# Writing JSON

A `Datum` is anything that may be handed over to be written. Besides JSON values it covers records
with labels that are not texts, things that are converted before they are written, and things without
a JSON form, which are refused when the writer meets them, as are integers of very many digits.
`Datum.write` writes a datum in a `Style`: on one line or indented, with sorted labels or in the order
given, with or without escapes for what is beyond ASCII.

The writer calls itself for what is inside of a list or a record, and for what a thing has been
converted to. Only so many calls can be open at once, so data that are nested too deeply are refused.
-/

namespace RowAlgebra.Json

inductive Label where
  | null
  | bool (b : Bool)
  | int (n : Int)
  | float (x : Float)
  | text (s : Text)
  /-- A label without a JSON form. -/
  | foreign

inductive Datum where
  | null
  | bool (b : Bool)
  | int (n : Int)
  | float (x : Float)
  | text (s : Text)
  | list (items : List Datum)
  | record (fields : List (Label × Datum))
  /-- A thing that is converted to another one to be written. -/
  | converted (d : Datum)
  /-- A thing without a JSON form. -/
  | foreign
  deriving Inhabited

/-- The decisions of a writer. -/
structure Style where
  /-- The text of one level of indentation; without it everything is on one line. -/
  indent : Option Text
  /-- What stands between items, and behind labels; without it nothing that needs it is written. -/
  itemSeparator : Option Text
  labelSeparator : Option Text
  sortLabels : Bool
  asciiOnly : Bool
  /-- Whether infinities and the undefined value may be written. -/
  allowSpecial : Bool
  /-- How many calls are open for a thing that is converted, besides those for what it becomes. -/
  detour : Nat

namespace Style

/-- One line, with a space behind each separator, and ASCII characters only. -/
def oneLine (detour : Nat) : Style := ⟨none, some ", ", some ": ", false, true, true, detour⟩

/-- One line that is written as a whole. -/
def plain : Style := oneLine 1

/-- Text that is written piece by piece, where one call looks for what to do with a thing and another
one takes what that has become. -/
def piecewise (style : Style) : Style := { style with detour := 2 }

/-- Indented, where each item has a line of its own. -/
def indented (indent : Text) : Style :=
  { plain.piecewise with indent := some indent, itemSeparator := some "," }

end Style

namespace Label

def magnitude : Label → Magnitude
  | bool b => .ofBool b
  | int n => .ofInt n
  | float x => .ofFloat x
  | _ => .undefined

def same : Label → Label → Bool
  | null, null => true
  | text s, text t => s == t
  | int m, int n => m == n
  | a, b => a.magnitude.same b.magnitude

def isNumber : Label → Bool
  | bool _ | int _ | float _ => true
  | _ => false

def text? : Label → Option Text
  | text s => some s
  | _ => none

def below : Label → Label → Bool
  | text s, text t => s.before t
  | a, b => a.magnitude.below b.magnitude

end Label

/-! ## Strings -/

/-- The UTF-16 units of a code point as escapes. -/
def unitEscapes (n : Nat) : List Char :=
  if n < 0x10000 then '\\' :: 'u' :: Text.hexPadded 4 n
  else
    let high := 0xD800 + (n - 0x10000) / 0x400
    let low := 0xDC00 + (n - 0x10000) % 0x400
    ('\\' :: 'u' :: Text.hexPadded 4 high) ++ ('\\' :: 'u' :: Text.hexPadded 4 low)

def stringPoint (asciiOnly : Bool) (p : CodePoint) : List CodePoint :=
  if p = '"' ∨ p = '\\' then ['\\', p]
  else if p = '\n' then ['\\', 'n']
  else if p = '\r' then ['\\', 'r']
  else if p = '\t' then ['\\', 't']
  else if p = '\x08' then ['\\', 'b']
  else if p = '\x0c' then ['\\', 'f']
  else if p.number < 0x20 ∨ (asciiOnly ∧ 0x7e < p.number) then
    (unitEscapes p.number).map .ofChar
  else [p]

def stringText (asciiOnly : Bool) (s : Text) : Text :=
  ⟨('"' : CodePoint) :: s.points.flatMap (stringPoint asciiOnly) ++ [('"' : CodePoint)]⟩

/-! ## Records -/

namespace Datum

/-- Sets a field of a record; a field that is there already keeps its place and its label. -/
def setField (label : Label) (value : Datum) : List (Label × Datum) → List (Label × Datum)
  | [] => [(label, value)]
  | (l, old) :: rest =>
    if l.same label then (l, value) :: rest else (l, old) :: setField label value rest

/-- The record with the given fields, the last one counting of several with one label. -/
def ofFields (fields : List (Label × Datum)) : Datum :=
  record (fields.foldl (fun seen field => setField field.1 field.2 seen) [])

/-- The fields of a record in the order in which they are written. Several labels can be sorted
only if all of them are texts or all are numbers. -/
def arrange {β : Type} (style : Style) (fields : List (Label × β)) :
    Except Error (List (Label × β)) :=
  if !style.sortLabels || fields.length < 2 then .ok fields
  else if fields.all (fun f => f.1.text?.isSome) || fields.all (fun f => f.1.isNumber) then
    .ok (Sorting.sort (fun a b => a.1.below b.1) fields)
  else .error (.fault .type)

end Datum

namespace Style

def floatText (style : Style) (x : Float) : Except Error String :=
  if !style.allowSpecial && !(FloatBits.of x).isFinite then .error (.fault .value)
  else .ok (FloatLayout.json.text x)

def labelText (style : Style) : Label → Except Error Text
  | .null => .ok "null"
  | .bool b => .ok (if b then "true" else "false" : String)
  | .int n => do return (← Decimal.intText n)
  | .float x => do return (← style.floatText x)
  | .text s => .ok s
  | .foreign => .error (.fault .type)

/-- A line break with the indentation of a depth, if the style breaks lines. -/
def lineBreak (style : Style) (depth : Nat) : Text :=
  match style.indent with
  | none => ""
  | some indent => "\n" ++ Text.join (List.replicate depth indent)

def needed : Option Text → Except Error Text
  | some separator => .ok separator
  | none => .error (.fault .type)

/-- Written items between brackets. Only a single item on one line needs no separator. -/
def enclose (style : Style) (depth : Nat) (opening closing : Text) (items : List Text) :
    Except Error Text :=
  match style.indent, items with
  | _, [] => .ok (opening ++ closing)
  | none, [item] => .ok (opening ++ item ++ closing)
  | _, items => do
    let separator ← needed style.itemSeparator
    return opening ++ style.lineBreak (depth + 1) ++
      .intercalate (separator ++ style.lineBreak (depth + 1)) items ++
      style.lineBreak depth ++ closing

end Style

/-! ## The writer -/

namespace Datum

/-- The fields of a record, given what has become of their values. -/
def labelled (style : Style) : List (Label × Except Error Text) → Except Error (List Text)
  | [] => .ok []
  | (label, value) :: rest => do
    let name ← style.labelText label
    let value ← value
    return (stringText style.asciiOnly name ++ (← Style.needed style.labelSeparator) ++ value) ::
      (← labelled style rest)

mutual

/-- Writes a datum at a depth of the indentation, where `room` more calls may be open. -/
def writeAt (style : Style) (room depth : Nat) : Datum → Except Error Text
  | null => .ok "null"
  | bool true => .ok "true"
  | bool false => .ok "false"
  | int n => do return (← Decimal.intText n)
  | float x => do return (← style.floatText x)
  | text s => .ok (stringText style.asciiOnly s)
  | list items =>
    match room with
    | 0 => .error (.fault .recursion)
    | room + 1 => do
      style.enclose depth "[" "]" (← writeItems style room (depth + 1) items)
  | record fields =>
    match room with
    | 0 => .error (.fault .recursion)
    | room + 1 => do
      let fields ← arrange style (writeValues style room (depth + 1) fields)
      style.enclose depth "\x7b" "\x7d" (← labelled style fields)
  | converted d =>
    if room < style.detour then .error (.fault .recursion)
    else writeAt style (room - style.detour) depth d
  | foreign => .error (.fault .type)

def writeItems (style : Style) (room depth : Nat) : List Datum → Except Error (List Text)
  | [] => .ok []
  | item :: items => do
    let item ← writeAt style room depth item
    return item :: (← writeItems style room depth items)

def writeValues (style : Style) (room depth : Nat) :
    List (Label × Datum) → List (Label × Except Error Text)
  | [] => []
  | (label, value) :: rest =>
    (label, writeAt style room depth value) :: writeValues style room depth rest

end

def write (style : Style) (room : Nat) (d : Datum) : Except Error Text :=
  d.writeAt style room 0

end Datum

namespace Value

mutual

def toDatum : Value → Datum
  | null => .null
  | bool b => .bool b
  | int n => .int n
  | float x => .float x
  | text s => .text s
  | list items => .list (itemsToData items)
  | object fields => .record (fieldsToData fields)

def itemsToData : List Value → List Datum
  | [] => []
  | item :: items => toDatum item :: itemsToData items

def fieldsToData : List (Text × Value) → List (Label × Datum)
  | [] => []
  | (name, value) :: rest => (.text name, toDatum value) :: fieldsToData rest

end

def write (v : Value) : Except Error Text :=
  v.toDatum.write .plain nestingLimit

end Value

end RowAlgebra.Json
