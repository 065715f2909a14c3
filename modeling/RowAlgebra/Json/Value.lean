import RowAlgebra.Decimal.Layout
import RowAlgebra.Error

/-!
# JSON values

A JSON value keeps integers and doubles apart, and an object as the list of its fields in order.
Values are compared the way numbers are, by what they stand for: `Value.same` does not tell `1`,
`1.0` and `true` apart, and `Value.less` orders numbers, texts and lists, each among themselves.
`Value.display` shows a value on one line.
-/

namespace RowAlgebra.Json

/-- How many lists and objects may be open at once where values are read and written. -/
def nestingLimit : Nat := 985

inductive Value where
  | null
  | bool (b : Bool)
  | int (n : Int)
  | float (x : Float)
  | text (s : Text)
  | list (items : List Value)
  | object (fields : List (Text × Value))
  deriving Inhabited

namespace Value

/-- The value of the first field with a name. -/
def fieldIn? (name : Text) : List (Text × Value) → Option Value
  | [] => none
  | (key, value) :: rest => if key = name then some value else fieldIn? name rest

/-- Sets a field, at the end if there is none of that name yet. -/
def setField (name : Text) (value : Value) : List (Text × Value) → List (Text × Value)
  | [] => [(name, value)]
  | (key, old) :: rest =>
    if key = name then (key, value) :: rest else (key, old) :: setField name value rest

def magnitude : Value → Magnitude
  | bool b => .ofBool b
  | int n => .ofInt n
  | float x => .ofFloat x
  | _ => .undefined

def isNumber : Value → Bool
  | bool _ | int _ | float _ => true
  | _ => false

def isFloat : Value → Bool
  | float _ => true
  | _ => false

/-! ## Equality -/

mutual

/-- Equality by value. Objects are equal if they hold equal fields in any order. -/
def same : Value → Value → Bool
  | null, null => true
  | text s, text t => s == t
  | list xs, list ys => sameItems xs ys
  | object fs, object gs => fs.length == gs.length && sameFields fs gs
  | a, b => a.magnitude.same b.magnitude

def sameItems : List Value → List Value → Bool
  | [], [] => true
  | x :: xs, y :: ys => same x y && sameItems xs ys
  | _, _ => false

/-- Whether each field on the left has an equal one on the right. -/
def sameFields : List (Text × Value) → List (Text × Value) → Bool
  | [], _ => true
  | (key, value) :: rest, gs =>
    match fieldIn? key gs with
    | none => false
    | some other => same value other && sameFields rest gs

end

/-! ## Order -/

mutual

/-- Whether a value comes before another. Only numbers, texts and lists are ordered. -/
def less : Value → Value → Except Error Bool
  | text s, text t => .ok (s.before t)
  | list xs, list ys => lessItems xs ys
  | a, b =>
    if a.isNumber && b.isNumber then .ok (a.magnitude.below b.magnitude)
    else .error (.fault .type)

/-- Lists are ordered by their first different items, and a list before its extensions. -/
def lessItems : List Value → List Value → Except Error Bool
  | [], ys => .ok !ys.isEmpty
  | _ :: _, [] => .ok false
  | x :: xs, y :: ys => if same x y then lessItems xs ys else less x y

end

/-! ## Display -/

mutual

def display : Value → Text
  | null => "None"
  | bool true => "True"
  | bool false => "False"
  | int n => toString n
  | float x => FloatLayout.display.text x
  | text s => s.quoted
  | list items => Text.bracketed "[" "]" (displayItems items)
  | object fields => Text.bracketed "\x7b" "\x7d" (displayFields fields)

def displayItems : List Value → List Text
  | [] => []
  | item :: items => display item :: displayItems items

def displayFields : List (Text × Value) → List Text
  | [] => []
  | (key, value) :: rest => (key.quoted ++ ": " ++ display value) :: displayFields rest

end

/-- The text that shows a value on its own: a text stands for itself. -/
def displayAlone : Value → Text
  | text s => s
  | v => v.display

end Value

end RowAlgebra.Json
