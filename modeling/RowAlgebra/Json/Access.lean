import RowAlgebra.Json.Value

/-!
# Taking values apart

A value of unknown form is taken apart by saying what it should be. A value of another kind is
refused, and so is an object that lacks a field that it must have. A field that may be missing may
also be `null` (`Value.field?`), unless it has a value of its own when it is missing
(`Value.fieldOr`). `Value.isGiven` and `Value.elements` take every kind of value as what it says.
-/

namespace RowAlgebra.Json.Value

/-! ## Kinds -/

def asText : Value → Except Error Text
  | text s => .ok s
  | _ => .error (.fault .type)

def asInt : Value → Except Error Int
  | int n => .ok n
  | bool b => .ok (if b then 1 else 0)
  | _ => .error (.fault .type)

/-- A truth value; every integer but zero counts as true. -/
def asBool : Value → Except Error Bool
  | bool b => .ok b
  | int n => .ok (n != 0)
  | _ => .error (.fault .type)

def asItems : Value → Except Error (List Value)
  | list items => .ok items
  | _ => .error (.fault .type)

def asFields : Value → Except Error (List (Text × Value))
  | object fields => .ok fields
  | _ => .error (.fault .type)

/-- Whether a value counts as given: neither absent, nor empty, nor zero. -/
def isGiven : Value → Bool
  | null => false
  | bool b => b
  | int n => n != 0
  | float x => Magnitude.ofFloat x != .finite 0
  | text s => !s.isEmpty
  | list items => !items.isEmpty
  | object fields => !fields.isEmpty

/-- The parts of a value that has some: the items of a list, the characters of a text and the names
of the fields of an object. -/
def elements : Value → Except Error (List Value)
  | list items => .ok items
  | text s => .ok (s.points.map fun p => text ⟨[p]⟩)
  | object fields => .ok (fields.map fun field => text field.1)
  | _ => .error (.fault .type)

/-- The name and the value of the only field of an object. -/
def tagged? : Value → Option (String × Value)
  | object [(name, v)] => some (name.shown, v)
  | _ => none

/-- A value that may be `null`. -/
def orNull {β : Type} (f : Value → Except Error β) : Value → Except Error (Option β)
  | null => .ok none
  | v => do return some (← f v)

/-! ## Fields -/

/-- The field of an object that must be there. -/
def field (v : Value) (name : String) : Except Error Value := do
  match fieldIn? name (← v.asFields) with
  | some found => return found
  | none => .error (.fault .key)

/-- A field of an object that may be missing; `null` is a value as any other. -/
def given? (v : Value) (name : String) : Option Value :=
  match v with
  | object fields => fieldIn? name fields
  | _ => none

/-- A field of an object that may be missing or `null`. -/
def field? (v : Value) (name : String) : Option Value :=
  match v.given? name with
  | some null => none
  | found => found

def textAt (v : Value) (name : String) : Except Error Text := do
  (← v.field name).asText

def intAt (v : Value) (name : String) : Except Error Int := do
  (← v.field name).asInt

def itemsAt (v : Value) (name : String) : Except Error (List Value) := do
  (← v.field name).asItems

/-- A field that may be missing or `null`, taken apart by `f`. -/
def maybeAt {β : Type} (v : Value) (name : String) (f : Value → Except Error β) :
    Except Error (Option β) :=
  (v.field? name).mapM f

/-- A field that may be missing, with the value that it then has. -/
def fieldOr {β : Type} (v : Value) (name : String) (f : Value → Except Error β) (default : β) :
    Except Error β := do
  return (← (v.given? name).mapM f).getD default

/-- A text that may be missing or `null`. -/
def textOr (v : Value) (name default : String) : Except Error Text := do
  return (← v.maybeAt name asText).getD default

/-- Whether a field counts as given, or what it is when it is missing. -/
def flagOr (v : Value) (name : String) (default : Bool) : Bool :=
  (v.given? name).elim default isGiven

end RowAlgebra.Json.Value
