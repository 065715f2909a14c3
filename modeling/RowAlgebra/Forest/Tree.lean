import RowAlgebra.Json.Writer

/-!
# Decision trees

A `Tree` routes a sample from its root to a leaf: a split compares one feature of the sample with
a threshold and goes on below. Labels, features and thresholds are kept as JSON values, since a
tree is only asked for them when it is used.

`Tree.ofJson` reads the JSON form of a tree, which may have further fields, and `Tree.toJson` is that
form without them. What is written is `Tree.toDatum`, where each node is converted when its turn
comes.
-/

namespace RowAlgebra.Forest

open Json (Datum Value)

/-- One instance of a data set, normally a list of numbers. -/
abbrev Sample := Value

inductive Tree where
  | leaf (label : Value)
  /-- Samples with a value below the threshold go to `lo`, all others to `hi`. -/
  | split (feature threshold : Value) (lo hi : Tree)
  deriving Inhabited

namespace Tree

/-! ## The JSON form -/

/-- What a node says without its subtrees. -/
inductive Header where
  | leaf (label : Value)
  | split (feature threshold : Value)

/-- The header in the fields of an object, if they are those of a node. -/
def header? (fields : List (Text × Value)) : Option Header :=
  match Value.fieldIn? "type" fields with
  | some (.text kind) =>
    if kind = "leaf" then (Value.fieldIn? "label" fields).map .leaf
    else if kind = "numerical" then do
      return .split (← Value.fieldIn? "attribute" fields) (← Value.fieldIn? "split" fields)
    else none
  | _ => none

mutual

def ofJson : Value → Except Error Tree
  | .object fields =>
    match header? fields, subtree? "lo" fields, subtree? "hi" fields with
    | some (.leaf label), _, _ => .ok (leaf label)
    | some (.split feature threshold), some lo, some hi => do
      let lo ← lo
      return split feature threshold lo (← hi)
    | _, _, _ => .error (.unknownTreeNode (Value.object fields).display)
  | v => .error (.unknownTreeNode v.displayAlone)

/-- Reads the tree in the field with a name, if there is such a field. -/
def subtree? (name : Text) : List (Text × Value) → Option (Except Error Tree)
  | [] => none
  | (key, value) :: rest => if key = name then some (ofJson value) else subtree? name rest

end

def toJson : Tree → Value
  | leaf label => .object [("type", .text "leaf"), ("label", label)]
  | split feature threshold lo hi =>
    .object [("type", .text "numerical"), ("attribute", feature), ("split", threshold),
      ("lo", lo.toJson), ("hi", hi.toJson)]

/-- A tree as it is handed over to be written. -/
def toDatum : Tree → Datum
  | leaf label => .converted (.record [(.text "type", .text "leaf"), (.text "label", label.toDatum)])
  | split feature threshold lo hi =>
    .converted (.record [(.text "type", .text "numerical"), (.text "attribute", feature.toDatum),
      (.text "split", threshold.toDatum), (.text "lo", lo.toDatum), (.text "hi", hi.toDatum)])

/-! ## Equality -/

/-- Equality of trees; their values are compared as JSON values are. -/
def same : Tree → Tree → Bool
  | leaf a, leaf b => a.same b
  | split a t lo hi, split a' t' lo' hi' => a.same a' && t.same t' && same lo lo' && same hi hi'
  | _, _ => false

/-! ## Classification -/

/-- The position that a feature names. -/
def position : Value → Except Error Int
  | .int i => .ok i
  | .bool b => .ok (if b then 1 else 0)
  | _ => .error (.fault .type)

/-- The item at a position; negative positions count from the end. -/
def itemAt {β : Type} (items : List β) (i : Int) : Except Error β :=
  let i := if i < 0 then i + items.length else i
  if i < 0 then .error (.fault .index)
  else
    match items[i.toNat]? with
    | some item => .ok item
    | none => .error (.fault .index)

/-- What a sample has for a feature. Lists and texts are asked by position, objects by name; lists
and objects are no names. -/
def valueAt (sample : Sample) (feature : Value) : Except Error Value :=
  match sample, feature with
  | .list items, feature => do itemAt items (← position feature)
  | .text s, feature => do return .text ⟨[← itemAt s.points (← position feature)]⟩
  | .object fields, .text name =>
    match Value.fieldIn? name fields with
    | some v => .ok v
    | none => .error (.fault .key)
  | .object _, .list _ | .object _, .object _ => .error (.fault .type)
  | .object _, _ => .error (.fault .key)
  | _, _ => .error (.fault .type)

def classify (sample : Sample) : Tree → Except Error Value
  | leaf label => .ok label
  | split feature threshold lo hi => do
    let v ← valueAt sample feature
    if ← v.less threshold then lo.classify sample else hi.classify sample

end Tree

end RowAlgebra.Forest
