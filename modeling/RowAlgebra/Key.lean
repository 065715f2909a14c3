import RowAlgebra.Number
import RowAlgebra.Text

/-!
# Row keys

Every row of a distributed matrix carries a key. Keys are looked up by value, so an integer, a truth
value and a double with the same value are one key (`Key.same`). A double that is not a number has
no value: such a key is the same as itself only, wherever it travels, and a `Mark` tells it apart
from the others of its kind. A key that a computation has just made is the same as no other, itself
included, until `Key.settle` gives it a mark of its own.

A program may derive classes of its own from that of the integers. A key of such a class is the
integer that it is; its class is known of the matrix only, as the type of its keys.
-/

namespace RowAlgebra

/-- A class that is derived from that of the integers. -/
structure KeyClass where
  /-- What tells classes of one name apart. -/
  serial : Nat
  name : String
  deriving DecidableEq, Repr

inductive KeyType where
  | int
  | text
  | bool
  | float
  | derived (c : KeyClass)
  deriving DecidableEq, Repr

namespace KeyType

def name : KeyType → String
  | int => "int"
  | text => "str"
  | bool => "bool"
  | float => "float"
  | derived c => c.name

/-- Only rows with integer keys have a position, and so only they can become columns. Truth values
do not count as integers here. -/
def isInt : KeyType → Bool
  | int | derived _ => true
  | _ => false

def isDerived : KeyType → Bool
  | derived _ => true
  | _ => false

/-- A type itself, or the one that it is derived from. -/
def base : KeyType → KeyType
  | derived _ => int
  | t => t

end KeyType

/-- What tells keys without a value apart. -/
inductive Mark where
  /-- A key that was handed in. -/
  | given (serial : Nat)
  /-- A key that has just been made. -/
  | fresh
  /-- A key that a call has made for the row at some position. -/
  | made (call position : Nat)
  deriving DecidableEq, Repr

namespace Mark

def same : Mark → Mark → Bool
  | fresh, fresh => false
  | a, b => a == b

/-- The mark that is left when a call has placed its key at a position. -/
def settle (call position : Nat) : Mark → Mark
  | fresh => made call position
  | m => m

theorem same_settle_self (call position : Nat) (m : Mark) :
    (m.settle call position).same (m.settle call position) = true := by
  cases m <;> simp [settle, same]

end Mark

inductive Key where
  | int (n : Int)
  | text (s : Text)
  | bool (b : Bool)
  | float (x : Float)
  | undefined (mark : Mark)

namespace Key

def type : Key → KeyType
  | int _ => .int
  | text _ => .text
  | bool _ => .bool
  | float _ => .float
  | undefined _ => .float

/-- The type of a key that is of a class of its own if it is an integer. -/
def typeIn : Option KeyClass → Key → KeyType
  | some c, int _ => .derived c
  | _, k => k.type

@[simp]
theorem typeIn_none (k : Key) : k.typeIn none = k.type :=
  rfl

@[simp]
theorem isInt_typeIn (c : Option KeyClass) (k : Key) : (k.typeIn c).isInt = k.type.isInt := by
  cases c <;> cases k <;> rfl

theorem type_eq_int_iff {k : Key} : k.type = .int ↔ k.type.isInt = true := by
  cases k <;> simp [type, KeyType.isInt]

theorem type_not_isDerived (k : Key) : k.type.isDerived = false := by
  cases k <;> rfl

/-- The number that a key stands for, if it stands for one. -/
def magnitude : Key → Magnitude
  | int n => .ofInt n
  | bool b => .ofBool b
  | float x => .ofFloat x
  | text _ => .undefined
  | undefined _ => .undefined

def same : Key → Key → Bool
  | text s, text t => s == t
  | undefined m, undefined n => m.same n
  | int m, int n => m == n
  | a, b => a.magnitude.same b.magnitude

/-- Whether two sequences hold the same keys at the same positions. -/
def sameAll : List Key → List Key → Bool
  | [], [] => true
  | a :: as, b :: bs => a.same b && sameAll as bs
  | _, _ => false

/-- The key that a call has placed at a position. A double that is not a number has no value, so it
gets a mark as well. -/
def settle (call position : Nat) : Key → Key
  | undefined m => undefined (m.settle call position)
  | float x =>
    if Magnitude.ofFloat x = .undefined then undefined (.made call position) else float x
  | k => k

end Key

/-- The keys that a matrix is distributed with. -/
structure GivenKeys where
  keys : List Key
  /-- The class of the integer at a position, unless that is the plain one. -/
  derived : Nat → Option KeyClass

namespace GivenKeys

def plain (keys : List Key) : GivenKeys :=
  ⟨keys, fun _ => none⟩

/-- The types of the keys, one by one. -/
def types (given : GivenKeys) : List KeyType :=
  given.keys.mapIdx fun i k => k.typeIn (given.derived i)

theorem types_of_plain {given : GivenKeys} (h : ∀ i, given.derived i = none) :
    given.types = given.keys.map Key.type :=
  List.ext_getElem (by simp [types]) fun i _ _ => by simp [types, h i]

@[simp]
theorem types_plain (keys : List Key) : (plain keys).types = keys.map Key.type :=
  types_of_plain fun _ => rfl

/-- What there is among the keys shows in their types. -/
theorem exists_type {given : GivenKeys} {k : Key} (hk : k ∈ given.keys) :
    ∃ t ∈ given.types, t.isInt = k.type.isInt := by
  obtain ⟨i, hi, rfl⟩ := List.getElem_of_mem hk
  have hi' : i < given.types.length := by simpa [types] using hi
  exact ⟨given.types[i], List.getElem_mem hi', by simp [types]⟩

/-- Integers are of integer types, whatever classes they are of. -/
theorem isInt_of_mem_types {given : GivenKeys} (h : ∀ k ∈ given.keys, k.type = .int) {t : KeyType}
    (ht : t ∈ given.types) : t.isInt = true := by
  obtain ⟨i, hi, rfl⟩ := List.getElem_of_mem ht
  have hi' : i < given.keys.length := by simpa [types] using hi
  have hint := Key.type_eq_int_iff.1 (h given.keys[i] (List.getElem_mem hi'))
  simpa [types] using hint

end GivenKeys

end RowAlgebra
