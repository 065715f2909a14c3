/-!
# Storage levels

A collection that is cached occupies storage at some level. The rows of a collection never change,
only its level does, so the levels live in a table of their own: `Storage` maps each slot to its
current level, and a checkpoint names the slot of its collection.
-/

namespace RowAlgebra

inductive StorageLevel where
  | none
  | diskOnly
  | diskOnly2
  | memoryOnly
  | memoryOnly2
  | memoryOnlySer
  | memoryOnlySer2
  | memoryAndDisk
  | memoryAndDisk2
  | memoryAndDiskSer
  | memoryAndDiskSer2
  deriving DecidableEq, Repr

namespace StorageLevel

def all : List StorageLevel :=
  [none, diskOnly, diskOnly2, memoryOnly, memoryOnly2, memoryOnlySer, memoryOnlySer2,
    memoryAndDisk, memoryAndDisk2, memoryAndDiskSer, memoryAndDiskSer2]

def name : StorageLevel → String
  | none => "NoStorage"
  | diskOnly => "DiskOnly"
  | diskOnly2 => "DiskOnly2"
  | memoryOnly => "MemoryOnly"
  | memoryOnly2 => "MemoryOnly2"
  | memoryOnlySer => "MemoryOnlySer"
  | memoryOnlySer2 => "MemoryOnlySer2"
  | memoryAndDisk => "MemoryAndDisk"
  | memoryAndDisk2 => "MemoryAndDisk2"
  | memoryAndDiskSer => "MemoryAndDiskSer"
  | memoryAndDiskSer2 => "MemoryAndDiskSer2"

def ofName? (s : String) : Option StorageLevel :=
  all.find? fun level => level.name == s

def usesDisk : StorageLevel → Bool
  | none | memoryOnly | memoryOnly2 | memoryOnlySer | memoryOnlySer2 => false
  | _ => true

def usesMemory : StorageLevel → Bool
  | none | diskOnly | diskOnly2 => false
  | _ => true

/-- Whether rows are kept in memory as they are, not in a serialized form. -/
def deserialized : StorageLevel → Bool
  | memoryOnly | memoryOnly2 | memoryAndDisk | memoryAndDisk2 => true
  | _ => false

def replication : StorageLevel → Nat
  | diskOnly2 | memoryOnly2 | memoryOnlySer2 | memoryAndDisk2 | memoryAndDiskSer2 => 2
  | _ => 1

/-- Whether a collection at this level is cached at all. -/
def isCached (level : StorageLevel) : Bool :=
  level != none

end StorageLevel

/-- Names the place that holds the storage level of one collection. -/
abbrev Slot := Nat

/-- The current level of every slot handed out so far. -/
structure Storage where
  levels : List StorageLevel

namespace Storage

def empty : Storage := ⟨[]⟩

def level (s : Storage) (slot : Slot) : StorageLevel :=
  s.levels.getD slot .none

/-- The slot that the next collection gets. -/
def nextSlot (s : Storage) : Slot :=
  s.levels.length

/-- Hands out the next slot at a level. -/
def allocate (s : Storage) (level : StorageLevel) : Storage :=
  ⟨s.levels ++ [level]⟩

def set (s : Storage) (slot : Slot) (level : StorageLevel) : Storage :=
  ⟨s.levels.set slot level⟩

/-- Takes the collection of a slot out of storage. -/
def release (s : Storage) (slot : Slot) : Storage :=
  s.set slot .none

theorem level_allocate_self (s : Storage) (level : StorageLevel) :
    (s.allocate level).level s.nextSlot = level := by
  simp [Storage.level, allocate, nextSlot, List.getD]

theorem level_set_of_ne (s : Storage) {slot other : Slot} (h : slot ≠ other)
    (level : StorageLevel) : (s.set slot level).level other = s.level other := by
  simp [Storage.level, set, List.getD, h]

end Storage

end RowAlgebra
