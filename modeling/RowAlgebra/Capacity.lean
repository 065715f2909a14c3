import RowAlgebra.Error

/-!
# Capacity

What is held as a whole has to fit into memory. `Capacity.tableFault?` says why a table of numbers
cannot be held, and `Capacity.sequence` refuses a sequence that is too long. The limits are far
beyond anything that is ever filled; they tell apart what cannot even be counted and what merely
finds no room.
-/

namespace RowAlgebra.Capacity

def memory : Nat := 2 ^ 37

/-- Why a table of numbers of 64 bits cannot be held: `2 ^ 60` of them fill the address space, and
memory ends far below that. A side of length zero does not count for the first limit. -/
def tableFault? (nrow ncol : Nat) : Option ErrorKind :=
  if 2 ^ 60 ≤ max 1 nrow * max 1 ncol then some .value
  else if memory < nrow * max 1 ncol then some .memory
  else none

/-- Refuses a length that is no signed number of 64 bits. -/
def length (n : Int) : Except Error Unit :=
  if -(2 ^ 63) ≤ n ∧ n < 2 ^ 63 then .ok () else .error (.fault .overflow)

/-- Refuses a sequence of `n` items that cannot be held: lengths are signed numbers of 64 bits, and
memory ends far below the last of them. A negative length is that of an empty sequence. -/
def sequence (n : Int) : Except Error Unit := do
  length n
  if memory < n then throw (.fault .memory)

def spaces (n : Int) : Except Error Text := do
  sequence n
  return .spaces n.toNat

end RowAlgebra.Capacity
