import RowAlgebra.Cell

/-!
# In-core matrices

A `Dense` matrix keeps all its cells in one place, row by row. In-core operands and gathered results
are dense. They come from `Nested` lists of cells, which have a shape of their own: only nested
lists with two dimensions are matrices.
-/

namespace RowAlgebra

abbrev Row (α : Type) := List α

/-- The cells of a matrix with `r` rows and `c` columns. -/
abbrev Grid (α : Type) (r c : Nat) := Vector (Vector α c) r

structure Dense (α : Type) where
  nrow : Nat
  ncol : Nat
  cells : Grid α nrow ncol

namespace Dense

variable {α : Type}

def shape (m : Dense α) : Shape :=
  ⟨m.nrow, m.ncol⟩

def rows (m : Dense α) : List (Row α) :=
  m.cells.toList.map Vector.toList

/-- The matrix with the cell `f i j` in row `i` and column `j`. -/
def ofFn {r c : Nat} (f : Fin r → Fin c → α) : Dense α :=
  ⟨r, c, Vector.ofFn fun i => Vector.ofFn fun j => f i j⟩

def transposed (m : Dense α) : Dense α :=
  ofFn fun (j : Fin m.ncol) (i : Fin m.nrow) => m.cells[i][j]

/-- The cells of a list, if there are exactly `n`. -/
def exactly? (n : Nat) (row : Row α) : Option (Vector α n) :=
  if h : row.length = n then some ⟨row.toArray, by simpa using h⟩ else none

/-- The matrix with the given rows, if all of them have `c` cells. -/
def ofRows? (c : Nat) (rows : List (Row α)) : Option (Dense α) :=
  (rows.mapM (exactly? c)).map fun rs => ⟨rs.length, c, ⟨rs.toArray, by simp⟩⟩

/-- The number of cells along one side of a matrix, which must not be negative. -/
def extent (n : Int) : Except Error Nat :=
  if n < 0 then .error (.fault .value) else .ok n.toNat

/-- The numbers of rows and columns of a matrix that is to be held. -/
def sides (α : Type) [Cell α] (nrow ncol : Int) : Except Error (Nat × Nat) := do
  let r ← extent nrow
  let c ← extent ncol
  match @Cell.tooLarge? α _ r c with
  | none => return (r, c)
  | some kind => throw (.fault kind)

section Arithmetic

variable [Cell α]

def zeros (r c : Nat) : Grid α r c :=
  Vector.replicate r (Vector.replicate c Cell.zero)

def sameRow : Row α → Row α → Bool
  | [], [] => true
  | a :: as, b :: bs => Cell.same a b && sameRow as bs
  | _, _ => false

def sameRows : List (Row α) → List (Row α) → Bool
  | [], [] => true
  | a :: as, b :: bs => sameRow a b && sameRows as bs
  | _, _ => false

def same (m n : Dense α) : Bool :=
  m.nrow == n.nrow && m.ncol == n.ncol && sameRows m.rows n.rows

def nonZeros (m : Dense α) : Nat :=
  (m.rows.map fun row => row.countP fun a => !Cell.isZero a).sum

/-- The sum of the products of two rows at equal positions, from the left, on top of `acc`. -/
def dotFrom (acc : α) : Row α → Row α → α
  | a :: as, b :: bs => dotFrom (Cell.add acc (Cell.mul a b)) as bs
  | _, _ => acc

def dot (a b : Row α) : α :=
  dotFrom Cell.zero a b

end Arithmetic

end Dense

/-! ## Stretching rows -/

/-- Stretches a row to `n` cells: a row of that length stays as it is, a single cell is repeated,
and any other row does not fit. -/
def Row.stretch {α : Type} (n : Nat) (row : Row α) : Except Error (Vector α n) :=
  match Dense.exactly? n row with
  | some v => .ok v
  | none =>
    match row with
    | [a] => .ok (Vector.replicate n a)
    | _ => .error (.fault .value)

/-- The pairs of items at equal positions of two rows, where a single item is stretched to the
length of the other row. -/
def Row.paired {β γ : Type} (a : Row β) (b : Row γ) : Except Error (Row (β × γ)) :=
  if a.length = b.length then .ok (a.zip b)
  else
    match a, b with
    | [x], b => .ok (b.map fun y => (x, y))
    | a, [y] => .ok (a.map fun x => (x, y))
    | _, _ => .error (.fault .value)

def Row.combine {α : Type} (f : α → α → α) (a b : Row α) : Except Error (Row α) := do
  return (← paired a b).map fun (x, y) => f x y

/-! ## Nested lists of cells -/

/-- Cells in lists of any depth. -/
inductive Nested (α : Type) where
  | cell (a : α)
  | list (items : List (Nested α))

namespace Nested

variable {α : Type}

mutual

/-- The lengths of the lists at each depth, if all lists at one depth agree. -/
def shape? : Nested α → Option (List Nat)
  | cell _ => some []
  | list items => itemsShape? items

def itemsShape? : List (Nested α) → Option (List Nat)
  | [] => some [0]
  | item :: items =>
    match shape? item with
    | none => none
    | some inner => if haveShape inner items then some ((items.length + 1) :: inner) else none

/-- Whether all items have the shape `inner`. -/
def haveShape (inner : List Nat) : List (Nested α) → Bool
  | [] => true
  | item :: items => shape? item == some inner && haveShape inner items

end

/-- The most dimensions that an array can have. -/
def dimensionLimit : Nat := 64

/-- The shape of nested lists as an array. Ragged lists are none, and neither are those that are
nested too deeply. -/
def arrayShape? (n : Nested α) : Option (List Nat) :=
  n.shape?.filter fun s => s.length ≤ dimensionLimit

def cellsOf : List (Nested α) → Row α
  | cell a :: items => a :: cellsOf items
  | _ :: items => cellsOf items
  | [] => []

def rowsOf : List (Nested α) → List (Row α)
  | list items :: rest => cellsOf items :: rowsOf rest
  | _ :: rest => rowsOf rest
  | [] => []

/-- The matrix that the nested lists write out. Lists that are no array are refused without words;
`refuse` words the refusal of an array that is not two-dimensional. -/
def toDense (refuse : List Nat → Error) (n : Nested α) : Except Error (Dense α) :=
  match n.arrayShape?, n with
  | some [_, c], list items =>
    match Dense.ofRows? c (rowsOf items) with
    | some m => .ok m
    | none => .error (.fault .value)
  | some s, _ => .error (refuse s)
  | none, _ => .error (.fault .value)

end Nested

/-- An in-core operand as it is handed in. -/
inductive InCore (α : Type) where
  | lists (n : Nested α)
  | matrix (m : Dense α)

/-- The matrix that is handed in; `refuse` words the refusal of a shape that is not
two-dimensional. -/
def InCore.toDense {α : Type} (refuse : List Nat → Error) : InCore α → Except Error (Dense α)
  | lists n => n.toDense refuse
  | matrix m => .ok m

end RowAlgebra
