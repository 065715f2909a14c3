import Mathlib.Algebra.BigOperators.Group.Finset.Basic
import Mathlib.Algebra.Field.Defs
import Mathlib.Data.Finset.Image
import RowAlgebra.Exec
import RowAlgebra.Proofs.Key.Value

/-!
# Matrices with keyed rows

A `KeyedMatrix` is what a distributed matrix stands for: a finite set of key values, each with the
key that carries it and with a row of cells, in no order and in no place. Operators act on it by what
they are meant to compute. Products with a transposed left operand add up the outer products over the
common keys, element-wise operators read a missing row as zeros, and where rows become columns, their
keys are positions. `Expr.keyed` is the keyed matrix that an expression stands for.
-/

namespace RowAlgebra

/-! ## Positions as keys -/

namespace KeyValue

/-- The value of the key of a position. -/
def ofNat (n : ℕ) : KeyValue :=
  .number (.ofInt n)

/-- The position that a key value stands for, if it stands for one. -/
def index : KeyValue → ℕ
  | .number (.finite q) => q.num.toNat
  | _ => 0

theorem index_ofNat (n : ℕ) : (ofNat n).index = n := by
  change ((n : Int) : ℚ).num.toNat = n
  rw [Rat.num_intCast, Int.toNat_natCast]

theorem ofNat_injective : Function.Injective ofNat := by
  intro m n h
  rw [← index_ofNat m, h, index_ofNat]

end KeyValue

theorem Key.value?_ofNat (n : ℕ) : (Key.int n).value? = some (.ofNat n) :=
  rfl

/-- A matrix whose rows are told apart by the values of their keys. -/
structure KeyedMatrix (α : Type) where
  keys : Finset KeyValue
  /-- The key of the row with some value. -/
  key : KeyValue → Key
  cell : KeyValue → ℕ → α
  ncol : ℕ
  value?_key : ∀ v ∈ keys, (key v).value? = some v

namespace KeyedMatrix

variable {α : Type}

def row (A : KeyedMatrix α) (v : KeyValue) : Row α :=
  (List.range A.ncol).map (A.cell v)

theorem length_row (A : KeyedMatrix α) (v : KeyValue) : (A.row v).length = A.ncol := by
  simp [row]

/-- A key and its row, as a collection holds them. -/
def entry (A : KeyedMatrix α) (v : KeyValue) : KeyedRow α :=
  (A.key v, .plain (A.row v))

def atPositions (positions : Finset ℕ) (ncol : ℕ) (f : ℕ → ℕ → α) : KeyedMatrix α where
  keys := positions.image .ofNat
  key v := .int v.index
  cell v j := f v.index j
  ncol := ncol
  value?_key v hv := by
    obtain ⟨i, -, rfl⟩ := Finset.mem_image.1 hv
    rw [KeyValue.index_ofNat, Key.value?_ofNat]

def ofFn (nrow ncol : ℕ) (f : ℕ → ℕ → α) : KeyedMatrix α :=
  atPositions (Finset.range nrow) ncol f

def withCells (A : KeyedMatrix α) (ncol : ℕ) (f : KeyValue → ℕ → α) : KeyedMatrix α :=
  { A with cell := f, ncol }

def map (f : α → α) (A : KeyedMatrix α) : KeyedMatrix α :=
  A.withCells A.ncol fun v j => f (A.cell v j)

/-! ## Positions -/

/-- Whether all keys are those of positions below `n`. -/
def Within (A : KeyedMatrix α) (n : ℕ) : Prop :=
  ∀ v ∈ A.keys, ∃ i < n, v = .ofNat i ∧ A.key v = .int i

/-- Whether there is a row at every position below `n`, and no other one. -/
structure Indexed (A : KeyedMatrix α) (n : ℕ) : Prop where
  within : A.Within n
  complete : ∀ i < n, .ofNat i ∈ A.keys

theorem within_atPositions {positions : Finset ℕ} {n ncol : ℕ} {f : ℕ → ℕ → α}
    (h : ∀ i ∈ positions, i < n) : (atPositions positions ncol f).Within n := by
  intro v hv
  obtain ⟨i, hi, rfl⟩ := Finset.mem_image.1 hv
  refine ⟨i, h i hi, rfl, ?_⟩
  change Key.int (KeyValue.ofNat i).index = _
  rw [KeyValue.index_ofNat]

theorem indexed_ofFn (nrow ncol : ℕ) (f : ℕ → ℕ → α) : (ofFn nrow ncol f).Indexed nrow :=
  ⟨within_atPositions fun _ hi => Finset.mem_range.1 hi,
    fun _ hi => Finset.mem_image_of_mem _ (Finset.mem_range.2 hi)⟩

theorem Indexed.withCells {A : KeyedMatrix α} {n : ℕ} (h : A.Indexed n) (ncol : ℕ)
    (f : KeyValue → ℕ → α) : (A.withCells ncol f).Indexed n :=
  ⟨h.within, h.complete⟩

theorem Indexed.keys_eq {A : KeyedMatrix α} {n : ℕ} (h : A.Indexed n) :
    A.keys = (Finset.range n).image .ofNat := by
  ext v
  rw [Finset.mem_image]
  constructor
  · intro hv
    obtain ⟨i, hi, rfl, -⟩ := h.within v hv
    exact ⟨i, Finset.mem_range.2 hi, rfl⟩
  · rintro ⟨i, hi, rfl⟩
    exact h.complete i (Finset.mem_range.1 hi)

variable [Cell α]

/-- The cell of a row, which is zero where there is no row. -/
def read (A : KeyedMatrix α) (v : KeyValue) (j : ℕ) : α :=
  if v ∈ A.keys then A.cell v j else Cell.zero

theorem read_of_mem {A : KeyedMatrix α} {v : KeyValue} (h : v ∈ A.keys) (j : ℕ) :
    A.read v j = A.cell v j :=
  if_pos h

theorem read_of_notMem {A : KeyedMatrix α} {v : KeyValue} (h : v ∉ A.keys) (j : ℕ) :
    A.read v j = Cell.zero :=
  if_neg h

/-! ## Operators -/

def zipWith (f : α → α → α) (A B : KeyedMatrix α) : KeyedMatrix α where
  keys := A.keys ∪ B.keys
  key v := if v ∈ A.keys then A.key v else B.key v
  cell v j := f (A.read v j) (B.read v j)
  ncol := A.ncol
  value?_key v hv := by
    by_cases ha : v ∈ A.keys
    · rw [if_pos ha]
      exact A.value?_key v ha
    · rw [if_neg ha]
      exact B.value?_key v ((Finset.mem_union.1 hv).resolve_left ha)

/-- The transposed matrix `A'`, where `A` has rows at positions below `n`. -/
def transposed (n : ℕ) (A : KeyedMatrix α) : KeyedMatrix α :=
  ofFn A.ncol n fun i j => A.read (.ofNat j) i

/-- The rows at the positions from `start` up to, but without, `stop`, which are counted from
`start`. -/
def rowRange (start stop : Int) (A : KeyedMatrix α) : KeyedMatrix α :=
  atPositions ((Finset.range (stop - start).toNat).filter fun i => .ofNat (start.toNat + i) ∈ A.keys)
    A.ncol fun i j => A.cell (.ofNat (start.toNat + i)) j

theorem rowRange_read {A : KeyedMatrix α} {start stop : Int} {i : ℕ}
    (hi : i < (stop - start).toNat) (j : ℕ) :
    (A.rowRange start stop).read (.ofNat i) j = A.read (.ofNat (start.toNat + i)) j := by
  have hmem : .ofNat i ∈ (A.rowRange start stop).keys ↔ .ofNat (start.toNat + i) ∈ A.keys := by
    simp [rowRange, atPositions, KeyValue.ofNat_injective.eq_iff, Int.lt_toNat.1 hi]
  by_cases hv : .ofNat (start.toNat + i) ∈ A.keys
  · rw [read_of_mem hv, read_of_mem (hmem.2 hv)]
    change A.cell (.ofNat (start.toNat + (KeyValue.ofNat i).index)) j = _
    rw [KeyValue.index_ofNat]
  · rw [read_of_notMem hv, read_of_notMem (mt hmem.1 hv)]

/-- A function on rows and their keys. -/
def mapRows (ncol : ℕ) (f : Key → Row α → Row α) (A : KeyedMatrix α) : KeyedMatrix α :=
  A.withCells ncol fun v j => (f (A.key v) (A.row v)).getD j Cell.zero

theorem indexed_transposed (n : ℕ) (A : KeyedMatrix α) : (A.transposed n).Indexed A.ncol :=
  indexed_ofFn _ _ _

omit [Cell α] in
theorem Indexed.rowRange {A : KeyedMatrix α} {n : ℕ} (h : A.Indexed n) {start stop : Int}
    (hstart : 0 ≤ start) (hstop : stop ≤ n) :
    (A.rowRange start stop).Indexed (stop - start).toNat := by
  have hall : ((Finset.range (stop - start).toNat).filter fun i =>
      .ofNat (start.toNat + i) ∈ A.keys) = Finset.range (stop - start).toNat := by
    refine Finset.filter_true_of_mem fun i hi => h.complete _ ?_
    have hi := Finset.mem_range.1 hi
    omega
  rw [KeyedMatrix.rowRange, hall]
  exact indexed_ofFn _ _ _

theorem Indexed.zipWith {A B : KeyedMatrix α} {n : ℕ} (hA : A.Indexed n) (hB : B.Indexed n)
    (f : α → α → α) : (A.zipWith f B).Indexed n := by
  refine ⟨fun v hv => ?_, fun i hi => Finset.mem_union_left _ (hA.complete i hi)⟩
  have hkeys : B.keys = A.keys := hB.keys_eq.trans hA.keys_eq.symm
  have hv : v ∈ A.keys := by
    rcases Finset.mem_union.1 hv with hv | hv
    · exact hv
    · exact hkeys ▸ hv
  obtain ⟨i, hi, rfl, hkey⟩ := hA.within v hv
  exact ⟨i, hi, rfl, (if_pos hv).trans hkey⟩

section Products

variable [Field α]

/-- The product `A'B`: the outer products of the rows with common keys, added up. -/
def transposedTimes (A B : KeyedMatrix α) : KeyedMatrix α :=
  ofFn A.ncol B.ncol fun i j => ∑ v ∈ A.keys ∩ B.keys, A.cell v i * B.cell v j

omit [Cell α] in
theorem indexed_transposedTimes (A B : KeyedMatrix α) : (A.transposedTimes B).Indexed A.ncol :=
  indexed_ofFn _ _ _

/-- The product `AB'`, where `B` has rows at positions below `n`. -/
def timesTransposed (n : ℕ) (A B : KeyedMatrix α) : KeyedMatrix α :=
  A.withCells n fun v j => ∑ i ∈ Finset.range A.ncol, A.cell v i * B.read (.ofNat j) i

def times (A B : KeyedMatrix α) : KeyedMatrix α :=
  A.withCells B.ncol fun v j => ∑ i ∈ Finset.range A.ncol, A.cell v i * B.read (.ofNat i) j

end Products

end KeyedMatrix

/-! ## The matrices of expressions -/

/-- The cell of a row, and zero beyond its end. -/
def Cells.get {α : Type} [Cell α] (row : Cells α) (j : ℕ) : α :=
  (row.plain?.getD []).getD j Cell.zero

def Dense.matrix {α : Type} [Cell α] (m : Dense α) : KeyedMatrix α :=
  .ofFn m.nrow m.ncol fun i j => (m.rows.getD i []).getD j Cell.zero

namespace Handle

variable {α : Type}

/-- The first row whose key has some value. -/
def rowAt? (h : Handle α) (v : KeyValue) : Option (KeyedRow α) :=
  h.collection.rows.find? fun entry => entry.1.value? = some v

theorem value?_of_rowAt? {h : Handle α} {v : KeyValue} {entry : KeyedRow α}
    (hf : h.rowAt? v = some entry) : entry.1.value? = some v := by
  simpa using List.find?_some hf

theorem isSome_rowAt? {h : Handle α} {v : KeyValue} :
    (h.rowAt? v).isSome = true ↔ ∃ entry ∈ h.collection.rows, entry.1.value? = some v := by
  simp [rowAt?]

/-- The keyed matrix whose rows a handle holds. -/
def matrix [Cell α] (h : Handle α) : KeyedMatrix α where
  keys := (h.collection.keys.filterMap Key.value?).toFinset
  key v := (h.rowAt? v).elim (.int 0) Prod.fst
  cell v j := (h.rowAt? v).elim Cell.zero fun entry => entry.2.get j
  ncol := h.ncol.toNat
  value?_key v hv := by
    obtain ⟨k, hk, hkv⟩ := List.mem_filterMap.1 (List.mem_toFinset.1 hv)
    obtain ⟨entry, he, rfl⟩ := List.mem_map.1 hk
    obtain ⟨found, hfound⟩ := Option.isSome_iff_exists.1 (isSome_rowAt?.2 ⟨entry, he, hkv⟩)
    rw [hfound]
    exact value?_of_rowAt? hfound

end Handle

def Scalar.cell {α : Type} [Cell α] (s : Scalar) : α :=
  match Cell.ofScalar s with
  | .ok x => x
  | .error _ => Cell.zero

section Meaning

variable {α : Type} [Cell α] [Field α]

/-- What an operator makes of the matrix of an input with the schema `s`; `rowFn` says what block
functions do to single rows. -/
def UnaryOp.onMatrix (rowFn : BlockName → Key → Row α → Row α) (s : Schema) (A : KeyedMatrix α) :
    UnaryOp α → KeyedMatrix α
  | transpose | transposeAnyKey => A.transposed s.nrow.toNat
  | selfGramian => A.transposedTimes A
  | scalar op x => A.map fun a => op.apply a x.cell
  | rowRange start stop => A.rowRange start stop
  | leftMultiply m => m.matrix.times A
  | rightMultiply m => A.times m.matrix
  | mapBlock fn ncol _ => A.mapRows ncol.toNat (rowFn fn)

/-- What an operator makes of the matrices of its inputs, the right one of which has the schema
`r`. -/
def BinaryOp.onMatrices (r : Schema) (A B : KeyedMatrix α) : BinaryOp → KeyedMatrix α
  | matMul => A.times B
  | matMulTransA => A.transposedTimes B
  | matMulTransB => A.timesTransposed r.nrow.toNat B
  | elementwise op => A.zipWith op.apply B

/-- The keyed matrix that an expression stands for. -/
def Expr.keyed (rowFn : BlockName → Key → Row α → Row α) : Expr α → KeyedMatrix α
  | checkpoint _ c => c.rows.matrix
  | foreign _ shape => .ofFn shape.nrow.toNat shape.ncol.toNat fun _ _ => 0
  | unary _ op a => op.onMatrix rowFn a.schema (a.keyed rowFn)
  | binary _ op a b => op.onMatrices b.schema (a.keyed rowFn) (b.keyed rowFn)

end Meaning

end RowAlgebra
