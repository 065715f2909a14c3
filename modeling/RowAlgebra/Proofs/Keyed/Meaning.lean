import RowAlgebra.Proofs.Keyed.Execution
import RowAlgebra.Proofs.Keyed.Tabulated

/-!
# Execution computes matrices

Where all keys are positions, plans can be understood without keys. `Interpretation.ofRows` gives an
expression the matrix that it stands for over the field of its cells, where a leaf stands for the
matrix of its rows. A handle `Represents` a matrix under a schema if it holds its rows at their
positions and the schema tells its shape. Whatever a plan over such leaves comes to represents the
matrix that the plan stands for (`Expr.exec_represents`). Unlike in `Expr.exec_computes`, sides need
not be told here: an operator that cannot count a side fails.
-/

namespace RowAlgebra

variable {α : Type}

/-! ## The meaning of expressions over their cells -/

section Cells

variable [Cell α]

/-- Scalars that compare equal stand for one cell. -/
class LawfulScalars (α : Type) [Cell α] : Prop where
  ofScalar_eq {s t : Scalar} (h : s.same t = true) :
    (Cell.ofScalar s : Except Error α) = Cell.ofScalar t

instance : LawfulScalars ℚ where
  ofScalar_eq {s t} h := by
    change (match s.rational? with
      | some q => Except.ok q
      | none => Except.error (Error.fault .type)) = _
    rw [Scalar.rational?_of_same h]
    rfl

/-- The matrix of the rows of a checkpoint, in its shape. -/
def Checkpoint.mat (c : Checkpoint α) : Mat α :=
  ⟨c.nrow.toNat, c.ncol.toNat, fun i j => c.rows.matrix.cell (.ofNat i) j⟩

/-- Leaves stand for their rows, and block functions do to single rows what `rowFn` says. -/
def Interpretation.ofRows [Field α] [ExactCell α] [LawfulScalars α]
    (rowFn : BlockName → Key → Row α → Row α) : Interpretation α α where
  leaf _ c := c.mat.entry
  foreign _ := 0
  cell x := x
  scalar := Scalar.cell
  cellOp := CellOp.apply
  scalarOp := ScalarOp.apply
  block fn ncol _ A := (A.mapRows ncol.toNat (rowFn fn)).entry
  cell_eq h := (ExactCell.same_iff _ _).1 h
  scalar_eq h := by rw [Scalar.cell, Scalar.cell, LawfulScalars.ofScalar_eq h]

/-- What an operator on an input with the schema `s` has to come with: scalars that are cells, and
block functions that leave the keys alone and work row by row. -/
def UnaryOp.ActsOnRows (blocks : BlockCatalogue α) (rowFn : BlockName → Key → Row α → Row α)
    (s : Schema) : UnaryOp α → Prop
  | scalar _ x => x.isReal = true ∧ ∃ y : α, Cell.ofScalar x = .ok y
  | mapBlock fn ncol _ => 0 ≤ ncol ∧ (blocks fn).RowWise (rowFn fn) s.ncol.toNat ncol.toNat
  | _ => True

theorem UnaryOp.ActsOnRows.congr {blocks : BlockCatalogue α}
    {rowFn : BlockName → Key → Row α → Row α} {s t : Schema} {op : UnaryOp α}
    (h : op.ActsOnRows blocks rowFn s) (hst : t.ncol.toNat = s.ncol.toNat) :
    op.ActsOnRows blocks rowFn t := by
  cases op with
  | mapBlock fn ncol keepsKeys => exact ⟨h.1, hst ▸ h.2⟩
  | _ => exact h

end Cells

/-! ## Schemas and handles of matrices -/

/-- A schema that tells the shape of a matrix with positions for keys. -/
structure Schema.Fits {R : Type} (s : Schema) (M : Mat R) : Prop where
  nrow : s.nrow = M.nrow
  ncol : s.ncol = M.ncol
  keyType : s.keyType.isInt = true

theorem Schema.Fits.rows_eq {R : Type} {s : Schema} {M : Mat R} (hs : s.Fits M) {n : Int}
    (h : s.rows = .ofLength n) : n = M.nrow := by
  rw [← hs.nrow, Schema.nrow, h]
  rfl

theorem Schema.Fits.columns_eq {R : Type} {s : Schema} {M : Mat R} (hs : s.Fits M) {n : Int}
    (h : s.columns = .ofLength n) : n = M.ncol := by
  rw [← hs.ncol, Schema.ncol, h]
  rfl

section Shapes

variable [Cell α] {R : Type} [CommRing R] {I : Interpretation α R} {blocks : BlockCatalogue α}
  {rowFn : BlockName → Key → Row α → Row α}

theorem Schema.Fits.unary {op : UnaryOp α} {s : Schema} {M : Mat R} (hs : s.Fits M)
    (hadm : op.admits s = .ok ()) (hop : op.ActsOnRows blocks rowFn s) :
    (op.schema s).Fits (I.unary M op) := by
  cases op with
  | transpose | transposeAnyKey => exact ⟨hs.ncol, hs.nrow, rfl⟩
  | selfGramian => exact ⟨hs.ncol, hs.ncol, rfl⟩
  | scalar op x => exact ⟨hs.nrow, hs.ncol, hs.keyType⟩
  | rowRange start stop =>
    obtain ⟨hkeys, -, hle, -⟩ := UnaryOp.admits_rowRange_iff.1 hadm
    have hlength : stop - start = ((stop - start).toNat : Int) := by omega
    exact ⟨hlength, hs.ncol, hkeys⟩
  | leftMultiply m => exact ⟨rfl, hs.ncol, rfl⟩
  | rightMultiply m => exact ⟨hs.nrow, rfl, hs.keyType⟩
  | mapBlock fn ncol keepsKeys =>
    exact ⟨hs.nrow, (Int.toNat_of_nonneg hop.1).symm, hs.keyType⟩

theorem Schema.Fits.binary {op : BinaryOp} {l r : Schema} {M N : Mat R} (hl : l.Fits M)
    (hr : r.Fits N) : (op.schema l r).Fits (I.binary M N op) := by
  cases op with
  | matMul => exact ⟨hl.nrow, hr.ncol, hl.keyType⟩
  | matMulTransA => exact ⟨hl.ncol, hr.ncol, rfl⟩
  | matMulTransB => exact ⟨hl.nrow, hr.nrow, hl.keyType⟩
  | elementwise op => exact ⟨hl.nrow, hl.ncol, hl.keyType⟩

end Shapes

/-- Gathering a handle gives the matrix that its rows read as. -/
theorem Handle.Holds.collect_reads [Cell α] [Field α] [ExactCell α] {h : Handle α}
    {A : KeyedMatrix α} {M : Mat α} (hh : h.Holds A) (hA : A.Reads M)
    (htype : h.collection.keyType.isInt = true) : h.collect (some M.nrow) = .ok M.toDense := by
  have hgrid : gridOf M.nrow M.ncol (fun i j => A.read (.ofNat i) j) = M.toDense.cells := by
    ext i hi j hj
    simpa [gridOf, Mat.toDense, Dense.ofFn, Mat.get_of_lt M hi hj] using hA.read i hi j hj
  rw [hh.collect_eq hA.within htype, hA.ncol, hgrid]
  rfl

/-- A handle of a matrix with the schema `s`. -/
structure Handle.Represents [Zero α] (h : Handle α) (s : Schema) (M : Mat α) : Prop where
  tabulated : ∃ A : KeyedMatrix α, h.Holds A ∧ A.Tabulates M
  keyType : h.collection.keyType.isInt = true
  fits : s.Fits M

namespace Handle.Represents

section

variable [Zero α] {h : Handle α} {s : Schema} {M : Mat α} (hh : h.Represents s M)

include hh

theorem ncol : h.ncol = s.ncol := by
  obtain ⟨A, hA, ht⟩ := hh.tabulated
  rw [hA.ncol, ht.ncol, hh.fits.ncol]

theorem nrow_toNat : s.nrow.toNat = M.nrow := by
  rw [hh.fits.nrow, Int.toNat_natCast]

theorem ncol_toNat : s.ncol.toNat = M.ncol := by
  rw [hh.fits.ncol, Int.toNat_natCast]

end

/-- A checkpoint of a matrix has the rows of its handle. -/
theorem rows_eq [Zero α] {c : Checkpoint α} {M : Mat α} (h : c.handle.Represents c.schema M) :
    c.rows = c.handle := by
  have hncol : c.handle.ncol = c.ncol := h.ncol
  rw [Checkpoint.rows, ← hncol]

variable [Cell α] [Field α]

/-- Gathering the rows of a handle gives its matrix. -/
theorem collect_eq [ExactCell α] {h : Handle α} {s : Schema} {M : Mat α} (hh : h.Represents s M) :
    h.collect (some s.nrow) = .ok M.toDense := by
  obtain ⟨A, hA, ht⟩ := hh.tabulated
  rw [hh.fits.nrow]
  exact hA.collect_reads ht.reads hh.keyType

theorem mat_eq {c : Checkpoint α} {M : Mat α} (h : c.handle.Represents c.schema M) :
    c.mat = M := by
  obtain ⟨A, hA, ht⟩ := h.tabulated
  have hr : c.mat.nrow = M.nrow := h.nrow_toNat
  have hc : c.mat.ncol = M.ncol := h.ncol_toNat
  refine Mat.ext_get hr hc fun i j hi hj => ?_
  have hi' : i < M.nrow := hr ▸ hi
  have hj' : j < M.ncol := hc ▸ hj
  rw [Mat.get_of_lt _ hi hj]
  change c.rows.matrix.cell (.ofNat i) j = _
  rw [h.rows_eq, hA.cell_matrix (ht.indexed.complete i hi') (ht.ncol ▸ hj'), ht.cell i hi' j hj']

end Handle.Represents

/-! ## Single operators -/

section Operators

variable [Cell α] [Field α] [ExactCell α] [LawfulScalars α] {blocks : BlockCatalogue α}
  {rowFn : BlockName → Key → Row α → Row α}

theorem UnaryOp.kernel_represents {call : ℕ} {s : Schema} {op : UnaryOp α}
    {kernel : Kernel α (Handle α)} (hk : op.kernel? blocks call (op.schema s) = some kernel)
    (hadm : op.admits s = .ok ()) (hop : op.ActsOnRows blocks rowFn s) {h : Handle α} {M : Mat α}
    (hh : h.Represents s M) :
    Ensures (kernel.run h) fun r =>
      r.Represents (op.schema s) ((Interpretation.ofRows rowFn).unary M op) := by
  obtain ⟨A, hholds, hA⟩ := hh.tabulated
  have hfits : (op.schema s).Fits ((Interpretation.ofRows rowFn).unary M op) :=
    hh.fits.unary hadm hop
  have represents {x : Except Error (Handle α)} {B : KeyedMatrix α} {t : KeyType}
      (hx : Makes x B t) (hB : B.Tabulates ((Interpretation.ofRows rowFn).unary M op))
      (ht : t.isInt = true) : Ensures x fun r => r.Represents (op.schema s) _ :=
    (hx.imp fun r hr => ⟨⟨B, hr.1, hB⟩, hr.2 ▸ ht, hfits⟩).mapBad fun _ => False.elim
  cases op <;> cases hk
  case transpose =>
    refine s.rows.count_ensures.bind fun n hn => ?_
    obtain rfl : n = M.nrow := hn.trans hh.fits.nrow
    have hmake := Handle.transposed_makes hholds hA.indexed.within hh.keyType
    exact represents hmake hA.transposed rfl
  case selfGramian =>
    refine (Schema.shape_ensures _).bind fun shape hshape => ?_
    obtain rfl : shape = ⟨A.ncol, A.ncol⟩ := by
      rw [hshape, hA.ncol, ← hh.fits.ncol]
      rfl
    exact represents (Handle.gramian_makes hholds) (hA.transposedTimes hA rfl) rfl
  case scalar op x =>
    obtain ⟨hreal, y, hy⟩ := hop
    exact represents (Handle.withScalar_makes op hreal hy hholds) (hA.map _) hh.keyType
  case rowRange start stop =>
    obtain ⟨-, hstart, -, n, hn, hstop⟩ := admits_rowRange_iff.1 hadm
    rw [hh.fits.rows_eq hn] at hstop
    have hselect := Handle.rowRange_holds hholds hA.indexed.within hstart stop call
    exact Ends.ok ⟨⟨_, hselect, hA.rowRange hstart hstop⟩, hh.keyType, hfits⟩
  case rightMultiply m =>
    have hfit : M.ncol = m.nrow :=
      (Int.ofNat.inj (hh.fits.columns_eq (admits_rightMultiply_iff.1 hadm))).symm
    have hmake := Handle.timesDense_makes hholds (hA.ncol.trans hfit)
    exact represents hmake (hA.times m.tabulates hfit) hh.keyType
  case mapBlock fn ncol keepsKeys =>
    have hn : A.ncol = s.ncol.toNat := hA.ncol.trans hh.ncol_toNat.symm
    have hncol : ncol = ncol.toNat := (Int.toNat_of_nonneg hop.1).symm
    exact represents (Handle.mapBlock_makes hop.2 hholds hn hncol call)
      (hA.mapRows ncol.toNat (rowFn fn)) hh.keyType

/-- A product is zipped only where the partition keys are found to be equal. -/
theorem BinaryOp.kernel_represents {l r : Schema} {op : BinaryOp}
    {kernel : Kernel α (Handle α × Handle α)}
    (hk : op.kernel? (op.schema l r) l.tag r.tag = some kernel) (hadm : op.admits l r = .ok ())
    {g h : Handle α} {M N : Mat α} (hg : g.Represents l M) (hh : h.Represents r N) :
    Ensures (kernel.run (g, h)) fun x =>
      x.Represents (op.schema l r) ((Interpretation.ofRows rowFn).binary M N op) := by
  obtain ⟨A, hleft, hA⟩ := hg.tabulated
  obtain ⟨B, hright, hB⟩ := hh.tabulated
  have hfits : (op.schema l r).Fits ((Interpretation.ofRows rowFn).binary M N op) :=
    hg.fits.binary hh.fits
  have represents {x : Except Error (Handle α)} {C : KeyedMatrix α} {t : KeyType}
      (hx : Makes x C t) (hC : C.Tabulates ((Interpretation.ofRows rowFn).binary M N op))
      (ht : t.isInt = true) : Ensures x fun r' => r'.Represents (op.schema l r) _ :=
    (hx.imp fun r hr => ⟨⟨C, hr.1, hC⟩, hr.2 ▸ ht, hfits⟩).mapBad fun _ => False.elim
  cases op <;> cases hk
  case matMulTransA =>
    obtain ⟨n, hl, hr⟩ := admits_matMulTransA_iff.1 hadm
    have hfit : M.nrow = N.nrow :=
      Int.ofNat.inj ((hg.fits.rows_eq hl).symm.trans (hh.fits.rows_eq hr))
    refine (Schema.shape_ensures _).bind fun shape hshape => ?_
    obtain rfl : shape = ⟨A.ncol, B.ncol⟩ := by
      rw [hshape, hA.ncol, hB.ncol, ← hg.fits.ncol, ← hh.fits.ncol]
      rfl
    have hproduct := hA.transposedTimes hB hfit
    change Ensures (g.transposedTimes h ⟨A.ncol, B.ncol⟩ (Tag.evident l.tag r.tag)) _
    cases Tag.evident l.tag r.tag with
    | false => exact represents (Handle.transposedTimes_joined hleft hright) hproduct rfl
    | true =>
      by_cases hsame : g.collection.samePartitionKeys h.collection = true
      · exact represents (Handle.transposedTimes_zipped hleft hright hsame) hproduct rfl
      · exact Handle.transposedTimes_refused hsame _ _
  case matMulTransB =>
    obtain ⟨⟨n, hl, hr⟩, -⟩ := admits_matMulTransB_iff.1 hadm
    have hfit : M.ncol = N.ncol :=
      Int.ofNat.inj ((hg.fits.columns_eq hl).symm.trans (hh.fits.columns_eq hr))
    refine r.rows.count_ensures.bind fun n hn => ?_
    obtain rfl : n = N.nrow := hn.trans hh.fits.nrow
    have hmake := Handle.timesTransposed_makes hleft hright hB.indexed.within hh.keyType
      (hA.ncol.trans (hfit.trans hB.ncol.symm))
    exact represents hmake (hA.timesTransposed hB hfit) hg.keyType
  case elementwise op =>
    obtain ⟨⟨shape, hl, hr⟩, -⟩ := admits_elementwise_iff.1 hadm
    obtain ⟨hlrows, hlcolumns⟩ := Schema.shape_eq_ok_iff.1 hl
    obtain ⟨hrrows, hrcolumns⟩ := Schema.shape_eq_ok_iff.1 hr
    have hrow : M.nrow = N.nrow :=
      Int.ofNat.inj ((hg.fits.rows_eq hlrows).symm.trans (hh.fits.rows_eq hrrows))
    have hcol : M.ncol = N.ncol :=
      Int.ofNat.inj ((hg.fits.columns_eq hlcolumns).symm.trans (hh.fits.columns_eq hrcolumns))
    refine l.columns.count_ensures.bind fun n hn => ?_
    obtain rfl : n = A.ncol := by
      rw [hn, hA.ncol, ← hg.fits.ncol]
      rfl
    have hmake := Handle.combine_makes op hleft hright (hA.ncol.trans (hcol.trans hB.ncol.symm))
      (Handle.sides_ok 1 A.ncol)
    exact represents hmake (hA.zipWith hB hrow hcol op.apply) hg.keyType

/-! ## Whole plans -/

/-- An expression over checkpoints of matrices, whose operators act on rows. -/
structure Expr.Tabular (blocks : BlockCatalogue α) (rowFn : BlockName → Key → Row α → Row α)
    (e : Expr α) : Prop where
  leaves : ∀ i c, checkpoint i c ∈ e.walk → c.handle.Represents c.schema c.mat
  operators : ∀ i op a, unary i op a ∈ e.walk → op.ActsOnRows blocks rowFn a.schema

/-- **Execution computes matrices**: what a plan comes to represents the matrix that the plan stands
for. -/
theorem Expr.exec_represents {e : Expr α} (he : e.Tabular blocks rowFn)
    (hadm : ∀ x ∈ e.walk, x.Admitted) (call : ℕ) :
    Ensures (e.exec blocks call).result fun h =>
      h.Represents e.schema ((Interpretation.ofRows rowFn).meaning e) := by
  have hkeeps : Keeps blocks (fun e h => h.Represents e.schema
      ((Interpretation.ofRows rowFn).meaning e)) (fun _ => True) e.walk := by
    refine ⟨fun _ _ _ => trivial, fun i c hc => ?_, ?_, ?_⟩
    · have hleaf := he.leaves i c hc
      rw [hleaf.rows_eq]
      exact hleaf
    · intro i op a hmem call kernel hk h hh
      exact UnaryOp.kernel_represents hk (hadm _ hmem) (he.operators i op a hmem) hh
    · intro i op a b hmem kernel hk g h hg hh
      exact BinaryOp.kernel_represents hk (hadm _ hmem) hg hh
  exact exec_ends hkeeps call

end Operators

end RowAlgebra
