import Mathlib.Algebra.BigOperators.Fin
import RowAlgebra.Proofs.Exec.Rows
import RowAlgebra.Proofs.Keyed.Matrix
import RowAlgebra.Proofs.Plan.Meaning

/-!
# Keyed matrices that are matrices

Where keys are positions, a keyed matrix `A` is just a matrix `M`. We write `A.Reads M` if rows of `A`
may be missing where `M` is zero, and `A.Tabulates M` if no row is missing. There is a lemma for each
operator on keyed matrices: it computes the operator of matrix algebra. Sums over common keys become
sums over positions. An operator on single cells has to keep zeros for this, unless all rows are
there.
-/

namespace RowAlgebra

/-! ## Entries -/

namespace Mat

variable {R : Type}

theorem get_transpose [Zero R] (A : Mat R) (i j : ℕ) : A.transpose.get i j = A.get j i := by
  by_cases h : j < A.nrow ∧ i < A.ncol
  · rw [get_of_lt A h.1 h.2, get_of_lt A.transpose h.2 h.1]
    rfl
  · rw [get, get, dif_neg h, dif_neg fun h' => h ⟨h'.2, h'.1⟩]

theorem get_mul [NonUnitalNonAssocSemiring R] {A B : Mat R} (h : A.ncol = B.nrow) {i j : ℕ}
    (hi : i < A.nrow) (hj : j < B.ncol) :
    (A.mul B).get i j = ∑ k ∈ Finset.range A.ncol, A.get i k * B.get k j := by
  obtain ⟨m, n, A⟩ := A
  obtain ⟨n', p, B⟩ := B
  obtain rfl : n = n' := h
  rw [mul_mk, Finset.sum_range]
  refine (get_of_lt ⟨m, p, A * B⟩ hi hj).trans ((Matrix.mul_apply ..).trans ?_)
  refine Finset.sum_congr rfl fun k _ => ?_
  rw [get_of_lt ⟨m, n, A⟩ hi k.isLt, get_of_lt ⟨n, p, B⟩ k.isLt hj]

/-- A function on rows and their positions. -/
def mapRows [Zero R] [Cell R] (ncol : ℕ) (f : Key → Row R → Row R) (A : Mat R) : Mat R :=
  ⟨A.nrow, ncol, fun i j => (f (.int i) ((List.range A.ncol).map (A.get i))).getD j Cell.zero⟩

end Mat

/-! ## Matrices that are read -/

namespace KeyedMatrix

variable {α : Type}

/-- Whether the rows of a keyed matrix, at their positions, read as a matrix does, which is zero
where there is no row. -/
structure Reads [Zero α] [Cell α] (A : KeyedMatrix α) (M : Mat α) : Prop where
  within : A.Within M.nrow
  ncol : A.ncol = M.ncol
  read : ∀ i < M.nrow, ∀ j < M.ncol, A.read (.ofNat i) j = M.get i j

/-- Whether the rows of a keyed matrix, at their positions, are the rows of a matrix. -/
structure Tabulates [Zero α] (A : KeyedMatrix α) (M : Mat α) : Prop where
  indexed : A.Indexed M.nrow
  ncol : A.ncol = M.ncol
  cell : ∀ i < M.nrow, ∀ j < M.ncol, A.cell (.ofNat i) j = M.get i j

theorem tabulates_ofFn [Zero α] {M : Mat α} {f : ℕ → ℕ → α} {r c : ℕ} (hr : r = M.nrow)
    (hc : c = M.ncol) (hf : ∀ i < M.nrow, ∀ j < M.ncol, f i j = M.get i j) :
    (ofFn r c f).Tabulates M := by
  subst hr hc
  refine ⟨indexed_ofFn _ _ f, rfl, fun i hi j hj => ?_⟩
  change f (KeyValue.ofNat i).index j = _
  rw [KeyValue.index_ofNat, hf i hi j hj]

theorem Tabulates.reads [Zero α] [Cell α] {A : KeyedMatrix α} {M : Mat α} (hA : A.Tabulates M) :
    A.Reads M := by
  refine ⟨hA.indexed.within, hA.ncol, fun i hi j hj => ?_⟩
  rw [read_of_mem (hA.indexed.complete i hi), hA.cell i hi j hj]

theorem Reads.tabulates [Zero α] [Cell α] {A : KeyedMatrix α} {M : Mat α} (hA : A.Reads M)
    (hall : ∀ i < M.nrow, .ofNat i ∈ A.keys) : A.Tabulates M := by
  refine ⟨⟨hA.within, hall⟩, hA.ncol, fun i hi j hj => ?_⟩
  rw [← read_of_mem (hall i hi), hA.read i hi j hj]

/-! ### Operators that keep zeros -/

namespace Reads

variable [Field α] [Cell α] {A B : KeyedMatrix α} {M N : Mat α}

theorem transposed (hA : A.Reads M) : (A.transposed M.nrow).Tabulates M.transpose := by
  refine tabulates_ofFn hA.ncol rfl fun i hi j hj => ?_
  rw [M.get_transpose]
  exact hA.read j hj i hi

theorem rowRange (hA : A.Reads M) {start stop : Int} (hstart : 0 ≤ start)
    (hstop : stop ≤ M.nrow) : (A.rowRange start stop).Reads (M.rows start stop) := by
  refine ⟨within_atPositions fun i hi => ?_, hA.ncol, fun i hi j hj => ?_⟩
  · exact Finset.mem_range.1 (Finset.mem_filter.1 hi).1
  · have hi' : i < (stop - start).toNat := hi
    have hrow : start.toNat + i < M.nrow := by omega
    rw [rowRange_read hi', hA.read _ hrow j hj, Mat.get_of_lt (M.rows start stop) hi hj]
    rfl

variable [ExactCell α]

theorem map (hA : A.Reads M) {f : α → α} (hf : f 0 = 0) : (A.map f).Reads (M.map f) := by
  refine ⟨hA.within, hA.ncol, fun i hi j hj => ?_⟩
  have hread : (A.map f).read (.ofNat i) j = f (A.read (.ofNat i) j) := by
    by_cases hv : .ofNat i ∈ A.keys
    · rw [read_of_mem hv]
      exact if_pos hv
    · rw [read_of_notMem hv, ExactCell.zero_eq, hf]
      exact (if_neg hv).trans ExactCell.zero_eq
  rw [hread, hA.read i hi j hj, Mat.get_of_lt (M.map f) hi hj, Mat.get_of_lt M hi hj]
  rfl

theorem zipWith (hA : A.Reads M) (hB : B.Reads N) (hr : M.nrow = N.nrow) (hc : M.ncol = N.ncol)
    {f : α → α → α} (hf : f 0 0 = 0) : (A.zipWith f B).Reads (M.zipWith f N) := by
  refine ⟨fun v hv => ?_, hA.ncol, fun i hi j hj => ?_⟩
  · by_cases ha : v ∈ A.keys
    · obtain ⟨i, hi, hv, hkey⟩ := hA.within v ha
      exact ⟨i, hi, hv, (if_pos ha).trans hkey⟩
    · obtain ⟨i, hi, hv, hkey⟩ := hB.within v ((Finset.mem_union.1 hv).resolve_left ha)
      exact ⟨i, hr ▸ hi, hv, (if_neg ha).trans hkey⟩
  · have hread : (A.zipWith f B).read (.ofNat i) j =
        f (A.read (.ofNat i) j) (B.read (.ofNat i) j) := by
      by_cases hv : .ofNat i ∈ A.keys ∪ B.keys
      · exact if_pos hv
      · obtain ⟨ha, hb⟩ := not_or.1 (mt Finset.mem_union.2 hv)
        rw [read_of_notMem ha, read_of_notMem hb, ExactCell.zero_eq, hf]
        exact (if_neg hv).trans ExactCell.zero_eq
    rw [hread, hA.read i hi j hj, hB.read i (hr ▸ hi) j (hc ▸ hj),
      Mat.get_of_lt (M.zipWith f N) hi hj, Mat.get_of_lt M hi hj]
    rfl

/-- The common keys of two matrices can be left for all positions. -/
theorem sum_common (hA : A.Within M.nrow) (i j : ℕ) :
    ∑ v ∈ A.keys ∩ B.keys, A.cell v i * B.cell v j =
      ∑ k ∈ Finset.range M.nrow, A.read (.ofNat k) i * B.read (.ofNat k) j := by
  have hkeys : A.keys ∩ B.keys ⊆ (Finset.range M.nrow).image .ofNat := by
    intro v hv
    obtain ⟨k, hk, rfl, -⟩ := hA v (Finset.mem_inter.1 hv).1
    exact Finset.mem_image_of_mem _ (Finset.mem_range.2 hk)
  have hread : ∀ v ∈ A.keys ∩ B.keys, A.cell v i * B.cell v j = A.read v i * B.read v j := by
    intro v hv
    obtain ⟨ha, hb⟩ := Finset.mem_inter.1 hv
    rw [read_of_mem ha, read_of_mem hb]
  have hmissing : ∀ v ∈ (Finset.range M.nrow).image .ofNat, v ∉ A.keys ∩ B.keys →
      A.read v i * B.read v j = 0 := by
    intro v _ hv
    by_cases ha : v ∈ A.keys
    · have hb : v ∉ B.keys := fun hb => hv (Finset.mem_inter.2 ⟨ha, hb⟩)
      rw [read_of_notMem hb, ExactCell.zero_eq, mul_zero]
    · rw [read_of_notMem ha, ExactCell.zero_eq, zero_mul]
  rw [Finset.sum_congr rfl hread, Finset.sum_subset hkeys hmissing,
    Finset.sum_image KeyValue.ofNat_injective.injOn]

theorem transposedTimes (hA : A.Reads M) (hB : B.Reads N) (h : M.nrow = N.nrow) :
    (A.transposedTimes B).Tabulates (M.transpose.mul N) := by
  refine tabulates_ofFn hA.ncol hB.ncol fun i hi j hj => ?_
  rw [sum_common hA.within, Mat.get_mul (A := M.transpose) (B := N) h hi hj]
  refine Finset.sum_congr rfl fun k hk => ?_
  have hk : k < M.nrow := Finset.mem_range.1 hk
  rw [hA.read k hk i hi, hB.read k (h ▸ hk) j hj, M.get_transpose]

/-- A row and the columns of the right factor are multiplied cell by cell. -/
theorem product (hA : A.Reads M) {P : Mat α} (h : M.ncol = P.nrow) {ncol : ℕ}
    (hc : ncol = P.ncol) {g : ℕ → ℕ → α}
    (hg : ∀ k < P.nrow, ∀ j < P.ncol, g j k = P.get k j) :
    (A.withCells ncol fun v j => ∑ k ∈ Finset.range A.ncol, A.cell v k * g j k).Reads
      (M.mul P) := by
  refine ⟨hA.within, hc, fun i hi j hj => ?_⟩
  have hread : (A.withCells ncol fun v j => ∑ k ∈ Finset.range A.ncol, A.cell v k * g j k).read
      (.ofNat i) j = ∑ k ∈ Finset.range A.ncol, A.read (.ofNat i) k * g j k := by
    by_cases hv : .ofNat i ∈ A.keys
    · simp only [read_of_mem hv]
      exact if_pos hv
    · simp only [read_of_notMem hv, ExactCell.zero_eq, zero_mul, Finset.sum_const_zero]
      exact (if_neg hv).trans ExactCell.zero_eq
  rw [hread, hA.ncol, Mat.get_mul h hi hj]
  refine Finset.sum_congr rfl fun k hk => ?_
  have hk : k < M.ncol := Finset.mem_range.1 hk
  rw [hA.read i hi k hk, hg k (h ▸ hk) j hj]

theorem timesTransposed (hA : A.Reads M) (hB : B.Reads N) (h : M.ncol = N.ncol) :
    (A.timesTransposed N.nrow B).Reads (M.mul N.transpose) := by
  refine hA.product (P := N.transpose) h rfl fun k hk j hj => ?_
  rw [N.get_transpose]
  exact hB.read j hj k hk

theorem times (hA : A.Reads M) (hB : B.Reads N) (h : M.ncol = N.nrow) :
    (A.times B).Reads (M.mul N) :=
  hA.product h hB.ncol fun k hk j hj => hB.read k hk j hj

end Reads

/-! ### Operators on all rows -/

namespace Tabulates

variable [Field α] {A B : KeyedMatrix α} {M N : Mat α}

theorem withCells (hA : A.Tabulates M) {P : Mat α} (hr : P.nrow = M.nrow) {ncol : ℕ}
    (hc : ncol = P.ncol) {f : KeyValue → ℕ → α}
    (hf : ∀ i < M.nrow, ∀ j < P.ncol, f (.ofNat i) j = P.get i j) :
    (A.withCells ncol f).Tabulates P := by
  refine ⟨?_, hc, ?_⟩
  · rw [hr]
    exact hA.indexed.withCells ncol f
  · rw [hr]
    exact hf

theorem row (hA : A.Tabulates M) {i : ℕ} (hi : i < M.nrow) :
    A.row (.ofNat i) = (List.range M.ncol).map (M.get i) := by
  rw [KeyedMatrix.row, hA.ncol]
  exact List.map_congr_left fun j hj => hA.cell i hi j (List.mem_range.1 hj)

theorem key (hA : A.Tabulates M) {i : ℕ} (hi : i < M.nrow) : A.key (.ofNat i) = .int i := by
  obtain ⟨k, -, hk, hkey⟩ := hA.indexed.within _ (hA.indexed.complete i hi)
  rw [hkey, KeyValue.ofNat_injective hk]

theorem map (hA : A.Tabulates M) (f : α → α) : (A.map f).Tabulates (M.map f) := by
  refine hA.withCells (P := M.map f) rfl hA.ncol fun i hi j hj => ?_
  rw [hA.cell i hi j hj, Mat.get_of_lt (M.map f) hi hj, Mat.get_of_lt M hi hj]
  rfl

/-- The rows of a tabulated matrix are told by their positions. -/
theorem mapRows [Cell α] (hA : A.Tabulates M) (ncol : ℕ) (f : Key → Row α → Row α) :
    (A.mapRows ncol f).Tabulates (M.mapRows ncol f) := by
  refine hA.withCells (P := M.mapRows ncol f) rfl rfl fun i hi j hj => ?_
  rw [hA.key hi, hA.row hi, Mat.get_of_lt (M.mapRows ncol f) hi hj]
  rfl

theorem zipWith [Cell α] (hA : A.Tabulates M) (hB : B.Tabulates N) (hr : M.nrow = N.nrow)
    (hc : M.ncol = N.ncol) (f : α → α → α) : (A.zipWith f B).Tabulates (M.zipWith f N) := by
  refine ⟨hA.indexed.zipWith (hr ▸ hB.indexed) f, hA.ncol, fun i hi j hj => ?_⟩
  change f (A.read _ j) (B.read _ j) = _
  rw [hA.reads.read i hi j hj, hB.reads.read i (hr ▸ hi) j (hc ▸ hj),
    Mat.get_of_lt (M.zipWith f N) hi hj, Mat.get_of_lt M hi hj]
  rfl

theorem transposed [Cell α] (hA : A.Tabulates M) : (A.transposed M.nrow).Tabulates M.transpose :=
  hA.reads.transposed

theorem rowRange [Cell α] (hA : A.Tabulates M) {start stop : Int} (hstart : 0 ≤ start)
    (hstop : stop ≤ M.nrow) : (A.rowRange start stop).Tabulates (M.rows start stop) :=
  (hA.reads.rowRange hstart hstop).tabulates (hA.indexed.rowRange hstart hstop).complete

variable [Cell α] [ExactCell α]

theorem transposedTimes (hA : A.Tabulates M) (hB : B.Tabulates N) (h : M.nrow = N.nrow) :
    (A.transposedTimes B).Tabulates (M.transpose.mul N) :=
  hA.reads.transposedTimes hB.reads h

theorem timesTransposed (hA : A.Tabulates M) (hB : B.Tabulates N) (h : M.ncol = N.ncol) :
    (A.timesTransposed N.nrow B).Tabulates (M.mul N.transpose) :=
  (hA.reads.timesTransposed hB.reads h).tabulates hA.indexed.complete

theorem times (hA : A.Tabulates M) (hB : B.Tabulates N) (h : M.ncol = N.nrow) :
    (A.times B).Tabulates (M.mul N) :=
  (hA.reads.times hB.reads h).tabulates hA.indexed.complete

end Tabulates

end KeyedMatrix

/-! ## In-core matrices -/

def Dense.mat {α : Type} (m : Dense α) : Mat α :=
  ⟨m.nrow, m.ncol, fun i j => (m.cells.get i).get j⟩

def Mat.toDense {α : Type} (M : Mat α) : Dense α :=
  .ofFn M.entry

theorem Mat.mat_toDense {α : Type} (M : Mat α) : M.toDense.mat = M := by
  obtain ⟨r, c, M⟩ := M
  refine congrArg (Mat.mk r c) ?_
  ext i j
  exact Dense.cells_ofFn M i j

theorem Dense.tabulates {α : Type} [Cell α] [Zero α] (m : Dense α) : m.matrix.Tabulates m.mat := by
  refine KeyedMatrix.tabulates_ofFn rfl rfl fun i hi j hj => ?_
  have hi' : i < m.nrow := hi
  have hj' : j < m.ncol := hj
  rw [Mat.get_of_lt m.mat hi hj]
  change _ = m.cells[i][j]
  simp [Dense.rows, hi', hj']

end RowAlgebra
