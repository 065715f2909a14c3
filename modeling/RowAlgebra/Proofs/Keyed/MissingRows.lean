import RowAlgebra.Proofs.Exec.Repartition
import RowAlgebra.Proofs.Keyed.Meaning

/-!
# Missing rows

A distributed matrix need not have a row at every position: whoever gathers it reads zeros where
there is none. A handle is `Sparse` if its keys are different positions, and it is gathered into the
matrix that its rows read as (`Handle.Sparse.collect_eq`). Operators that keep zeros may be applied
before or after gathering (`Handle.collect_of_sparse`). Scalars that shift cells may not: they leave
missing rows alone (`Handle.scalar_skips_missing_rows`).
-/

namespace RowAlgebra

variable {α : Type}

namespace Handle

/-! ## Handles with missing rows -/

/-- An integer-keyed handle whose keys are different positions below `n`. Rows may be missing, and
they may lie in any order and in any partition. -/
structure Sparse (h : Handle α) (n : ℕ) : Prop where
  ncol : 0 ≤ h.ncol
  keyType : h.collection.keyType.isInt = true
  positions : ∀ k ∈ h.collection.keys, ∃ i : ℕ, i < n ∧ k = .int i
  distinct : h.collection.keys.Nodup
  width : ∀ entry ∈ h.collection.rows, ∃ row, entry.2 = .plain row ∧ row.length = h.ncol

/-- The same rows, with an empty partition at the end. -/
def padded (h : Handle α) : Handle α :=
  ⟨⟨h.collection.partitions ++ [[]], h.collection.keyType⟩, h.ncol⟩

theorem padded_sameRows (h : Handle α) : h.SameRows h.padded :=
  ⟨by simp [padded, Collection.rows], rfl, rfl⟩

variable [Cell α] {a b g h : Handle α} {m n : ℕ}

theorem matrix_congr (hsame : g.SameRows h) : g.matrix = h.matrix := by
  simp only [matrix, rowAt?, Collection.keys, hsame.rows, hsame.ncol]

/-- The matrix that the rows of a handle read as, with `n` rows. -/
def mat (h : Handle α) (n : ℕ) : Mat α :=
  ⟨n, h.ncol.toNat, fun i j => h.matrix.read (.ofNat i) j⟩

namespace Sparse

omit [Cell α] in
theorem congr (hg : g.Sparse n) (hsame : g.SameRows h) : h.Sparse n := by
  obtain ⟨hncol, hkeys, hpositions, hdistinct, hwidth⟩ := hg
  rw [Collection.keys, hsame.rows] at hpositions hdistinct
  rw [hsame.rows, hsame.ncol] at hwidth
  exact ⟨hsame.ncol ▸ hncol, hsame.keyType ▸ hkeys, hpositions, hdistinct, hwidth⟩

omit [Cell α] in
theorem wellFormed (hh : h.Sparse n) (hp : h.collection.partitions ≠ []) : h.WellFormed := by
  refine ⟨hh.ncol, hp, fun k hk => ?_, hh.distinct.map_on fun k hk l hl hkl => ?_, hh.width⟩
  · obtain ⟨i, -, rfl⟩ := hh.positions k hk
    rfl
  · obtain ⟨i, -, rfl⟩ := hh.positions k hk
    obtain ⟨j, -, rfl⟩ := hh.positions l hl
    have hij : KeyValue.ofNat i = .ofNat j := Option.some.inj hkl
    rw [KeyValue.ofNat_injective hij]

variable (hh : h.Sparse n)

include hh

/-- An empty partition at the end makes sure that there is a partition. -/
theorem padded_holds : h.padded.Holds h.matrix := by
  rw [matrix_congr h.padded_sameRows]
  exact ((hh.congr h.padded_sameRows).wellFormed (by simp [padded])).holds_matrix

theorem within : h.matrix.Within n := by
  rw [matrix_congr h.padded_sameRows]
  have hpadded := hh.congr h.padded_sameRows
  exact (hpadded.wellFormed (by simp [padded])).within hpadded.positions

theorem ncol_eq : h.ncol = h.matrix.ncol :=
  (Int.toNat_of_nonneg hh.ncol).symm

theorem reads [Zero α] : h.matrix.Reads (h.mat n) :=
  ⟨hh.within, rfl, fun _ hi _ hj => (Mat.get_of_lt (h.mat n) hi hj).symm⟩

end Sparse

omit [Cell α] in
theorem hasKey_congr (hsame : g.SameRows h) (k : Key) :
    g.collection.hasKey k = h.collection.hasKey k := by
  rw [Collection.hasKey, Collection.hasKey, Collection.keys, Collection.keys, hsame.rows]

/-- There is a row at a position if the matrix that is read has one there. -/
theorem Sparse.hasKey_iff (hh : h.Sparse n) (i : ℕ) :
    h.collection.hasKey (.int i) = true ↔ .ofNat i ∈ h.matrix.keys := by
  rw [hasKey_congr h.padded_sameRows, ← Collection.isSome_find?_eq_hasKey,
    hh.padded_holds.find?_eq (Key.value?_ofNat i)]
  split <;> simp_all

/-- What has the rows of a handle is gathered like that one. -/
theorem collect_together {x y : Except Error (Handle α)} (hxy : Together x y SameRows)
    {made : Handle α} (hy : y = .ok made) (nrow : Option Int) :
    (do (← x).collect nrow) = made.collect nrow := by
  obtain ⟨found, hfound, hsame⟩ := hxy.symm.exists_ok hy
  rw [hfound]
  exact Handle.collect_eq hsame nrow

/-! ## Operators that keep zeros -/

section Exact

variable [Field α] [ExactCell α]

theorem Sparse.collect_eq (hh : h.Sparse n) : h.collect (some n) = .ok (h.mat n).toDense := by
  rw [Handle.collect_eq h.padded_sameRows]
  exact hh.padded_holds.collect_reads hh.reads hh.keyType

theorem collect_of_makes {x y : Except Error (Handle α)} (hxy : Together x y SameRows)
    {A : KeyedMatrix α} {t : KeyType} (hy : Makes y A t) (ht : t.isInt = true) {M : Mat α}
    (hA : A.Reads M) {n : Int} (hn : n = M.nrow) :
    (do (← x).collect (some n)) = .ok M.toDense := by
  obtain ⟨made, hmade, hholds, hkeys⟩ := hy.exists_ok
  rw [collect_together hxy hmade, hn]
  exact hholds.collect_reads hA (hkeys ▸ ht)

namespace Sparse

variable (ha : a.Sparse m) (hb : b.Sparse n)

include ha

theorem collect_transposed :
    (do (← a.transposed m).collect (some a.ncol)) = .ok (a.mat m).transpose.toDense :=
  collect_of_makes (transposed_together a.padded_sameRows m)
    (transposed_makes ha.padded_holds ha.within ha.keyType) rfl ha.reads.transposed.reads
    ha.ncol_eq

theorem collect_gramian :
    (do (← a.gramian ⟨a.ncol, a.ncol⟩).collect (some a.ncol)) =
      .ok ((a.mat m).transpose.mul (a.mat m)).toDense := by
  rw [ha.ncol_eq]
  exact collect_of_makes (gramian_together a.padded_sameRows _) (gramian_makes ha.padded_holds) rfl
    (ha.reads.transposedTimes ha.reads rfl).reads rfl

theorem collect_timesDense {x : Dense α} (hfit : a.ncol = x.nrow) :
    (do (← a.timesDense x).collect (some m)) = .ok ((a.mat m).mul x.mat).toDense := by
  have hfit' : a.matrix.ncol = x.nrow := Int.ofNat.inj (ha.ncol_eq.symm.trans hfit)
  exact collect_of_makes (timesDense_together a.padded_sameRows x)
    (timesDense_makes ha.padded_holds hfit') ha.keyType
    (ha.reads.times x.tabulates.reads hfit') rfl

theorem collect_withScalar {op : ScalarOp} {s : Scalar} (hs : s.isReal = true) {y : α}
    (hy : Cell.ofScalar s = .ok y) {f : α → α} (hop : ∀ x, op.apply x y = f x) (hf : f 0 = 0) :
    (do (← a.withScalar op s).collect (some m)) = .ok ((a.mat m).map f).toDense := by
  have hmake := withScalar_makes op hs hy ha.padded_holds
  rw [Scalar.cell_eq hy, funext hop] at hmake
  exact collect_of_makes (withScalar_together a.padded_sameRows op s) hmake ha.keyType
    (ha.reads.map hf) rfl

theorem collect_rowRange {start stop : Int} (hstart : 0 ≤ start) (hle : start ≤ stop)
    (hstop : stop ≤ m) (call : ℕ) :
    (a.rowRange start stop call).collect (some (stop - start)) =
      .ok ((a.mat m).rows start stop).toDense := by
  rw [Handle.collect_eq (rowRange_sameRows a.padded_sameRows start stop call),
    show stop - start = ((stop - start).toNat : Int) by omega]
  exact (rowRange_holds ha.padded_holds ha.within hstart stop call).collect_reads
    (ha.reads.rowRange hstart hstop) ha.keyType

include hb

theorem collect_timesTransposed (hfit : a.ncol = b.ncol) :
    (do (← a.timesTransposed b n).collect (some m)) =
      .ok ((a.mat m).mul (b.mat n).transpose).toDense := by
  have hfit' : a.matrix.ncol = b.matrix.ncol := congrArg Int.toNat hfit
  exact collect_of_makes (timesTransposed_together a.padded_sameRows b.padded_sameRows n)
    (timesTransposed_makes ha.padded_holds hb.padded_holds hb.within hb.keyType hfit') ha.keyType
    (ha.reads.timesTransposed hb.reads hfit') rfl

theorem collect_transposedTimes (hfit : m = n) :
    (do (← a.transposedTimes b ⟨a.ncol, b.ncol⟩ false).collect (some a.ncol)) =
      .ok ((a.mat m).transpose.mul (b.mat n)).toDense := by
  rw [ha.ncol_eq, hb.ncol_eq]
  exact collect_of_makes
    (transposedTimes_together a.padded_sameRows b.padded_sameRows _ false nofun)
    (transposedTimes_joined ha.padded_holds hb.padded_holds) rfl
    (ha.reads.transposedTimes hb.reads hfit).reads rfl

theorem collect_combine {op : CellOp} {f : α → α → α} (hop : ∀ x y, op.apply x y = f x y)
    (hf : f 0 0 = 0) (hrows : m = n) (hfit : a.ncol = b.ncol)
    (hp : b.collection.rows ≠ [] → a.collection.partitions ≠ []) :
    (do (← a.combine op b a.ncol).collect (some m)) =
      .ok ((a.mat m).zipWith f (b.mat n)).toDense := by
  have hfit' : a.matrix.ncol = b.matrix.ncol := congrArg Int.toNat hfit
  have hmake := combine_makes op ha.padded_holds hb.padded_holds hfit' (sides_ok 1 _)
  rw [← ha.ncol_eq, funext₂ hop] at hmake
  exact collect_of_makes
    (combine_together a.padded_sameRows b.padded_sameRows hp (fun _ => by simp [padded]) op a.ncol)
    hmake ha.keyType (ha.reads.zipWith hb.reads hrows hfit' hf) rfl

end Sparse

/-- **Missing rows are zero rows** to the operators that keep zeros: an operator may be applied to
handles with missing rows, or to the matrices that are gathered from them. Only rows that an
element-wise operator appends to its left operand need a partition there. -/
theorem collect_of_sparse (ha : a.Sparse m) (hb : b.Sparse n) :
    ∃ x y : Dense α, a.collect (some m) = .ok x ∧ b.collect (some n) = .ok y ∧
      (do (← a.transposed m).collect (some a.ncol)) = .ok x.mat.transpose.toDense ∧
      (a.ncol = b.ncol → (do (← a.timesTransposed b n).collect (some m)) =
        .ok (x.mat.mul y.mat.transpose).toDense) ∧
      (m = n → (do (← a.transposedTimes b ⟨a.ncol, b.ncol⟩ false).collect (some a.ncol)) =
        .ok (x.mat.transpose.mul y.mat).toDense) ∧
      (do (← a.gramian ⟨a.ncol, a.ncol⟩).collect (some a.ncol)) =
        .ok (x.mat.transpose.mul x.mat).toDense ∧
      (m = n → a.ncol = b.ncol → (b.collection.rows ≠ [] → a.collection.partitions ≠ []) →
        (do (← a.combine .plus b a.ncol).collect (some m)) =
          .ok (x.mat.zipWith (· + ·) y.mat).toDense ∧
        (do (← a.combine .minus b a.ncol).collect (some m)) =
          .ok (x.mat.zipWith (· - ·) y.mat).toDense ∧
        (do (← a.combine .hadamard b a.ncol).collect (some m)) =
          .ok (x.mat.zipWith (· * ·) y.mat).toDense) ∧
      (∀ (s : Scalar) (z : α), s.isReal = true → Cell.ofScalar s = .ok z →
        (do (← a.withScalar .times s).collect (some m)) = .ok (x.mat.map (· * z)).toDense ∧
        (z ≠ 0 → (do (← a.withScalar .divide s).collect (some m)) =
          .ok (x.mat.map (· / z)).toDense)) ∧
      (∀ M : Dense α, a.ncol = M.nrow →
        (do (← a.timesDense M).collect (some m)) = .ok (x.mat.mul M.mat).toDense) ∧
      ∀ (start stop : Int) (call : ℕ), 0 ≤ start → start ≤ stop → stop ≤ m →
        (a.rowRange start stop call).collect (some (stop - start)) =
          .ok (x.mat.rows start stop).toDense := by
  refine ⟨_, _, ha.collect_eq, hb.collect_eq, ?_⟩
  rw [Mat.mat_toDense, Mat.mat_toDense]
  refine ⟨ha.collect_transposed, ha.collect_timesTransposed hb, ha.collect_transposedTimes hb,
    ha.collect_gramian, fun hrows hfit hp => ⟨?_, ?_, ?_⟩, fun s z hs hz => ⟨?_, fun hne => ?_⟩,
    fun M => ha.collect_timesDense, fun start stop call hstart hle hstop =>
      ha.collect_rowRange hstart hle hstop call⟩
  · exact ha.collect_combine hb ExactCell.add_eq (add_zero 0) hrows hfit hp
  · exact ha.collect_combine hb ExactCell.sub_eq (sub_zero 0) hrows hfit hp
  · exact ha.collect_combine hb ExactCell.mul_eq (mul_zero 0) hrows hfit hp
  · exact ha.collect_withScalar hs hz (fun x => ExactCell.mul_eq x z) (zero_mul z)
  · exact ha.collect_withScalar hs hz (fun x => ExactCell.div_eq x z hne) (zero_div z)

end Exact

/-! ### Rows in no order -/

/-- The last of three rows, in the second of two partitions. -/
def lastRow : Handle ℚ :=
  ⟨⟨[[], [(.int 2, .plain [1, 2])]], .int⟩, 2⟩

/-- The last and the first of three rows. -/
def outerRows : Handle ℚ :=
  ⟨⟨[[(.int 2, .plain [3, 4]), (.int 0, .plain [5, 6])]], .int⟩, 2⟩

theorem lastRow_sparse : lastRow.Sparse 3 := by
  refine ⟨by decide, rfl, ?_, ?_, ?_⟩
  · simpa [lastRow, Collection.keys, Collection.rows] using ⟨2, by decide, rfl⟩
  · simp [lastRow, Collection.keys, Collection.rows]
  · simp [lastRow, Collection.rows]

theorem outerRows_sparse : outerRows.Sparse 3 := by
  refine ⟨by decide, rfl, ?_, ?_, ?_⟩
  · simpa [outerRows, Collection.keys, Collection.rows] using
      ⟨⟨2, by decide, rfl⟩, 0, by decide, rfl⟩
  · simp [outerRows, Collection.keys, Collection.rows]
  · simp [outerRows, Collection.rows]

theorem collect_of_sparse_lastRow : lastRow.Sparse 3 ∧ outerRows.Sparse 3 ∧
    ∃ x y : Dense ℚ, lastRow.collect (some 3) = .ok x ∧ outerRows.collect (some 3) = .ok y ∧
      (do (← lastRow.combine .plus outerRows 2).collect (some 3)) =
        .ok (x.mat.zipWith (· + ·) y.mat).toDense := by
  obtain ⟨x, y, hx, hy, -, -, -, -, hcombine, -⟩ :=
    collect_of_sparse lastRow_sparse outerRows_sparse
  exact ⟨lastRow_sparse, outerRows_sparse, x, y, hx, hy, (hcombine rfl rfl (by simp [lastRow])).1⟩

/-- Without a partition there is no last one to append to. -/
theorem combine_without_partitions :
    let a : Handle ℚ := ⟨⟨[], .int⟩, 1⟩
    let b : Handle ℚ := ⟨⟨[[(.int 0, .plain [3])]], .int⟩, 1⟩
    a.Sparse 1 ∧ b.Sparse 1 ∧
      (∃ x, a.collect (some 1) = .ok x) ∧ (∃ y, b.collect (some 1) = .ok y) ∧
      (do (← a.combine .plus b a.ncol).collect (some 1)) = .error (.fault .index) := by
  refine ⟨⟨by decide, rfl, ?_, ?_, ?_⟩, ⟨by decide, rfl, ?_, ?_, ?_⟩, ⟨_, rfl⟩, ⟨_, rfl⟩, rfl⟩
  all_goals simp [Collection.keys, Collection.rows]

/-! ## Operators that shift cells -/

/-- What is gathered from a handle with missing rows, whatever the cells are. -/
theorem Sparse.of_collect (ha : a.Sparse n) {x : Dense α} (hx : a.collect (some n) = .ok x) :
    x.nrow = n ∧ x.ncol = a.matrix.ncol ∧ Dense.sides α x.nrow x.ncol = .ok (x.nrow, x.ncol) ∧
      ∀ (i : Fin x.nrow) (j : Fin x.ncol), (x.cells.get i).get j = a.matrix.read (.ofNat i) j := by
  have hsides := (a.collect_sides n).of_ok hx
  have hshape := (Dense.sides_ensures (α := α) n a.ncol).of_ok hsides
  have hrows : x.nrow = n := Int.ofNat.inj hshape.1
  have hcolumns : x.ncol = a.matrix.ncol := Int.ofNat.inj (hshape.2.trans ha.ncol_eq)
  rw [hrows, hcolumns, ha.ncol_eq] at hsides
  rw [Handle.collect_eq a.padded_sameRows,
    ha.padded_holds.collect_of_sides ha.within ha.keyType hsides] at hx
  cases hx
  exact ⟨rfl, rfl, hsides, Dense.cells_ofFn fun i j => a.matrix.read (.ofNat i) j⟩

/-- What is gathered from rows that a scalar has been combined with. -/
theorem Sparse.collect_shifted (ha : a.Sparse n) {c : ℕ} (hc : c = a.matrix.ncol)
    (hsides : Dense.sides α n c = .ok (n, c)) (op : ScalarOp) {s : Scalar} (hs : s.isReal = true)
    {y : α} (hy : Cell.ofScalar s = .ok y) :
    (do (← a.withScalar op s).collect (some n)) = .ok (.ofFn fun (i : Fin n) (j : Fin c) =>
      if a.collection.hasKey (.int i) then op.apply (a.matrix.read (.ofNat i) j) y
      else Cell.zero) := by
  subst hc
  have hmake := withScalar_makes op hs hy ha.padded_holds
  rw [Scalar.cell_eq hy] at hmake
  obtain ⟨made, hmade, hholds, hkeys⟩ := hmake.exists_ok
  rw [collect_together (withScalar_together a.padded_sameRows op s) hmade,
    hholds.collect_of_sides ha.within ((congrArg KeyType.isInt hkeys).trans ha.keyType) hsides]
  change _ = Except.ok (Dense.mk n a.matrix.ncol (gridOf n a.matrix.ncol fun i j =>
    if a.collection.hasKey (.int i) then op.apply (a.matrix.read (.ofNat i) j) y else Cell.zero))
  refine congrArg Except.ok (congrArg (Dense.mk n a.matrix.ncol) (gridOf_congr fun i _ j _ => ?_))
  by_cases hv : .ofNat i ∈ a.matrix.keys
  · rw [if_pos ((ha.hasKey_iff i).2 hv), KeyedMatrix.read_of_mem hv]
    exact if_pos hv
  · rw [if_neg (mt (ha.hasKey_iff i).1 hv)]
    exact if_neg hv

/-- **A scalar is combined with the rows that are there**, and missing rows stay zero. So it is
combined with every cell exactly if no row is missing, or there are no columns, or the scalar keeps
zero. -/
theorem scalar_skips_missing_rows (ha : a.Sparse n) {x : Dense α} (hx : a.collect (some n) = .ok x)
    (op : ScalarOp) {s : Scalar} (hs : s.isReal = true) {y : α} (hy : Cell.ofScalar s = .ok y) :
    (do (← a.withScalar op s).collect (some n)) =
      .ok (.ofFn fun (i : Fin x.nrow) (j : Fin x.ncol) =>
        if a.collection.hasKey (.int i) then op.apply ((x.cells.get i).get j) y else Cell.zero) ∧
    ((do (← a.withScalar op s).collect (some n)) =
        .ok (.ofFn fun (i : Fin x.nrow) (j : Fin x.ncol) => op.apply ((x.cells.get i).get j) y) ↔
      (∀ i < n, a.collection.hasKey (.int i) = true) ∨ x.ncol = 0 ∨
        op.apply Cell.zero y = Cell.zero) := by
  obtain ⟨rfl, hcolumns, hsides, hcells⟩ := ha.of_collect hx
  have hmissing : ∀ (i : Fin x.nrow) (j : Fin x.ncol),
      ¬ a.collection.hasKey (.int i) = true → (x.cells.get i).get j = Cell.zero := fun i j hk =>
    (hcells i j).trans (KeyedMatrix.read_of_notMem (mt (ha.hasKey_iff i).2 hk) j)
  have hcollect := ha.collect_shifted hcolumns hsides op hs hy
  simp only [← hcells] at hcollect
  refine ⟨hcollect, ?_⟩
  rw [hcollect, Except.ok.injEq, Dense.ofFn_inj]
  constructor
  · intro h
    by_contra hne
    obtain ⟨hall, hnonempty, hshift⟩ := (not_or.1 hne).imp_right not_or.1
    obtain ⟨i, hi, hk⟩ : ∃ i, i < x.nrow ∧ ¬ a.collection.hasKey (.int (i : ℕ)) = true := by
      simpa using hall
    have hcell := h ⟨i, hi⟩ ⟨0, Nat.pos_of_ne_zero hnonempty⟩
    rw [if_neg hk, hmissing _ _ hk] at hcell
    exact hshift hcell.symm
  · intro h i j
    rcases h with hall | hnone | hkeeps
    · rw [if_pos (hall i i.isLt)]
    · exact absurd j.isLt (by omega)
    · by_cases hk : a.collection.hasKey (.int i) = true
      · rw [if_pos hk]
      · rw [if_neg hk, hmissing i j hk, hkeeps]

/-- Two of the three rows that `lastRow` stands for are missing, and one cannot be added to them. -/
theorem scalar_skips_missing_rows_lastRow : ∃ x : Dense ℚ, lastRow.collect (some 3) = .ok x ∧
    (do (← lastRow.withScalar .plus (.int 1)).collect (some 3)) ≠
      .ok (.ofFn fun (i : Fin x.nrow) (j : Fin x.ncol) => (x.cells.get i).get j + 1) := by
  refine ⟨_, lastRow_sparse.collect_eq, fun h => ?_⟩
  have hone : Cell.ofScalar (.int 1) = .ok (1 : ℚ) := rfl
  rcases (scalar_skips_missing_rows lastRow_sparse lastRow_sparse.collect_eq .plus rfl hone).2.1 h
    with hall | hnone | hkeeps
  · exact absurd (hall 0 (by decide)) (by decide)
  · cases hnone
  · exact absurd (show (0 : ℚ) + 1 = 0 from hkeeps) (by norm_num)

/-! ### Rows that move away -/

/-- Counts all keys up by one. -/
def countUp : BlockCatalogue ℚ := fun _ keys block => do
  return ⟨← keys.mapM Key.next, block, keys⟩

/-- The first two rows of a leaf of two rows whose keys have been counted up. -/
def movedRows : Expr ℚ :=
  .unary 2 (.rowRange 0 2) (.unary 1 (.mapBlock "countUp" 1 false)
    (.checkpoint 0 ⟨⟨⟨[[(.int 0, .plain [5]), (.int 1, .plain [7])]], .int⟩, 1⟩, 0, 2, 1, .unknown,
      .none, 1, .int⟩))

/-- The row at position zero has moved away, and one is not added to it. -/
theorem movedRows_skipped : ∃ a b x z,
    (movedRows.exec countUp 0).result = .ok a ∧ a.Sparse 2 ∧ a.collect (some 2) = .ok x ∧
    ((Expr.unary 3 (.scalar .plus (.int 1)) movedRows).exec countUp 0).result = .ok b ∧
    b.collect (some 2) = .ok z ∧
    z ≠ .ofFn fun (i : Fin x.nrow) (j : Fin x.ncol) => (x.cells.get i).get j + 1 := by
  refine ⟨_, _, ⟨2, 1, #v[#v[0], #v[5]]⟩, ⟨2, 1, #v[#v[0], #v[5 + 1]]⟩, rfl,
    ⟨by decide, rfl, ?_, ?_, ?_⟩, rfl, rfl, rfl, fun h => ?_⟩
  · rintro k (_ | ⟨_, ⟨⟩⟩)
    exact ⟨1, by decide, rfl⟩
  · exact List.nodup_singleton (Key.int 1)
  · rintro entry (_ | ⟨_, ⟨⟩⟩)
    exact ⟨[5], rfl, rfl⟩
  · have hrows : [[(0 : ℚ)], [5 + 1]] = [[0 + 1], [5 + 1]] := congrArg Dense.rows h
    norm_num at hrows

end Handle

end RowAlgebra
