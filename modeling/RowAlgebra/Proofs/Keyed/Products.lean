import Mathlib.Algebra.BigOperators.Group.Finset.Piecewise
import RowAlgebra.Proofs.Exec.Pairing
import RowAlgebra.Proofs.Keyed.Grids

/-!
# Products of keyed matrices

Each physical product makes of handles that hold matrices a handle that holds their product, and it
never fails on them. Products with a small result add up outer products in the order of the left
operand; whether rows are paired by key (`transposedTimes_joined`) or by position
(`transposedTimes_zipped`), the sum is the one over the common keys.
-/

namespace RowAlgebra

variable {α : Type} [Cell α] [Field α] [ExactCell α]

/-! ## Inner products -/

omit [Cell α] [ExactCell α] in
theorem sum_map_range (n : ℕ) (f : ℕ → α) : ((List.range n).map f).sum = ∑ i ∈ Finset.range n, f i :=
  rfl

namespace Dense

theorem dotFrom_map {ι : Type} (l : List ι) (f g : ι → α) (acc : α) :
    dotFrom acc (l.map f) (l.map g) = acc + (l.map fun i => f i * g i).sum := by
  induction l generalizing acc with
  | nil => exact (add_zero acc).symm
  | cons i l ih =>
    rw [List.map_cons, List.map_cons, dotFrom, ih, ExactCell.add_eq, ExactCell.mul_eq, List.map_cons,
      List.sum_cons, add_assoc]

theorem dot_range (n : ℕ) (f g : ℕ → α) :
    dot ((List.range n).map f) ((List.range n).map g) = ∑ i ∈ Finset.range n, f i * g i := by
  rw [dot, dotFrom_map, ExactCell.zero_eq, zero_add, sum_map_range]

omit [Field α] [ExactCell α] in
theorem eq_gridOf (m : Dense α) :
    m = ⟨m.nrow, m.ncol, gridOf m.nrow m.ncol fun i j => (m.rows.getD i []).getD j Cell.zero⟩ := by
  obtain ⟨r, c, cells⟩ := m
  congr 1
  ext i hi j hj
  simp [gridOf, rows]

omit [Field α] [ExactCell α] in
theorem matrix_read (m : Dense α) {i : ℕ} (hi : i < m.nrow) (j : ℕ) :
    m.matrix.read (.ofNat i) j = (m.rows.getD i []).getD j Cell.zero := by
  rw [matrix, KeyedMatrix.read_of_mem ((KeyedMatrix.indexed_ofFn _ _ _).complete i hi)]
  change (m.rows.getD (KeyValue.ofNat i).index []).getD j Cell.zero = _
  rw [KeyValue.index_ofNat]

end Dense

theorem Cells.againstRows_gridOf {A : KeyedMatrix α} {n : ℕ} (f : ℕ → ℕ → α) (v : KeyValue) :
    againstRows ⟨n, A.ncol, gridOf n A.ncol f⟩ (.plain (A.row v)) =
      .ok (.plain ((List.range n).map fun j => ∑ i ∈ Finset.range A.ncol, A.cell v i * f j i)) := by
  have hwidth : ¬ (plain (A.row v)).length ≠ A.ncol := not_not.2 (A.length_row v)
  rw [againstRows, if_neg hwidth, Dense.rows_gridOf, List.map_map]
  congr 2
  refine List.map_congr_left fun j _ => ?_
  change Dense.dot ((List.range A.ncol).map (f j)) ((List.range A.ncol).map (A.cell v)) = _
  rw [Dense.dot_range]
  exact Finset.sum_congr rfl fun i _ => mul_comm _ _

/-! ## Outer products -/

theorem Cells.addOuter_rows {A B : KeyedMatrix α} (f : ℕ → ℕ → α) (v w : KeyValue) :
    addOuter (gridOf A.ncol B.ncol f) (.plain (A.row v)) (.plain (B.row w)) =
      .ok (gridOf A.ncol B.ncol fun i j => f i j + A.cell v i * B.cell w j) := by
  rw [addOuter, KeyedMatrix.row, KeyedMatrix.row, Row.stretch_range, Row.stretch_range]
  change Except.ok _ = _
  congr 1
  ext i hi j hj
  simp [gridOf, ExactCell.add_eq, ExactCell.mul_eq]

namespace Handle

omit [Cell α] [ExactCell α] in
/-- Steps that add to a grid add up. -/
theorem foldlM_gridOf {r c : ℕ} {A : KeyedMatrix α} {vs : List KeyValue}
    {step : Grid α r c → KeyedRow α → Except Error (Grid α r c)} {t : KeyValue → ℕ → ℕ → α}
    (hstep : ∀ v ∈ vs, ∀ f,
      step (gridOf r c f) (A.entry v) = .ok (gridOf r c fun i j => f i j + t v i j))
    (f : ℕ → ℕ → α) :
    (vs.map A.entry).foldlM step (gridOf r c f) =
      .ok (gridOf r c fun i j => f i j + (vs.map fun v => t v i j).sum) := by
  induction vs generalizing f with
  | nil =>
    simp only [List.map_nil, List.sum_nil, add_zero]
    rfl
  | cons v vs ih =>
    obtain ⟨hv, hvs⟩ := List.forall_mem_cons.1 hstep
    rw [List.map_cons, List.foldlM_cons, hv f]
    refine (ih hvs _).trans (congrArg Except.ok (gridOf_congr fun i _ j _ => ?_))
    rw [List.map_cons, List.sum_cons, add_assoc]

theorem addZipped_rows {A B : KeyedMatrix α} (vs : List KeyValue) (f : ℕ → ℕ → α) :
    addZipped (gridOf A.ncol B.ncol f) (vs.map A.entry) (vs.map B.entry) =
      .ok (gridOf A.ncol B.ncol fun i j => f i j + (vs.map fun v => A.cell v i * B.cell v j).sum) := by
  induction vs generalizing f with
  | nil => simp [addZipped]
  | cons v vs ih =>
    rw [List.map_cons, List.map_cons, addZipped]
    change (do addZipped (← Cells.addOuter _ (.plain (A.row v)) (.plain (B.row v))) _ _) = _
    rw [Cells.addOuter_rows]
    refine (ih _).trans (congrArg Except.ok (gridOf_congr fun i _ j _ => ?_))
    rw [List.map_cons, List.sum_cons, add_assoc]

/-! ## Whole products -/

variable {a b : Handle α} {A B : KeyedMatrix α}

theorem transposed_makes (ha : a.Holds A) {n : ℕ} (hA : A.Within n)
    (htype : a.collection.keyType.isInt = true) : Makes (a.transposed n) (A.transposed n) .int :=
  ha.transposed_of_sides hA htype (sides_ok n A.ncol)

theorem timesTransposed_makes (ha : a.Holds A) (hb : b.Holds B) {n : ℕ} (hB : B.Within n)
    (htype : b.collection.keyType.isInt = true) (hfit : A.ncol = B.ncol) :
    Makes (a.timesTransposed b n) (A.timesTransposed n B) a.collection.keyType := by
  rw [timesTransposed, hb.collect_eq hB htype, ← hfit]
  obtain ⟨c, hc, hct, hholds⟩ := ha.mapRows (B := A.timesTransposed n B) rfl (fun _ _ => rfl)
    fun v _ => Cells.againstRows_gridOf (n := n) (fun i j => B.read (.ofNat i) j) v
  change Makes (do return ⟨← a.collection.mapRows _, (n : Int)⟩) _ _
  rw [hc]
  exact ⟨hholds, hct⟩

theorem timesDense_makes (ha : a.Holds A) {m : Dense α} (hfit : A.ncol = m.nrow) :
    Makes (a.timesDense m) (A.times m.matrix) a.collection.keyType := by
  have hrow : ∀ v ∈ A.keys, Cells.againstRows m.transposed (.plain (A.row v)) =
      .ok (.plain ((A.times m.matrix).row v)) := by
    intro v _
    have hm := m.eq_gridOf
    rw [← hfit] at hm
    rw [hm, Dense.transposed_gridOf, Cells.againstRows_gridOf, ← hm]
    congr 2
    refine List.map_congr_left fun j _ => Finset.sum_congr rfl fun i hi => ?_
    rw [Dense.matrix_read m (hfit ▸ Finset.mem_range.1 hi)]
  obtain ⟨c, hc, hct, hholds⟩ := ha.mapRows (B := A.times m.matrix) rfl (fun _ _ => rfl) hrow
  rw [timesDense, hc]
  exact ⟨hholds, hct⟩

omit [Cell α] [ExactCell α] in
theorem sum_paired {vs : List KeyValue} (hvs : A.Enumerates vs) (hws : B.Enumerates vs) (i j : ℕ) :
    (vs.map fun v => A.cell v i * B.cell v j).sum =
      ∑ v ∈ A.keys ∩ B.keys, A.cell v i * B.cell v j := by
  rw [← hvs.toFinset, ← hws.toFinset, Finset.inter_self, List.sum_toFinset _ hvs.nodup]

omit [Cell α] [ExactCell α] in
/-- The rows of one side that the other side has, too, add up to the sum over the common keys. -/
theorem sum_joined {vs : List KeyValue} (hvs : A.Enumerates vs) (i j : ℕ) :
    (vs.map fun v => if v ∈ B.keys then A.cell v i * B.cell v j else 0).sum =
      ∑ v ∈ A.keys ∩ B.keys, A.cell v i * B.cell v j := by
  rw [← List.sum_toFinset _ hvs.nodup, hvs.toFinset, Finset.sum_ite_mem]

theorem transposedTimes_joined (ha : a.Holds A) (hb : b.Holds B) :
    Makes (a.transposedTimes b ⟨A.ncol, B.ncol⟩ false) (A.transposedTimes B) .int := by
  obtain ⟨vs, hvs, hrows⟩ := ha.rows
  have hstep : ∀ v ∈ vs, ∀ f : ℕ → ℕ → α,
      addJoined b.collection.index (gridOf A.ncol B.ncol f) (A.entry v) =
        .ok (gridOf A.ncol B.ncol fun i j =>
          f i j + if v ∈ B.keys then A.cell v i * B.cell v j else 0) := by
    intro v hv f
    have hfound := hb.find?_eq (hvs.value?_key hv)
    rw [addJoined, Collection.find?_index, KeyedMatrix.entry, hfound]
    by_cases hmem : v ∈ B.keys
    · simp only [if_pos hmem]
      exact Cells.addOuter_rows f v v
    · simp only [if_neg hmem, add_zero]
  rw [transposedTimes, sides_ok]
  change Makes (do
    let cells ← a.collection.rows.foldlM (addJoined b.collection.index) (Dense.zeros A.ncol B.ncol)
    return ofDense ⟨A.ncol, B.ncol, cells⟩ a.collection.partitions.length) _ _
  rw [hrows, Dense.zeros_eq, foldlM_gridOf hstep]
  simp only [ExactCell.zero_eq, zero_add, sum_joined hvs]
  exact ⟨ofDense_holds _ _ _ _, rfl⟩

theorem gramian_makes (ha : a.Holds A) :
    Makes (a.gramian ⟨A.ncol, A.ncol⟩) (A.transposedTimes A) .int := by
  obtain ⟨vs, hvs, hrows⟩ := ha.rows
  rw [gramian, sides_ok]
  change Makes (do
    let cells ← a.collection.rows.foldlM (fun grid entry => Cells.addOuter grid entry.2 entry.2)
      (Dense.zeros A.ncol A.ncol)
    return ofDense ⟨A.ncol, A.ncol, cells⟩ a.collection.partitions.length) _ _
  rw [hrows, Dense.zeros_eq,
    foldlM_gridOf (t := fun v i j => A.cell v i * A.cell v j) fun v _ f => Cells.addOuter_rows f v v]
  simp only [ExactCell.zero_eq, zero_add, sum_paired hvs hvs]
  exact ⟨ofDense_holds _ _ _ _, rfl⟩

omit [Field α] [ExactCell α] in
/-- Sides with other partition keys are not zipped. -/
theorem transposedTimes_refused {a b : Handle α}
    (hdiffer : ¬ a.collection.samePartitionKeys b.collection = true) (shape : Shape)
    (P : Handle α → Prop) : Ensures (a.transposedTimes b shape true) P := by
  refine (Ends.any _).bind fun sides _ => ?_
  simp only [if_true, if_neg hdiffer]
  exact Ends.error trivial

theorem transposedTimes_zipped (ha : a.Holds A) (hb : b.Holds B)
    (hsame : a.collection.samePartitionKeys b.collection = true) :
    Makes (a.transposedTimes b ⟨A.ncol, B.ncol⟩ true) (A.transposedTimes B) .int := by
  obtain ⟨vs, hvs, hws, hrows, hrows'⟩ := ha.enumerates_both hb hsame
  have hzipped := addZippedPartitions_eq (Collection.length_eq_of_samePartitionKeys hsame)
    (Dense.zeros A.ncol B.ncol)
  have hflat : a.collection.partitions.flatten = vs.map A.entry := hrows
  have hflat' : b.collection.partitions.flatten = vs.map B.entry := hrows'
  rw [hflat, hflat', Dense.zeros_eq, addZipped_rows] at hzipped
  rw [transposedTimes, sides_ok]
  change Makes (do
    let cells ← if a.collection.samePartitionKeys b.collection then
      addZippedPartitions (Dense.zeros A.ncol B.ncol) a.collection.partitions b.collection.partitions
      else .error .notIdenticallyPartitioned
    return ofDense ⟨A.ncol, B.ncol, cells⟩ a.collection.partitions.length) _ _
  rw [if_pos hsame, Dense.zeros_eq, hzipped]
  simp only [ExactCell.zero_eq, zero_add, sum_paired hvs hws]
  exact ⟨ofDense_holds _ _ _ _, rfl⟩

end Handle

end RowAlgebra
