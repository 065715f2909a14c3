import RowAlgebra.Proofs.Keyed.Grids

/-!
# Element-wise operators on keyed matrices

Two handles are combined as the matrices that they hold: the rows of the left one come first, and the
rows that only the right one has come after them (`Handle.combine_makes`). A scalar is combined with
the rows that are there (`Handle.withScalar_makes`), and a range of positions is selected row by row
(`Handle.rowRange_holds`).
-/

namespace RowAlgebra

variable {α : Type}

/-! ## Single rows -/

section Rows

variable [Cell α]

theorem Cells.combine_range (op : CellOp) (n : ℕ) (f g : ℕ → α) :
    combine op (.plain ((List.range n).map f)) (.plain ((List.range n).map g)) =
      .ok (.plain ((List.range n).map fun j => op.apply (f j) (g j))) := by
  have hlength : ((List.range n).map f).length = ((List.range n).map g).length := by simp
  rw [combine, Row.combine, Row.paired_ok hlength]
  change Except.ok (plain ((List.zip _ _).map _)) = _
  rw [List.zip_map', List.map_map]
  rfl

theorem Cells.withScalar_plain (op : ScalarOp) {s : Scalar} (hs : s.isReal = true) {x : α}
    (hx : Cell.ofScalar s = .ok x) (row : Row α) :
    withScalar op s (.plain row) = .ok (.plain (row.map fun y => op.apply y x)) := by
  cases s <;> simp only [Scalar.isReal, Bool.false_eq_true] at hs <;>
  · simp only [withScalar, hx]
    rfl

theorem Scalar.cell_eq {s : Scalar} {x : α} (hx : Cell.ofScalar s = .ok x) : s.cell = x := by
  rw [cell, hx]

/-- What is read at a key is found there, or zero. -/
theorem Handle.Holds.getD_find? {b : Handle α} {B : KeyedMatrix α} (hb : b.Holds B) {k : Key}
    {v : KeyValue} (hk : k.value? = some v) :
    (b.collection.find? k).getD (.plain (List.replicate B.ncol Cell.zero)) =
      .plain ((List.range B.ncol).map (B.read v)) := by
  rw [hb.find?_eq hk]
  by_cases hv : v ∈ B.keys
  · rw [if_pos hv]
    change Cells.plain (B.row v) = _
    rw [KeyedMatrix.row]
    congr 1
    exact List.map_congr_left fun j _ => (KeyedMatrix.read_of_mem hv j).symm
  · rw [if_neg hv]
    change Cells.plain (List.replicate B.ncol Cell.zero) = _
    congr 1
    refine List.ext_getElem (by simp) fun j h₁ h₂ => ?_
    simp [KeyedMatrix.read, hv]

end Rows

namespace Handle

variable {a b : Handle α} {A B : KeyedMatrix α}

/-! ## Two matrices -/

/-- The keys of two matrices: those of the left one, and then those that only the right one has. -/
theorem enumerates_zipWith [Cell α] (f : α → α → α) {vs ws : List KeyValue} (hvs : A.Enumerates vs)
    (hws : B.Enumerates ws) :
    (A.zipWith f B).Enumerates (vs ++ ws.filter fun w => w ∉ A.keys) := by
  refine ⟨hvs.nodup.append (hws.nodup.filter _) ?_, ?_⟩
  · intro v hv hw
    have hmissing : v ∉ A.keys := by simpa using (List.mem_filter.1 hw).2
    exact hmissing (hvs.mem_iff.1 hv)
  · rw [List.toFinset_append, List.toFinset_filter, hvs.toFinset, hws.toFinset]
    ext v
    simp only [KeyedMatrix.zipWith, Finset.mem_union, Finset.mem_filter, decide_not,
      Bool.not_eq_eq_eq_not, Bool.not_true, decide_eq_false_iff_not]
    tauto

section Combining

variable [Cell α] (op : CellOp)

/-- A row that meets what another matrix has at its key, or zeros, becomes that of both matrices. -/
theorem combine_entry (hb : b.Holds B) (hfit : A.ncol = B.ncol) {v : KeyValue} (hv : v ∈ A.keys) :
    Cells.combine op (.plain (A.row v)) ((b.collection.index.find? (A.key v)).getD
        (.plain (List.replicate A.ncol Cell.zero))) =
      .ok (.plain ((A.zipWith op.apply B).row v)) := by
  rw [Collection.find?_index, hfit, hb.getD_find? (A.value?_key v hv), KeyedMatrix.row, hfit,
    Cells.combine_range]
  congr 2
  change _ = (List.range A.ncol).map _
  rw [hfit]
  refine List.map_congr_left fun j _ => ?_
  rw [← KeyedMatrix.read_of_mem hv]
  rfl

theorem combine_missing (hfit : A.ncol = B.ncol) {w : KeyValue} (hw : w ∈ B.keys)
    (hmissing : w ∉ A.keys) :
    Cells.combine op (.plain (List.replicate A.ncol Cell.zero)) (.plain (B.row w)) =
      .ok (.plain ((A.zipWith op.apply B).row w)) := by
  have hzeros : List.replicate A.ncol (Cell.zero : α) = (List.range A.ncol).map (A.read w) := by
    refine List.ext_getElem (by simp) fun j h₁ h₂ => ?_
    simp [KeyedMatrix.read, hmissing]
  rw [hzeros, KeyedMatrix.row, ← hfit, Cells.combine_range]
  congr 2
  refine List.map_congr_left fun j _ => ?_
  rw [← KeyedMatrix.read_of_mem hw]
  rfl

theorem missing_ok (ha : a.Holds A) (hfit : A.ncol = B.ncol) {ws : List KeyValue}
    (hws : B.Enumerates ws) :
    (((ws.map B.entry).filter fun entry => (a.collection.index.find? entry.1).isNone).mapM
        fun entry => do return (entry.1,
          ← Cells.combine op (.plain (List.replicate A.ncol Cell.zero)) entry.2)) =
      .ok ((ws.filter fun w => w ∉ A.keys).map (A.zipWith op.apply B).entry) := by
  have hfilter : (ws.map B.entry).filter (fun entry => (a.collection.index.find? entry.1).isNone) =
      (ws.filter fun w => w ∉ A.keys).map B.entry := by
    rw [List.filter_map]
    congr 1
    refine List.filter_congr fun w hw => ?_
    change (a.collection.index.find? (B.key w)).isNone = _
    rw [Collection.find?_index, ha.find?_eq (hws.value?_key hw)]
    by_cases hmem : w ∈ A.keys <;> simp [hmem]
  rw [hfilter]
  refine KeyedMatrix.mapM_entries (fun w hw => ?_) fun w hw => ?_
  · have hmissing : w ∉ A.keys := by simpa using (List.mem_filter.1 hw).2
    exact if_neg hmissing
  · obtain ⟨hw, hmissing⟩ := List.mem_filter.1 hw
    exact combine_missing op hfit (hws.mem_iff.1 hw) (by simpa using hmissing)

omit [Cell α] in
/-- Rows that are still missing are appended, if there are any. -/
theorem appended_makes {C : KeyedMatrix α} {merged : Collection α} {extra : List (KeyedRow α)}
    {vs : List KeyValue} (hpartitions : merged.partitions ≠ []) (hvs : C.Enumerates vs)
    (hall : merged.rows ++ extra = vs.map C.entry) :
    Makes (if extra.isEmpty then .ok ⟨merged, C.ncol⟩
      else do return ⟨⟨← appendToLast extra merged.partitions, merged.keyType⟩, C.ncol⟩) C
      merged.keyType := by
  cases extra with
  | nil =>
    rw [List.append_nil] at hall
    exact ⟨⟨rfl, hpartitions, vs, hvs, hall⟩, rfl⟩
  | cons row extra =>
    have happend := (appendToLast_ends (row :: extra) merged.partitions).mapBad
      fun _ h => hpartitions h
    refine Ends.bind happend fun ps hps => Ends.ok ⟨⟨rfl, hps.1, vs, hvs, ?_⟩, rfl⟩
    exact hps.2.trans hall

/-- The rows of both operands, those of the left one first. -/
theorem combine_makes (ha : a.Holds A) (hb : b.Holds B) (hfit : A.ncol = B.ncol)
    (hsides : Dense.sides α 1 A.ncol = .ok (1, A.ncol)) :
    Makes (a.combine op b A.ncol) (A.zipWith op.apply B) a.collection.keyType := by
  let zeroRow : Cells α := .plain (List.replicate A.ncol Cell.zero)
  let meet (entry : KeyedRow α) : Except Error (Cells α) :=
    entry.2.combine op ((b.collection.index.find? entry.1).getD zeroRow)
  let only (entry : KeyedRow α) : Bool := (a.collection.index.find? entry.1).isNone
  obtain ⟨ws, hws, hrows⟩ := hb.rows
  obtain ⟨merged, hmerged, htype, hleft⟩ := ha.mapPartitions (f := meet)
    (B := A.withCells A.ncol (A.zipWith op.apply B).cell) rfl (fun _ _ => rfl)
    fun v hv => combine_entry op hb hfit hv
  have hmissing := missing_ok op ha hfit hws
  rw [← hrows] at hmissing
  rw [combine, hsides]
  change Makes (do
    let merged ← a.collection.mapPartitions fun p => p.mapM fun entry => do
      return (entry.1, ← meet entry)
    let missing ← (b.collection.rows.filter only).mapM fun entry => do
      return (entry.1, ← zeroRow.combine op entry.2)
    if missing.isEmpty then return ⟨merged, (A.ncol : Int)⟩
    else return ⟨⟨← appendToLast missing merged.partitions, merged.keyType⟩, (A.ncol : Int)⟩) _ _
  rw [hmerged, hmissing]
  obtain ⟨vs, hvs, hrows'⟩ := hleft.rows
  have henum := enumerates_zipWith op.apply (A := A) ⟨hvs.nodup, hvs.toFinset⟩ hws
  have hmergedRows : merged.rows = vs.map (A.zipWith op.apply B).entry := by
    refine hrows'.trans (List.map_congr_left fun v hv => Prod.ext ?_ rfl)
    exact (if_pos (hvs.mem_iff.1 hv)).symm
  refine htype ▸ appended_makes hleft.partitions henum ?_
  rw [List.map_append, hmergedRows]

end Combining

/-! ## A matrix and a scalar -/

theorem withScalar_makes [Cell α] (op : ScalarOp) {s : Scalar} (hs : s.isReal = true) {x : α}
    (hx : Cell.ofScalar s = .ok x) (ha : a.Holds A) :
    Makes (a.withScalar op s) (A.map fun y => op.apply y s.cell) a.collection.keyType := by
  have hrow : ∀ v ∈ A.keys, Cells.withScalar op s (.plain (A.row v)) =
      .ok (.plain ((A.map fun y => op.apply y s.cell).row v)) := by
    intro v _
    rw [Cells.withScalar_plain op hs hx, KeyedMatrix.row, List.map_map, Scalar.cell_eq hx]
    rfl
  obtain ⟨c, hc, hct, hholds⟩ := ha.mapRows
    (B := A.map fun y => op.apply y s.cell) rfl (fun _ _ => rfl) hrow
  rw [withScalar, hc, ha.ncol]
  exact ⟨hholds, hct⟩

/-! ## A range of rows -/

/-- The positions of a range, counted from its start. -/
theorem enumerates_rowRange {n : ℕ} (hA : A.Within n) {start : Int} (hstart : 0 ≤ start)
    (stop : Int) {vs : List KeyValue} (hvs : A.Enumerates vs) :
    (A.rowRange start stop).Enumerates
      ((vs.filter fun v => inRange start stop (A.key v)).map fun v =>
        .ofNat (v.index - start.toNat)) := by
  have hmem : ∀ v ∈ vs.filter fun v => inRange start stop (A.key v),
      ∃ i : ℕ, v = .ofNat i ∧ start ≤ i ∧ (i : Int) < stop := by
    intro v hv
    obtain ⟨hv, hrange⟩ := List.mem_filter.1 hv
    obtain ⟨i, -, rfl, hkey⟩ := hA v (hvs.mem_iff.1 hv)
    rw [hkey, inRange_int, decide_eq_true_eq] at hrange
    exact ⟨i, rfl, hrange⟩
  refine ⟨(hvs.nodup.filter _).map_on ?_, ?_⟩
  · intro v hv w hw heq
    obtain ⟨i, rfl, hi, -⟩ := hmem v hv
    obtain ⟨j, rfl, hj, -⟩ := hmem w hw
    have hij := KeyValue.ofNat_injective heq
    rw [KeyValue.index_ofNat, KeyValue.index_ofNat] at hij
    have : i = j := by omega
    rw [this]
  · ext w
    simp only [List.mem_toFinset, List.mem_map, KeyedMatrix.rowRange, KeyedMatrix.atPositions,
      Finset.mem_image, Finset.mem_filter, Finset.mem_range]
    constructor
    · rintro ⟨v, hv, rfl⟩
      have hvs' := hvs.mem_iff.1 (List.mem_filter.1 hv).1
      obtain ⟨i, rfl, hi, hi'⟩ := hmem v hv
      refine ⟨i - start.toNat, ⟨by omega, ?_⟩, by rw [KeyValue.index_ofNat]⟩
      rwa [show start.toNat + (i - start.toNat) = i by omega]
    · rintro ⟨i, ⟨hi, hkeys⟩, rfl⟩
      obtain ⟨j, -, hj, hkey⟩ := hA _ hkeys
      obtain rfl := KeyValue.ofNat_injective hj
      refine ⟨_, List.mem_filter.2 ⟨hvs.mem_iff.2 hkeys, ?_⟩, ?_⟩
      · rw [hkey, inRange_int, decide_eq_true_eq]
        omega
      · rw [KeyValue.index_ofNat, Nat.add_sub_cancel_left]

theorem rekeyed_entry {n : ℕ} (hA : A.Within n) {start stop : Int} (hstart : 0 ≤ start)
    {v : KeyValue} (hv : v ∈ A.keys) (hrange : inRange start stop (A.key v) = true) :
    (rekeyed start (A.key v), Cells.plain (A.row v)) =
      (A.rowRange start stop).entry (.ofNat (v.index - start.toNat)) := by
  obtain ⟨i, -, rfl, hkey⟩ := hA v hv
  rw [hkey, inRange_int, decide_eq_true_eq] at hrange
  have hindex : (i : Int) - start = ↑(i - start.toNat) := by omega
  have hposition : start.toNat + (i - start.toNat) = i := by omega
  rw [hkey, KeyValue.index_ofNat]
  refine Prod.ext ?_ ?_
  · change Key.int (i - start) = .int ↑(KeyValue.ofNat (i - start.toNat)).index
    rw [KeyValue.index_ofNat, hindex]
  · change Cells.plain ((List.range A.ncol).map (A.cell (.ofNat i))) =
      .plain ((List.range A.ncol).map
        (A.cell (.ofNat (start.toNat + (KeyValue.ofNat (i - start.toNat)).index))))
    rw [KeyValue.index_ofNat, hposition]

/-- A range of positions is selected row by row. -/
theorem rowRange_holds (ha : a.Holds A) {n : ℕ} (hA : A.Within n) {start : Int} (hstart : 0 ≤ start)
    (stop : Int) (call : ℕ) : (a.rowRange start stop call).Holds (A.rowRange start stop) := by
  obtain ⟨vs, hvs, hrows⟩ := ha.rows
  have hselected : Holds ⟨selected a.collection start stop, a.ncol⟩ (A.rowRange start stop) := by
    refine ⟨ha.ncol, by simpa [selected] using ha.partitions, _,
      enumerates_rowRange hA hstart stop hvs, ?_⟩
    rw [selected_rows, hrows, List.filter_map, List.map_map, List.map_map]
    refine List.map_congr_left fun v hv => ?_
    obtain ⟨hv, hrange⟩ := List.mem_filter.1 hv
    exact rekeyed_entry hA hstart (hvs.mem_iff.1 hv) hrange
  rw [rowRange, Collection.settle_eq_self hselected.valued]
  exact hselected

end Handle

end RowAlgebra
