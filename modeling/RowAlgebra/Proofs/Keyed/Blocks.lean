import RowAlgebra.Handle.Blocks
import RowAlgebra.Proofs.Keyed.Rows

/-!
# Block functions on keyed matrices

A block function is `RowWise` if it leaves the keys alone and works on each row by itself. Then it
does not matter how rows are spread over partitions: a handle of a matrix becomes a handle of the
matrix with the images of its rows (`Handle.mapBlock_makes`).
-/

namespace RowAlgebra

variable {α : Type}

/-- Whether a block function turns blocks of `n` columns into blocks of `m` columns row by row,
where `g` is what it does to a row and its key. -/
def BlockFunction.RowWise [Cell α] (f : BlockFunction α) (g : Key → Row α → Row α) (n m : ℕ) : Prop :=
  ∀ keys (d : Dense α), keys ≠ [] → d.nrow = keys.length → d.ncol = n →
    ∃ block out, f keys (.plain d) = .ok ⟨keys, block, keys⟩ ∧ block.toDense = .ok out ∧ out.ncol = m ∧
      out.rows = List.zipWith g keys d.rows

theorem BlockFunction.RowWise.length_eq [Cell α] {f : BlockFunction α} {g : Key → Row α → Row α}
    {n m : ℕ} (hf : f.RowWise g n m) (k : Key) {row : Row α} (h : row.length = n) :
    (g k row).length = m := by
  obtain ⟨d, -, hdn, hdrows⟩ := Dense.ofRows?_eq_some (List.forall_mem_singleton.2 h)
  have hdnrow : d.nrow = [k].length := by rw [← d.length_rows, hdrows, List.length_singleton,
    List.length_singleton]
  obtain ⟨_, out, -, -, hm, hrows⟩ := hf [k] d (List.cons_ne_nil _ _) hdnrow hdn
  rw [hdrows] at hrows
  exact (Dense.length_of_mem_rows (hrows ▸ List.mem_singleton_self _)).trans hm

namespace Handle

/-- The rows that a block function may yield for keys with values. -/
theorem enforce_ok {contract : BlockContract} {keys : List Key} {out : Dense α}
    (hkeys : ∀ k ∈ keys, k.value?.isSome = true) (hnrow : out.nrow = keys.length)
    (hncol : contract.ncol = out.ncol) :
    contract.enforce ⟨keys, out, keys⟩ = .ok (keys.zip (out.rows.map .plain)) := by
  have hshape : out.shape = ⟨keys.length, contract.ncol⟩ := by
    rw [Dense.shape, hnrow, hncol]
  have hsame : Key.sameAll keys keys = true := Key.sameAll_iff.2 ⟨hkeys, rfl⟩
  rw [BlockContract.enforce]
  simp [hshape, hsame]

variable [Cell α]

/-- What a row-wise function makes of an entry. -/
def rowImage (g : Key → Row α → Row α) (entry : KeyedRow α) : KeyedRow α :=
  (entry.1, .plain (g entry.1 (cellsOf entry)))

variable {f : BlockFunction α} {g : Key → Row α → Row α} {n m : ℕ}

theorem applyBlock_ok (hf : f.RowWise g n m) {contract : BlockContract} (hncol : contract.ncol = m)
    {p : List (KeyedRow α)} (hkeys : ∀ entry ∈ p, entry.1.value?.isSome = true)
    (hrows : ∀ entry ∈ p, entry.2 = .plain (cellsOf entry) ∧ (cellsOf entry).length = n) :
    applyBlock f contract p = .ok (p.map (rowImage g)) := by
  by_cases hp : p = []
  · subst hp
    rfl
  · have hplain : p.map Prod.snd = (p.map cellsOf).map .plain := by
      rw [List.map_map]
      exact List.map_congr_left fun entry he => (hrows entry he).1
    have hcells : p.map cellsOf ≠ [] := by simpa using hp
    obtain ⟨d, hd, hdn, hdrows⟩ := stacked_plain hcells
      (List.forall_mem_map.2 fun entry he => (hrows entry he).2)
    have hdnrow : d.nrow = (p.map Prod.fst).length := by
      rw [← d.length_rows, hdrows, List.length_map, List.length_map]
    obtain ⟨block, out, hblock, hout, hm, himage⟩ := hf _ d (by simpa using hp) hdnrow hdn
    rw [hdrows, List.zipWith_map_left, List.zipWith_map_right, List.zipWith_self] at himage
    have honrow : out.nrow = (p.map Prod.fst).length := by
      rw [← out.length_rows, himage, List.length_map, List.length_map]
    have henforce := enforce_ok (List.forall_mem_map.2 hkeys) honrow (hncol.trans (by rw [hm]))
    have hempty : ¬ p.isEmpty = true := by simpa using hp
    rw [applyBlock, if_neg hempty, hplain, hd]
    change (do
      let result ← f (p.map Prod.fst) (.plain d)
      contract.enforce ⟨result.keys, ← result.block.toDense, result.handed⟩) = _
    rw [hblock]
    change (do contract.enforce ⟨p.map Prod.fst, ← block.toDense, p.map Prod.fst⟩) = _
    rw [hout]
    refine henforce.trans (congrArg Except.ok ?_)
    rw [himage, List.map_map, List.zip_map']
    rfl

/-- A row-wise function makes a matrix of the images of rows, and keeps the keys of each partition. -/
theorem mapBlock_ok (hf : f.RowWise g n m) {a : Handle α} {A : KeyedMatrix α} (ha : a.Holds A)
    (hn : A.ncol = n) {contract : BlockContract} (hncol : contract.ncol = m) (call : ℕ) :
    ∃ h, mapBlock f contract call a = .ok h ∧ h.Holds (A.mapRows m g) ∧
      h.collection.keyType = a.collection.keyType ∧
      h.collection.partitionKeys = a.collection.partitionKeys := by
  have hok : ∀ p ∈ a.collection.partitions, applyBlock f contract p = .ok (p.map (rowImage g)) := by
    refine fun p hp => applyBlock_ok hf hncol (fun entry he => ?_) fun entry he => ?_
    · exact ha.valued _ (List.mem_map_of_mem (Collection.mem_rows_of_mem hp he))
    · obtain ⟨v, hv, rfl⟩ := ha.mem_rows (Collection.mem_rows_of_mem hp he)
      exact ⟨rfl, (A.length_row v).trans hn⟩
  have hholds : Holds ⟨⟨a.collection.partitions.map (List.map (rowImage g)), a.collection.keyType⟩,
      contract.ncol⟩ (A.mapRows m g) := by
    refine ha.mapEntries (B := A.mapRows m g) rfl (fun v hv => Prod.ext rfl ?_) _ hncol
    have hlength := hf.length_eq (A.key v) ((A.length_row v).trans hn)
    change Cells.plain (g (A.key v) (A.row v)) =
      .plain ((List.range m).map fun j => (g (A.key v) (A.row v)).getD j Cell.zero)
    rw [← hlength, map_range_getD]
  rw [mapBlock, Collection.mapPartitions_ok hok]
  refine ⟨⟨Collection.settle call _, contract.ncol⟩, rfl, ?_⟩
  rw [Collection.settle_eq_self hholds.valued]
  refine ⟨hholds, rfl, ?_⟩
  rw [Collection.partitionKeys, Collection.partitionKeys, List.map_map]
  exact List.map_congr_left fun p _ => List.map_map

theorem mapBlock_makes (hf : f.RowWise g n m) {a : Handle α} {A : KeyedMatrix α} (ha : a.Holds A)
    (hn : A.ncol = n) {contract : BlockContract} (hncol : contract.ncol = m) (call : ℕ) :
    Makes (mapBlock f contract call a) (A.mapRows m g) a.collection.keyType := by
  obtain ⟨h, hh, hholds, hkeys, -⟩ := mapBlock_ok hf ha hn hncol call
  rw [hh]
  exact ⟨hholds, hkeys⟩

theorem mapBlock_layout (hf : f.RowWise g n m) {a : Handle α} {A : KeyedMatrix α} (ha : a.Holds A)
    (hn : A.ncol = n) {contract : BlockContract} (hncol : contract.ncol = m) (call : ℕ) :
    Ensures (mapBlock f contract call a) fun h => h.collection.layout = a.collection.layout := by
  obtain ⟨h, hh, -, -, hkeys⟩ := mapBlock_ok hf ha hn hncol call
  rw [hh]
  exact Ends.ok (Collection.layout_eq_of_keys hkeys)

end Handle

end RowAlgebra
