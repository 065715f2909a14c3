import RowAlgebra.Proofs.Manager.NonZeros

/-!
# Distributing and gathering

A matrix is distributed row by row, each row with a key, over partitions of almost equal size. If
the keys are positions, then gathering puts each row where its key says
(`Handle.WellFormed.exists_collected`): the largest key asks for as many rows as there are
(`Collection.Numbered.openExtent_eq`), and the cells are only moved. So **gathering is inverse to
distributing** (`Managed.parallelize_collect`), for any number of partitions that can be held.
-/

namespace RowAlgebra

variable {α : Type}

/-! ## Gathering -/

/-- As many rows as there are, up to the largest key. -/
theorem Collection.Numbered.openExtent_eq {c : Collection α} {n : Int} (hc : c.Numbered n) :
    Handle.openExtent c.keys = .ok n := by
  obtain ⟨b, hb, hbound, hlast⟩ := Handle.exists_openExtent fun k hk => hc.exists_int hk
  refine hb.trans (congrArg Except.ok ?_)
  rcases hlast with ⟨hnil, rfl⟩ | hlast
  · rw [← hc.length_rows, List.map_eq_nil_iff.1 hnil]
    rfl
  · obtain ⟨i, hi, heq⟩ := hc.mem_keys_iff.1 hlast
    have hfirst : b - 1 = i := Key.int.inj heq
    have hmem : .int (n - 1) ∈ c.keys := hc.mem_keys_iff.2 ⟨(n - 1).toNat, by omega, by
      rw [Int.toNat_of_nonneg (by omega)]⟩
    have hlarge := hbound _ hmem
    omega

namespace Handle

theorem collect_none [Cell α] {h : Handle α} {n : Int} (hn : openExtent h.collection.keys = .ok n) :
    h.collect none = h.collect (some n) := by
  unfold collect
  rw [hn]
  rfl

/-- **Gathering a numbered handle**: each row gets to the position that is its key, and no cell is
lost. It makes no difference whether as many rows are asked for as there are, or none in particular. -/
theorem WellFormed.exists_collected [Cell α] {h : Handle α} (hh : h.WellFormed) {n c : ℕ}
    (hn : h.collection.Numbered n) (hncol : h.ncol = c) (htype : h.collection.keyType.isInt = true)
    (hheld : @Cell.tooLarge? α _ n c = none) :
    ∃ D : Dense α, h.collect (some n) = .ok D ∧ h.collect none = .ok D ∧ D.shape = ⟨n, c⟩ ∧
      (∀ (p : ℕ) row, (.int p, .plain row) ∈ h.collection.rows → D.rows[p]? = some row) ∧
      D.nonZeros = h.collection.nonZeros := by
  have hA : h.matrix.Indexed n := hh.indexed (by simpa using hn.keys)
  have hholds := hh.holds_matrix
  obtain rfl : h.matrix.ncol = c := by
    change h.ncol.toNat = c
    rw [hncol, Int.toNat_natCast]
  obtain ⟨vs, hvs, hrows⟩ := hholds.rows
  have hcollect := hholds.collect_of_sides hA.within htype (sides_of_held hheld)
  have hgathered : (⟨n, h.matrix.ncol, gridOf n h.matrix.ncol fun i j => h.matrix.read (.ofNat i) j⟩ :
      Dense α).rows = (List.range n).map fun i => h.matrix.row (.ofNat i) := by
    rw [Dense.rows_gridOf]
    refine List.map_congr_left fun i hi => List.map_congr_left fun j _ => ?_
    exact KeyedMatrix.read_of_mem (hA.complete i (List.mem_range.1 hi)) j
  refine ⟨_, hcollect, (collect_none hn.openExtent_eq).trans hcollect, rfl, fun p row hmem => ?_, ?_⟩
  · obtain ⟨v, hv, hentry⟩ := hholds.mem_rows hmem
    obtain ⟨i, hi, rfl, hkey⟩ := hA.within v hv
    obtain ⟨hp, hrow⟩ := Prod.mk.inj hentry
    obtain rfl : p = i := Int.natCast_inj.1 (Key.int.inj (hp.trans hkey))
    rw [hgathered, List.getElem?_map, List.getElem?_range hi, Cells.plain.inj hrow]
    rfl
  · have hperm := (hvs.perm_positions hA).map fun v => (Cells.plain (h.matrix.row v)).nonZeros
    rw [Dense.nonZeros, hgathered, Collection.nonZeros, hrows, List.map_map, List.map_map]
    refine Eq.trans ?_ hperm.sum_eq.symm
    rw [List.map_map]
    rfl

end Handle

/-! ## Distributing -/

/-- Whether a matrix has the rows of `m`, each at the position that is its key. -/
structure Dense.Arranged (m : Dense α) (keys : List Key) (D : Dense α) : Prop where
  shape : D.shape = m.shape
  row : ∀ i p : ℕ, keys[i]? = some (.int p) → D.rows[p]? = m.rows[i]?

theorem Capacity.sequence_eq_ok_iff {n : Int} (hlower : -(2 ^ 63) ≤ n) :
    sequence n = .ok () ↔ n ≤ memory := by
  constructor
  · intro h
    obtain ⟨_, -, h⟩ := bind_eq_ok_iff.1 h
    by_contra hroom
    rw [if_pos (Int.not_le.1 hroom)] at h
    cases h
  · intro hroom
    have hlength : length n = .ok () := if_pos ⟨hlower, by unfold memory at hroom; omega⟩
    rw [sequence, hlength]
    exact if_neg (Int.not_lt.2 hroom)

namespace Managed

theorem rowKeys_perm {m : Dense α} {keys : Option GivenKeys}
    (hkeys : ∀ given ∈ keys, given.keys.Perm (Key.positions m.nrow)) :
    (rowKeys m keys).keys.Perm (Key.positions m.nrow) := by
  cases keys with
  | none => exact .refl _
  | some ks => exact hkeys ks rfl

/-- Keys of one type are distributed, if there is one for each row and room for the partitions. -/
theorem distribute_eq {m : Dense α} {keys : Option GivenKeys}
    (hlength : (rowKeys m keys).keys.length = m.nrow) {t : KeyType}
    (htypes : ∀ u ∈ (rowKeys m keys).types, u = t) {k : Int} (hk : 1 ≤ k) :
    distribute m k keys = Capacity.sequence (k - m.nrow) >>= fun _ =>
      .ok (.spread ((rowKeys m keys).keys.zip (m.rows.map .plain)) k.toNat
        ((rowKeys m keys).types.headD .int)) := by
  have hmixed : ¬((rowKeys m keys).types.any (· != (rowKeys m keys).types.headD .int)) = true := by
    generalize (rowKeys m keys).types = types at htypes
    cases types with
    | nil => simp
    | cons head rest =>
      obtain ⟨rfl, hrest⟩ := List.forall_mem_cons.1 htypes
      simpa using hrest
  have hrows : ((rowKeys m keys).keys.zip (m.rows.map Cells.plain)).length = m.nrow := by
    rw [List.length_zip, List.length_map, m.length_rows, hlength, min_self]
  change (if (rowKeys m keys).keys.length ≠ m.nrow then _
    else if ((rowKeys m keys).types.any (· != (rowKeys m keys).types.headD .int)) then _
    else Collection.parallelize ((rowKeys m keys).keys.zip _) _
      ((rowKeys m keys).types.headD .int)) = _
  rw [if_neg (not_not_intro hlength), if_neg hmixed, Collection.parallelize, if_neg (by omega),
    hrows]
  rfl

variable [Cell α] {s s' : Managed α} {matrix : InCore α} {m : Dense α} {k : Int}
  {keys : Option GivenKeys} {level : StorageLevel} {n : NodeId} {c : Checkpoint α}

/-- What can be distributed becomes a leaf. -/
theorem exists_leaf_iff (hmatrix : matrix.toDense .notDistributable = .ok m) :
    (∃ n c, (s.parallelize matrix k keys level).1 = .ok (.checkpoint n c)) ↔
      ∃ rows, distribute m k keys = .ok rows := by
  unfold parallelize
  rw [hmatrix]
  dsimp only
  cases distribute m k keys with
  | error error => simp
  | ok rows => simp

theorem distributed_of_ok (hmatrix : matrix.toDense .notDistributable = .ok m)
    (hc : (s.parallelize matrix k keys level).1 = .ok (.checkpoint n c)) :
    s.Distributed (s.parallelize matrix k keys level).2 matrix k keys level m n c := by
  rcases s.parallelize_cases matrix k keys level with ⟨error, h⟩ | ⟨m', n', c', hc', h⟩
  · rw [h] at hc
    cases hc
  · obtain rfl : m = m' := Except.ok.inj (hmatrix.symm.trans h.matrix)
    cases hc.symm.trans hc'
    exact h

namespace Distributed

variable (h : s.Distributed s' matrix k keys level m n c)

include h in
theorem rows_handle : c.rows = c.handle := by
  have hncol : c.ncol = m.ncol := congrArg Shape.ncol h.shape
  rw [Checkpoint.rows, hncol, ← h.ncol]

include h in
theorem nonZeros_eq : c.nonZeros = .known c.handle.collection.nonZeros := by
  obtain ⟨hlength, -, -⟩ := distribute_eq_ok h.rows
  rw [h.nonZeros, Collection.nonZeros, h.rows_eq, m.sum_nonZeros _ hlength]

include h in
theorem mem_rows {i : ℕ} {key : Key} {row : Row α} (hkey : (rowKeys m keys).keys[i]? = some key)
    (hrow : m.rows[i]? = some row) : (key, .plain row) ∈ c.handle.collection.rows := by
  have hcells : (m.rows.map Cells.plain)[i]? = some (.plain row) := by
    rw [List.getElem?_map, hrow]
    rfl
  rw [h.rows_eq]
  exact List.mem_of_getElem? (List.getElem?_zip_eq_some.2 ⟨hkey, hcells⟩)

variable (hkeys : (rowKeys m keys).keys.Perm (Key.positions m.nrow))

include h hkeys in
theorem numbered_handle : c.handle.collection.Numbered m.nrow :=
  ⟨Int.natCast_nonneg _, (show c.handle.collection.keys = _ from h.keys_eq) ▸ hkeys⟩

include h hkeys in
theorem wellFormed : c.handle.WellFormed := by
  have hncol : c.ncol = m.ncol := congrArg Shape.ncol h.shape
  rw [← h.rows_handle]
  refine h.shaped.wellFormed ((Int.natCast_nonneg m.ncol).trans_eq hncol.symm) h.plain ?_
  exact (h.numbered_handle hkeys).congr (congrArg Shape.nrow h.shape).symm

end Distributed

/-- **Gathering is inverse to distributing.** A matrix that can be held, with its positions in any
order as its keys, all of one type, is distributed over any number of partitions, provided that
there is room for the empty ones: there are exactly as many as asked for, of sizes that differ by
one at most and do not grow, and they list the rows in their order. Gathering them, with or without
a number of rows, puts each row at the position that is its key, and the count of the checkpoint is
that of what is gathered. -/
theorem parallelize_collect (s : Managed α) (hmatrix : matrix.toDense .notDistributable = .ok m)
    (hheld : @Cell.tooLarge? α _ m.nrow m.ncol = none) (hnrow : m.nrow ≤ 2 ^ 63)
    (hkeys : ∀ given ∈ keys, given.keys.Perm (Key.positions m.nrow))
    (htypes : ∀ given ∈ keys, ∃ t, ∀ u ∈ given.types, u = t) (hk : 1 ≤ k) (level : StorageLevel) :
    ((∃ n c, (s.parallelize matrix k keys level).1 = .ok (.checkpoint n c)) ↔
      k - m.nrow ≤ Capacity.memory) ∧
    ∀ n c, (s.parallelize matrix k keys level).1 = .ok (.checkpoint n c) →
      (c.handle.collection.partitions.length : Int) = k ∧
      (c.handle.collection.partitions.map List.length).Pairwise
        (fun size later => later ≤ size ∧ size ≤ later + 1) ∧
      c.handle.collection.partitions.flatten = (rowKeys m keys).keys.zip (m.rows.map .plain) ∧
      ∃ D, m.Arranged (rowKeys m keys).keys D ∧ c.handle.collect (some m.nrow) = .ok D ∧
        c.handle.collect none = .ok D ∧ c.nonZeros = .known D.nonZeros := by
  have hperm := rowKeys_perm hkeys
  have hlength : (rowKeys m keys).keys.length = m.nrow := by
    simpa [Key.positions] using hperm.length_eq
  have hints : ∀ key ∈ (rowKeys m keys).keys, key.type = .int := by
    intro key hkey
    obtain ⟨i, -, rfl⟩ := List.mem_map.1 (hperm.mem_iff.1 hkey)
    rfl
  obtain ⟨t, ht⟩ : ∃ t, ∀ u ∈ (rowKeys m keys).types, u = t := by
    cases keys with
    | none => exact ⟨.int, by simp [rowKeys, Key.type]⟩
    | some given => exact htypes given rfl
  have hdistribute := distribute_eq hlength ht hk
  have hint : ((rowKeys m keys).types.headD .int).isInt = true := by
    cases hhead : (rowKeys m keys).types with
    | nil => rfl
    | cons u rest =>
      have hu : u ∈ (rowKeys m keys).types := by simp [hhead]
      exact GivenKeys.isInt_of_mem_types hints hu
  refine ⟨?_, fun n c hc => ?_⟩
  · rw [exists_leaf_iff hmatrix, hdistribute, ← Capacity.sequence_eq_ok_iff (by omega)]
    simp [bind_eq_ok_iff, Unique.exists_iff]
  · have h := distributed_of_ok hmatrix hc
    obtain ⟨-, -, hspread⟩ := bind_eq_ok_iff.1 (hdistribute.symm.trans h.rows)
    have hspread := (Except.ok.inj hspread).symm
    have hpos : 0 < k.toNat := by omega
    obtain ⟨D, hsome, hnone, hshape, hplaced, hcount⟩ :=
      (h.wellFormed hperm).exists_collected (h.numbered_handle hperm) h.ncol
        ((congrArg (fun rows => rows.keyType.isInt) hspread).trans hint) hheld
    refine ⟨?_, ?_, h.rows_eq, D, ⟨hshape, fun i p hp => ?_⟩, hsome, hnone, ?_⟩
    · rw [hspread, Collection.length_partitions_spread _ hpos, Int.toNat_of_nonneg (by omega)]
    · rw [hspread, Collection.spread, Collection.lengths_cut (Collection.sum_evenSizes hpos)]
      exact Collection.pairwise_evenSizes _ _
    · obtain ⟨hi, -⟩ := List.getElem?_eq_some_iff.1 hp
      have hrow := List.getElem?_eq_getElem (l := m.rows) (by rw [m.length_rows, ← hlength]; exact hi)
      exact (hplaced p _ (h.mem_rows hp hrow)).trans hrow.symm
    · rw [h.nonZeros_eq, hcount]

/-! ### Two rows, the last one first -/

/-- The row of the key 1 is the second row of what is gathered. -/
theorem parallelize_collect_swapped : ∃ n c,
    ((Stage.ofScript [2 ^ 63]).managed.parallelize (.matrix swappedMatrix) 3
      (some (.plain [.int 1, .int 0])) .memoryOnly).1 = .ok (.checkpoint n c) ∧
    (c.handle.collection.partitions.length : Int) = 3 ∧
    c.handle.collection.partitions.flatten = [(.int 1, .plain [1.0]), (.int 0, .plain [2.0])] ∧
    ∃ D, D.rows[1]? = some [1.0] ∧ D.rows[0]? = some [2.0] ∧ c.handle.collect (some 2) = .ok D ∧
      c.handle.collect none = .ok D ∧ c.nonZeros = .known D.nonZeros := by
  have hkeys : ∀ given ∈ some (GivenKeys.plain [.int 1, .int 0]),
      given.keys.Perm (Key.positions swappedMatrix.nrow) ∧ ∃ t, ∀ u ∈ given.types, u = t := by
    rintro given ⟨⟩
    exact ⟨.swap (Key.int 0) (Key.int 1) [], .int, by simp [Key.type]⟩
  have hmatrix : (InCore.matrix swappedMatrix).toDense .notDistributable = .ok swappedMatrix := rfl
  obtain ⟨hleaf, hheld⟩ := parallelize_collect (k := 3) (Stage.ofScript [2 ^ 63]).managed hmatrix rfl
    (by decide) (fun given h => (hkeys given h).1) (fun given h => (hkeys given h).2) (by decide)
    .memoryOnly
  obtain ⟨n, c, hc⟩ := hleaf.2 (by decide)
  obtain ⟨hcount, -, hrows, D, hD, hsome, hnone, hnonZeros⟩ := hheld n c hc
  exact ⟨n, c, hc, hcount, hrows, D, hD.row 0 1 rfl, hD.row 1 0 rfl, hsome, hnone, hnonZeros⟩

/-- Nothing has `2⁶⁴` partitions. -/
theorem parallelize_beyond_room :
    ((Stage.ofScript [2 ^ 63]).managed.parallelize (.matrix swappedMatrix) (2 ^ 64) none
      .memoryOnly).1 = .error (.fault .overflow) := by
  rfl

end Managed

end RowAlgebra
