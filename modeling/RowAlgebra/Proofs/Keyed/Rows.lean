import RowAlgebra.Collection.Index
import RowAlgebra.Proofs.Exec.PlainRows
import RowAlgebra.Proofs.Exec.Positions
import RowAlgebra.Proofs.Keyed.Matrix

/-!
# Handles that hold keyed matrices

`h.Holds A` says that the handle `h` has each row of the keyed matrix `A` exactly once, in any order
and in any partition. Whoever looks a key up finds the row of its value (`Holds.find?_eq`). Operators
that go through the rows one by one turn a handle of `A` into one of `B` if they turn each entry of
`A` into that of `B` (`Holds.mapRows`). A handle with distinct keys and plain rows holds what is read
off it (`WellFormed.holds_matrix`).
-/

namespace RowAlgebra

variable {α : Type}

/-! ## Maps that succeed -/

namespace Collection

theorem mapPartitions_ok {c : Collection α} {f : List (KeyedRow α) → Except Error (List (KeyedRow α))}
    {g : List (KeyedRow α) → List (KeyedRow α)} (h : ∀ p ∈ c.partitions, f p = .ok (g p)) :
    c.mapPartitions f = .ok ⟨c.partitions.map g, c.keyType⟩ := by
  rw [mapPartitions, mapM_ok h]
  rfl

theorem mapM_rows_ok {f : KeyedRow α → Except Error (Cells α)} {g : KeyedRow α → Cells α}
    {p : List (KeyedRow α)} (h : ∀ entry ∈ p, f entry = .ok (g entry)) :
    (p.mapM fun entry => do return (entry.1, ← f entry)) =
      .ok (p.map fun entry => (entry.1, g entry)) := by
  refine mapM_ok fun entry he => ?_
  rw [h entry he]
  rfl

theorem rows_map (c : Collection α) (g : KeyedRow α → KeyedRow α) (t : KeyType) :
    (⟨c.partitions.map (List.map g), t⟩ : Collection α).rows = c.rows.map g :=
  List.map_flatten.symm

end Collection

/-! ## The rows of a keyed matrix -/

namespace KeyedMatrix

/-- Whether `vs` are the keys of a matrix, each of them once. -/
structure Enumerates (A : KeyedMatrix α) (vs : List KeyValue) : Prop where
  nodup : vs.Nodup
  toFinset : vs.toFinset = A.keys

namespace Enumerates

variable {A : KeyedMatrix α} {vs : List KeyValue} (h : A.Enumerates vs)

include h

theorem mem_iff {v : KeyValue} : v ∈ vs ↔ v ∈ A.keys := by
  rw [← h.toFinset, List.mem_toFinset]

theorem value?_key {v : KeyValue} (hv : v ∈ vs) : (A.key v).value? = some v :=
  A.value?_key v (h.mem_iff.1 hv)

theorem perm_positions {n : ℕ} (hA : A.Indexed n) : vs.Perm ((List.range n).map .ofNat) := by
  refine (List.perm_ext_iff_of_nodup h.nodup
    (List.nodup_range.map KeyValue.ofNat_injective)).2 fun v => ?_
  rw [h.mem_iff, hA.keys_eq]
  simp

end Enumerates

theorem mapM_entries {A B : KeyedMatrix α} {vs : List KeyValue}
    {f : KeyedRow α → Except Error (Cells α)} (hkey : ∀ v ∈ vs, B.key v = A.key v)
    (hf : ∀ v ∈ vs, f (A.entry v) = .ok (.plain (B.row v))) :
    ((vs.map A.entry).mapM fun entry => do return (entry.1, ← f entry)) = .ok (vs.map B.entry) := by
  induction vs with
  | nil => rfl
  | cons v vs ih =>
    obtain ⟨hv, hvs⟩ := List.forall_mem_cons.1 hkey
    obtain ⟨hfv, hfvs⟩ := List.forall_mem_cons.1 hf
    rw [List.map_cons, List.mapM_cons, hfv, ih hvs hfvs]
    change Except.ok ((A.key v, _) :: _) = _
    rw [← hv]
    rfl

theorem enumerates_ofFn (nrow ncol : ℕ) (f : ℕ → ℕ → α) :
    (ofFn nrow ncol f).Enumerates ((List.range nrow).map .ofNat) := by
  refine ⟨List.nodup_range.map KeyValue.ofNat_injective, ?_⟩
  ext v
  simp [ofFn, atPositions]

end KeyedMatrix

/-- A handle with at least one partition that has each row of a keyed matrix once. -/
structure Handle.Holds (h : Handle α) (A : KeyedMatrix α) : Prop where
  ncol : h.ncol = A.ncol
  partitions : h.collection.partitions ≠ []
  rows : ∃ vs, A.Enumerates vs ∧ h.collection.rows = vs.map A.entry

/-- A computation that comes to a handle of `A` with keys of a type, and never fails. -/
abbrev Makes (x : Except Error (Handle α)) (A : KeyedMatrix α) (t : KeyType) : Prop :=
  Ends x (fun h => h.Holds A ∧ h.collection.keyType = t) fun _ => False

namespace Handle.Holds

variable {h : Handle α} {A B : KeyedMatrix α}

theorem keys_eq {vs : List KeyValue} (hvs : A.Enumerates vs)
    (hrows : h.collection.rows = vs.map A.entry) :
    h.collection.keys.map Key.value? = vs.map some := by
  rw [Collection.keys, hrows, List.map_map, List.map_map]
  exact List.map_congr_left fun v hv => hvs.value?_key hv

theorem valued (hh : h.Holds A) : h.collection.Valued := by
  obtain ⟨vs, hvs, hrows⟩ := hh.rows
  intro k hk
  have hmem := List.mem_map_of_mem (f := Key.value?) hk
  rw [keys_eq hvs hrows] at hmem
  obtain ⟨v, -, hv⟩ := List.mem_map.1 hmem
  rw [← hv]
  rfl

theorem mem_rows (hh : h.Holds A) {entry : KeyedRow α} (he : entry ∈ h.collection.rows) :
    ∃ v ∈ A.keys, entry = A.entry v := by
  obtain ⟨vs, hvs, hrows⟩ := hh.rows
  rw [hrows] at he
  obtain ⟨v, hv, rfl⟩ := List.mem_map.1 he
  exact ⟨v, hvs.mem_iff.1 hv, rfl⟩

/-- A search through the rows finds the row of the value. -/
theorem findIn?_entries {vs : List KeyValue} (hnodup : vs.Nodup)
    (hvalue : ∀ v ∈ vs, (A.key v).value? = some v) {k : Key} {v : KeyValue} (hk : k.value? = some v) :
    Collection.findIn? k (vs.map A.entry) = if v ∈ vs then some (.plain (A.row v)) else none := by
  have hsame : ∀ w ∈ vs, k.same (A.key w) = true ↔ v = w := by
    intro w hw
    rw [Key.same_iff, hk, hvalue w hw]
    simp
  induction vs with
  | nil => rfl
  | cons w vs ih =>
    obtain ⟨hw, hnodup⟩ := List.nodup_cons.1 hnodup
    rw [List.map_cons, KeyedMatrix.entry, Collection.findIn?, ih hnodup (fun v hv => hvalue v (.tail _ hv))
      fun w hw => hsame w (.tail _ hw)]
    by_cases hv : v ∈ vs
    · simp [hv]
    · by_cases hvw : v = w
      · have hfound := (hsame w List.mem_cons_self).2 hvw
        simp [hvw, hw, hfound]
      · have hmissed : k.same (A.key w) = false :=
          Bool.eq_false_iff.2 fun heq => hvw ((hsame w List.mem_cons_self).1 heq)
        simp [hv, hvw, hmissed]

theorem find?_eq (hh : h.Holds A) {k : Key} {v : KeyValue} (hk : k.value? = some v) :
    h.collection.find? k = if v ∈ A.keys then some (.plain (A.row v)) else none := by
  obtain ⟨vs, hvs, hrows⟩ := hh.rows
  rw [Collection.find?, hrows, findIn?_entries hvs.nodup (fun v hv => hvs.value?_key hv) hk]
  simp only [hvs.mem_iff]

/-- What goes through the entries one by one makes a handle of their images. -/
theorem mapEntries (hh : h.Holds A) (hkeys : B.keys = A.keys) {g : KeyedRow α → KeyedRow α}
    (hg : ∀ v ∈ A.keys, g (A.entry v) = B.entry v) (t : KeyType) {ncol : Int} (hncol : ncol = B.ncol) :
    Holds ⟨⟨h.collection.partitions.map (List.map g), t⟩, ncol⟩ B := by
  obtain ⟨vs, hvs, hrows⟩ := hh.rows
  refine ⟨hncol, by simpa using hh.partitions, vs, ⟨hvs.nodup, hkeys ▸ hvs.toFinset⟩, ?_⟩
  rw [Collection.rows_map, hrows, List.map_map]
  exact List.map_congr_left fun v hv => hg v (hvs.mem_iff.1 hv)

/-- What computes each partition entry by entry makes a handle of the images. -/
theorem mapPartitions (hh : h.Holds A) (hkeys : B.keys = A.keys)
    (hkey : ∀ v ∈ A.keys, B.key v = A.key v) {f : KeyedRow α → Except Error (Cells α)}
    (hf : ∀ v ∈ A.keys, f (A.entry v) = .ok (.plain (B.row v))) :
    ∃ c : Collection α,
      h.collection.mapPartitions (fun p => p.mapM fun entry => do return (entry.1, ← f entry)) =
        .ok c ∧ c.keyType = h.collection.keyType ∧ Holds ⟨c, B.ncol⟩ B := by
  let g (entry : KeyedRow α) : Cells α := (f entry).toOption.getD entry.2
  have hg : ∀ v ∈ A.keys, f (A.entry v) = .ok (g (A.entry v)) ∧
      g (A.entry v) = .plain (B.row v) := by
    intro v hv
    have hplain : g (A.entry v) = .plain (B.row v) := by
      change (f (A.entry v)).toOption.getD _ = _
      rw [hf v hv]
      rfl
    exact ⟨(hf v hv).trans (congrArg Except.ok hplain.symm), hplain⟩
  have hok : ∀ p ∈ h.collection.partitions, (p.mapM fun entry => do return (entry.1, ← f entry)) =
      .ok (p.map fun entry => (entry.1, g entry)) := by
    refine fun p hp => Collection.mapM_rows_ok fun entry he => ?_
    obtain ⟨v, hv, rfl⟩ := hh.mem_rows (Collection.mem_rows_of_mem hp he)
    exact (hg v hv).1
  refine ⟨_, Collection.mapPartitions_ok hok, rfl, hh.mapEntries hkeys (fun v hv => ?_) _ rfl⟩
  exact Prod.ext (hkey v hv).symm (hg v hv).2

/-- A function on single rows turns the rows of `A` into those of `B`. -/
theorem mapRows (hh : h.Holds A) (hkeys : B.keys = A.keys) (hkey : ∀ v ∈ A.keys, B.key v = A.key v)
    {f : Cells α → Except Error (Cells α)}
    (hf : ∀ v ∈ A.keys, f (.plain (A.row v)) = .ok (.plain (B.row v))) :
    ∃ c : Collection α, h.collection.mapRows f = .ok c ∧ c.keyType = h.collection.keyType ∧
      Holds ⟨c, B.ncol⟩ B :=
  hh.mapPartitions hkeys hkey (f := fun entry => f entry.2) hf

/-- Where keys are positions, a handle has each of them once. -/
theorem keys_perm (hh : h.Holds A) {n : ℕ} (hA : A.Indexed n) :
    h.collection.keys.Perm ((List.range n).map fun (i : ℕ) => .int i) := by
  obtain ⟨vs, hvs, hrows⟩ := hh.rows
  have hkeys : h.collection.keys = vs.map A.key := by
    rw [Collection.keys, hrows, List.map_map]
    rfl
  rw [hkeys]
  refine ((hvs.perm_positions hA).map A.key).trans (List.Perm.of_eq ?_)
  rw [List.map_map]
  refine List.map_congr_left fun i hi => ?_
  obtain ⟨j, -, hj, hkey⟩ := hA.within _ (hA.complete i (List.mem_range.1 hi))
  obtain rfl := KeyValue.ofNat_injective hj
  exact hkey

/-- Handles with the same keys at the same places list their rows in one order. -/
theorem enumerates_both {g : Handle α} (hg : g.Holds A) (hh : h.Holds B)
    (hsame : g.collection.samePartitionKeys h.collection = true) :
    ∃ vs, A.Enumerates vs ∧ B.Enumerates vs ∧ g.collection.rows = vs.map A.entry ∧
      h.collection.rows = vs.map B.entry := by
  obtain ⟨-, hlayout⟩ := Collection.samePartitionKeys_iff.1 hsame
  obtain ⟨vs, hvs, hrows⟩ := hg.rows
  obtain ⟨ws, hws, hrows'⟩ := hh.rows
  have hvalues := Collection.values_eq_of_layout hlayout
  rw [keys_eq hvs hrows, keys_eq hws hrows'] at hvalues
  obtain rfl : vs = ws := List.map_injective_iff.2 (Option.some_injective _) hvalues
  exact ⟨vs, hvs, hws, hrows, hrows'⟩

end Handle.Holds

/-! ## What a handle holds -/

/-- A handle that can be read as a matrix: its keys have distinct values, and all rows have as many
cells as there are columns. -/
structure Handle.WellFormed (h : Handle α) : Prop where
  ncol : 0 ≤ h.ncol
  partitions : h.collection.partitions ≠ []
  valued : h.collection.Valued
  distinct : (h.collection.keys.map Key.value?).Nodup
  width : ∀ entry ∈ h.collection.rows, ∃ row, entry.2 = .plain row ∧ row.length = h.ncol

theorem map_range_getD (l : List α) (d : α) :
    (List.range l.length).map (fun j => l.getD j d) = l := by
  refine List.ext_getElem (by simp) fun i h₁ h₂ => ?_
  simp [List.getElem?_eq_getElem h₂]

namespace Handle.WellFormed

variable {h : Handle α}

theorem rowAt?_eq (hh : h.WellFormed) {entry : KeyedRow α} (he : entry ∈ h.collection.rows)
    {v : KeyValue} (hv : entry.1.value? = some v) : h.rowAt? v = some entry := by
  obtain ⟨found, hfound⟩ := Option.isSome_iff_exists.1 (isSome_rowAt?.2 ⟨entry, he, hv⟩)
  have hmem := List.mem_of_find?_eq_some hfound
  have hdistinct : (h.collection.rows.map fun entry => entry.1.value?).Nodup := by
    have hd := hh.distinct
    rwa [Collection.keys, List.map_map] at hd
  rw [hfound, List.inj_on_of_nodup_map hdistinct hmem he ((value?_of_rowAt? hfound).trans hv.symm)]

theorem holds_matrix [Cell α] (hh : h.WellFormed) : h.Holds h.matrix := by
  have hvalue : ∀ k ∈ h.collection.keys, k.value?.map some = some k.value? := by
    intro k hk
    obtain ⟨v, hv⟩ := Option.isSome_iff_exists.1 (hh.valued k hk)
    rw [hv]
    rfl
  have hentry : ∀ entry ∈ h.collection.rows, entry.1.value?.map h.matrix.entry = some entry := by
    intro entry he
    obtain ⟨v, hv⟩ := Option.isSome_iff_exists.1 (hh.valued _ (List.mem_map_of_mem he))
    obtain ⟨row, hrow, hwidth⟩ := hh.width entry he
    have hfound := hh.rowAt?_eq he hv
    have hkey : h.matrix.key v = entry.1 := by
      change (h.rowAt? v).elim _ _ = _
      rw [hfound]
      rfl
    have hcells : h.matrix.row v = row := by
      have hcell : h.matrix.cell v = fun j => row.getD j Cell.zero := by
        funext j
        change (h.rowAt? v).elim _ _ = _
        rw [hfound]
        change (entry.2.plain?.getD []).getD j Cell.zero = _
        rw [hrow]
        rfl
      have hncol : h.matrix.ncol = row.length := by
        change h.ncol.toNat = _
        rw [← hwidth, Int.toNat_natCast]
      rw [KeyedMatrix.row, hcell, hncol, map_range_getD]
    rw [hv, Option.map_some, KeyedMatrix.entry, hkey, hcells, ← hrow]
  refine ⟨(Int.toNat_of_nonneg hh.ncol).symm, hh.partitions, h.collection.keys.filterMap Key.value?,
    ⟨?_, rfl⟩, ?_⟩
  · refine List.Nodup.of_map some ?_
    rw [List.map_filterMap, List.filterMap_congr hvalue, List.filterMap_eq_map']
    exact hh.distinct
  · rw [List.map_filterMap, Collection.keys, List.filterMap_map]
    exact ((List.filterMap_congr hentry).trans List.filterMap_some).symm

/-- Keys that are positions are those of the matrix that is read off. -/
theorem within [Cell α] (hh : h.WellFormed) {n : ℕ}
    (hkeys : ∀ k ∈ h.collection.keys, ∃ i : ℕ, i < n ∧ k = .int i) : h.matrix.Within n := by
  intro v hv
  obtain ⟨k, hk, hkv⟩ := List.mem_filterMap.1 (List.mem_toFinset.1 hv)
  obtain ⟨i, hi, rfl⟩ := hkeys k hk
  obtain rfl : v = .ofNat i := Option.some.inj (hkv.symm.trans (Key.value?_ofNat i))
  obtain ⟨entry, he, hentry⟩ := List.mem_map.1 hk
  have hfound := hh.rowAt?_eq he (hentry ▸ Key.value?_ofNat i)
  refine ⟨i, hi, rfl, ?_⟩
  change (h.rowAt? (.ofNat i)).elim _ _ = _
  rw [hfound]
  exact hentry

/-- If every position has a key, no row of the matrix that is read off is missing. -/
theorem indexed [Cell α] (hh : h.WellFormed) {n : ℕ}
    (hkeys : h.collection.keys.Perm ((List.range n).map fun (i : ℕ) => .int i)) :
    h.matrix.Indexed n := by
  have hmem (k : Key) : k ∈ h.collection.keys ↔ ∃ i : ℕ, i < n ∧ k = .int i := by
    simp [hkeys.mem_iff, eq_comm]
  refine ⟨hh.within fun k hk => (hmem k).1 hk, fun i hi => ?_⟩
  have hk := (hmem _).2 ⟨i, hi, rfl⟩
  exact List.mem_toFinset.2 (List.mem_filterMap.2 ⟨_, hk, Key.value?_ofNat i⟩)

end Handle.WellFormed

/-- A handle of the shape of a schema is well-formed if its rows are plain and at positions. -/
theorem Handle.Shaped.wellFormed {h : Handle α} {s : Schema} (hs : h.Shaped s) (hncol : 0 ≤ s.ncol)
    (hp : h.Plain) (hn : h.collection.Numbered s.nrow) : h.WellFormed := by
  refine ⟨hs.ncol ▸ hncol, hs.partitions, hn.valued, ?_, fun entry he => ?_⟩
  · refine (hn.keys.map Key.value?).nodup_iff.2 ?_
    rw [List.map_map]
    refine List.nodup_range.map fun i j hij => ?_
    exact KeyValue.ofNat_injective (Option.some.inj hij)
  · obtain ⟨row, hrow⟩ := (hp entry he).exists_eq
    have hwidth := hs.width entry he
    rw [hrow] at hwidth
    exact ⟨row, hrow, hwidth.trans hs.ncol.symm⟩

/-- A handle has the cells of the matrix that it holds. -/
theorem Handle.Holds.cell_matrix [Cell α] {h : Handle α} {A : KeyedMatrix α} (hh : h.Holds A) {v : KeyValue}
    (hv : v ∈ A.keys) {j : ℕ} (hj : j < A.ncol) : h.matrix.cell v j = A.cell v j := by
  obtain ⟨vs, hvs, hrows⟩ := hh.rows
  have hmem : A.entry v ∈ h.collection.rows := by
    rw [hrows]
    exact List.mem_map_of_mem (hvs.mem_iff.2 hv)
  obtain ⟨found, hfound⟩ :=
    Option.isSome_iff_exists.1 (isSome_rowAt?.2 ⟨_, hmem, A.value?_key v hv⟩)
  obtain ⟨w, hw, rfl⟩ := hh.mem_rows (List.mem_of_find?_eq_some hfound)
  obtain rfl : w = v :=
    Option.some.inj ((A.value?_key w hw).symm.trans (value?_of_rowAt? hfound))
  change (h.rowAt? w).elim _ _ = _
  rw [hfound]
  simp [KeyedMatrix.entry, Cells.get, Cells.plain?, KeyedMatrix.row, hj]

end RowAlgebra
