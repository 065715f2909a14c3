import RowAlgebra.Proofs.Exec.Layout
import RowAlgebra.Proofs.Exec.RowLocal

/-!
# Where rows are cut into partitions

A block function that is declared to keep the keys may still move rows to other ones, as long as it
changes the list that it was handed alike; so the tag of a handle does not pin down its keys. If
block functions treat each row on its own, it pins down how many rows there are in each partition but
the last, to which element-wise operators append (`Handle.CutBy`, `UnaryOp.kernel_cutBy`,
`BinaryOp.kernel_cutBy`). Handles that are cut alike have the same partition keys if they have the
same keys (`Collection.samePartitionKeys_iff_of_cuts`).
-/

namespace RowAlgebra

variable {α : Type}

/-- Lists that agree but for their last items agree if their sums do. -/
theorem eq_of_dropLast_of_sum {l m : List Nat} (hl : l ≠ []) (hm : m ≠ [])
    (h : l.dropLast = m.dropLast) (hsum : l.sum = m.sum) : l = m := by
  rw [← List.dropLast_append_getLast hl, ← List.dropLast_append_getLast hm, h] at hsum ⊢
  rw [List.sum_append, List.sum_append, List.sum_singleton, List.sum_singleton] at hsum
  rw [Nat.add_left_cancel hsum]

/-! ## Collections -/

namespace Collection

/-- The sizes of all partitions but the last. -/
def cuts (c : Collection α) : List Nat :=
  (c.partitions.map List.length).dropLast

theorem lengths_layout (c : Collection α) :
    c.layout.map List.length = c.partitions.map List.length := by
  rw [layout, partitionKeys, List.map_map, List.map_map]
  exact List.map_congr_left fun p _ => by simp

theorem lengths_settleFrom (call position : Nat) (ps : List (List (KeyedRow α))) :
    (settleFrom call position ps).map List.length = ps.map List.length := by
  induction ps generalizing position with
  | nil => rfl
  | cons p ps ih => rw [settleFrom, List.map_cons, List.map_cons, ih, List.length_map, List.length_zipIdx]

theorem cuts_eq_of_layout {c d : Collection α} (h : c.layout = d.layout) : c.cuts = d.cuts := by
  rw [cuts, cuts, ← lengths_layout, ← lengths_layout, h]

/-- Cut alike, the same keys in the same order are the same partition keys. -/
theorem samePartitionKeys_iff_of_cuts {c d : Collection α} (hc : c.partitions ≠ [])
    (hd : d.partitions ≠ []) (h : c.cuts = d.cuts) :
    c.samePartitionKeys d = true ↔ c.Valued ∧ c.keys.map Key.value? = d.keys.map Key.value? := by
  rw [samePartitionKeys_iff]
  refine and_congr_right fun _ => ⟨values_eq_of_layout, fun hkeys => ?_⟩
  have hflat (c : Collection α) : c.layout.flatten = c.keys.map Key.value? := by
    rw [layout, keys_eq_flatten, List.map_flatten]
  have hsum (c : Collection α) :
      (c.partitions.map List.length).sum = (c.keys.map Key.value?).length := by
    rw [List.length_map, keys, List.length_map, rows, List.length_flatten]
  refine List.eq_iff_flatten_eq.2 ⟨(hflat c).trans (hkeys.trans (hflat d).symm), ?_⟩
  rw [lengths_layout, lengths_layout]
  refine eq_of_dropLast_of_sum (by simpa using hc) (by simpa using hd) h ?_
  rw [hsum, hsum, hkeys]

end Collection

/-! ## Handles -/

/-- Whether keys have values and rows are cut as a tag says, as far as it is known. -/
structure Handle.CutBy (S : Tag → List Nat) (t : Tag) (g : Handle α) : Prop where
  valued : g.collection.Valued
  cuts : t ≠ .unknown → g.collection.cuts = S t

/-- Where layouts cut rows. -/
def Layouts.cuts (L : Layouts) (t : Tag) : List Nat :=
  ((L t).map List.length).dropLast

theorem Spread.cutBy {L : Layouts} {t : Tag} {g : Handle α} (hg : Spread L t g) :
    g.CutBy L.cuts t := by
  refine ⟨hg.valued, fun ht => ?_⟩
  rw [Collection.cuts, ← Collection.lengths_layout, hg.layout ht, Layouts.cuts]

namespace Handle

variable {S : Tag → List Nat} {t : Tag} {a b : Handle α}

theorem CutBy.unknown (h : a.collection.Valued) : a.CutBy S .unknown :=
  ⟨h, fun ht => absurd rfl ht⟩

theorem CutBy.of_keys (ha : a.CutBy S t)
    (h : b.collection.partitionKeys = a.collection.partitionKeys) : b.CutBy S t :=
  ⟨ha.valued.of_keys h, fun ht =>
    (Collection.cuts_eq_of_layout (Collection.layout_eq_of_keys h)).trans (ha.cuts ht)⟩

/-- Rows that are appended go to the last partition. -/
theorem appendToLast_cuts (extra : List (KeyedRow α)) (ps : List (List (KeyedRow α))) :
    Ensures (appendToLast extra ps) fun qs =>
      qs.length = ps.length ∧ (qs.map List.length).dropLast = (ps.map List.length).dropLast := by
  induction ps with
  | nil => exact Ends.error trivial
  | cons p ps ih =>
    cases ps with
    | nil => exact Ends.ok ⟨rfl, rfl⟩
    | cons q ps =>
      refine Ends.bind ih fun qs hqs => Ends.ok ⟨congrArg (· + 1) hqs.1, ?_⟩
      have hne : qs.map List.length ≠ [] := by
        intro hnil
        rw [List.map_eq_nil_iff.1 hnil] at hqs
        cases hqs.1
      rw [List.map_cons, List.dropLast_cons_of_ne_nil hne, hqs.2]
      rfl

variable [Cell α]

theorem combine_cuts (op : CellOp) (ncol : Int) :
    Ensures (a.combine op b ncol) fun g => g.collection.cuts = a.collection.cuts := by
  refine (Ends.any _).bind fun sides _ => ?_
  refine (a.collection.mapPartitions_keys fun p _ =>
    Collection.mapM_rows_keys p).bind fun merged hmerged => ?_
  have hcuts := Collection.cuts_eq_of_layout (Collection.layout_eq_of_keys hmerged)
  refine (Ends.any _).bind fun missing _ => ?_
  split
  · exact Ends.ok hcuts
  · exact (appendToLast_cuts missing merged.partitions).bind fun ps hps => Ends.ok (hps.2.trans hcuts)

/-- Block functions that treat each row on its own keep the sizes of partitions. -/
theorem mapBlock_cuts {f : BlockFunction α} {Occurs : Cells α → Prop} (hf : f.RowLocal Occurs)
    {n : Nat} (hrows : ∀ entry ∈ a.collection.rows, Occurs entry.2 ∧ entry.2.length = n)
    (contract : BlockContract) (call : Nat) :
    Ensures (mapBlock f contract call a) fun g => g.collection.cuts = a.collection.cuts := by
  obtain ⟨step, hstep⟩ := applyBlock_together hf contract
  have hlength : ∀ p ∈ a.collection.partitions,
      Ensures (applyBlock f contract p) fun q => p.length = q.length := by
    intro p hp
    have htogether := hstep n p fun entry he => hrows entry (Collection.mem_rows_of_mem hp he)
    cases hresult : applyBlock f contract p with
    | error e => exact Ends.error trivial
    | ok q =>
      exact Ends.ok (mapM_eq_ok_iff.1 ((together_eq_iff.1 htogether q).1 hresult)).length_eq
  have hparts : Ensures (a.collection.mapPartitions (applyBlock f contract)) fun c =>
      a.collection.partitions.map List.length = c.partitions.map List.length :=
    (Ends.mapM hlength).bind fun ps hps => Ends.ok <| by
      rw [← List.forall₂_eq_eq_eq, List.forall₂_map_left_iff, List.forall₂_map_right_iff]
      exact hps
  refine hparts.bind fun c hc => Ends.ok ?_
  change ((Collection.settleFrom call 0 c.partitions).map List.length).dropLast = _
  rw [Collection.lengths_settleFrom, ← hc]
  rfl

end Handle

/-! ## Whole operators -/

variable [Cell α] {S : Tag → List Nat} {a b : Handle α}

theorem UnaryOp.kernel_cutBy {blocks : BlockCatalogue α} {call : Nat} {s : Schema} {op : UnaryOp α}
    {Occurs : Cells α → Prop}
    (hlocal : ∀ fn ncol keepsKeys, op = .mapBlock fn ncol keepsKeys → (blocks fn).RowLocal Occurs)
    {kernel : Kernel α (Handle α)} (hk : op.kernel? blocks call (op.schema s) = some kernel)
    (ha : a.CutBy S s.tag) {n : Nat}
    (hrows : ∀ entry ∈ a.collection.rows, Occurs entry.2 ∧ entry.2.length = n) :
    Ensures (kernel.run a) (Handle.CutBy S (op.schema s).tag) := by
  cases op <;> cases hk
  case transpose =>
    exact (Ends.any _).bind fun n _ => (a.transposed_isSmall n).imp fun _ hs => .unknown hs.valued
  case selfGramian =>
    exact (Ends.any _).bind fun shape _ => (a.gramian_isSmall shape).imp fun _ hs => .unknown hs.valued
  case scalar op x => exact (a.withScalar_keys op x).imp fun _ hk => ha.of_keys hk
  case rowRange start stop => exact Ends.ok (.unknown (Collection.settle_valued call _))
  case rightMultiply m => exact (a.timesDense_keys m).imp fun _ hk => ha.of_keys hk
  case mapBlock fn ncol keepsKeys =>
    let contract : BlockContract := ⟨fn, ncol, keepsKeys⟩
    have hcuts := Handle.mapBlock_cuts (hlocal fn ncol keepsKeys rfl) hrows contract call
    refine ((a.mapBlock_valued (blocks fn) contract call).and hcuts).imp fun _ hg => ?_
    cases keepsKeys with
    | false => exact .unknown hg.1
    | true => exact ⟨hg.1, fun ht => hg.2.trans (ha.cuts ht)⟩

theorem BinaryOp.kernel_cutBy {l r : Schema} {op : BinaryOp} {kernel : Kernel α (Handle α × Handle α)}
    (hk : op.kernel? (op.schema l r) l.tag r.tag = some kernel) (ha : a.CutBy S l.tag)
    (hb : b.collection.Valued) : Ensures (kernel.run (a, b)) (Handle.CutBy S (op.schema l r).tag) := by
  cases op <;> cases hk
  case matMulTransA =>
    exact (Ends.any _).bind fun shape _ =>
      (a.transposedTimes_isSmall b shape _).imp fun _ hs => .unknown hs.valued
  case matMulTransB =>
    exact (Ends.any _).bind fun n _ => (a.timesTransposed_keys b n).imp fun _ hk =>
      .unknown (ha.valued.of_keys hk)
  case elementwise op =>
    refine (Ends.any _).bind fun n _ => ?_
    refine ((Handle.combine_valued op n ha.valued hb).and (Handle.combine_cuts op n)).imp
      fun g hg => ?_
    change Handle.CutBy S (if Tag.evident l.tag r.tag then l.tag else .unknown) g
    split
    · exact ⟨hg.1, fun ht => hg.2.trans (ha.cuts ht)⟩
    · exact .unknown hg.1

end RowAlgebra
