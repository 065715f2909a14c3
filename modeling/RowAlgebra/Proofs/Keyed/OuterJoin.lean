import RowAlgebra.Proofs.Exec.Pairing
import RowAlgebra.Proofs.Keyed.Grids

/-!
# Element-wise operators as outer joins

Where no key comes twice in either operand, combining them cell by cell is an outer join by key
(`Handle.OuterJoin`): each key of either side is there once, its row is made of the rows of both
sides, with zeros for the one that is missing, and the keys that only the right side has follow the
others at the end of the last partition (`Handle.combine_outerJoin`). How the rows of the right side
are spread does not matter.
-/

namespace RowAlgebra

variable {α : Type}

/-! ## Distinct keys -/

namespace Key

/-- Keys that are the same are the same as the same keys. -/
theorem same_congr {k l : Key} (h : k.same l = true) (m : Key) : k.same m = l.same m :=
  Bool.eq_iff_iff.2 ⟨fun hk => same_trans (same_symm h) hk, fun hl => same_trans h hl⟩

/-- Of distinct keys, one at most is the same as a given key. -/
theorem countP_same {keys : List Key} (h : keys.Pairwise fun k l => k.same l = false) (k : Key) :
    keys.countP k.same = if keys.any k.same then 1 else 0 := by
  induction keys with
  | nil => rfl
  | cons l keys ih =>
    obtain ⟨hl, hkeys⟩ := List.pairwise_cons.1 h
    rw [List.countP_cons, List.any_cons, ih hkeys]
    by_cases hkl : k.same l = true
    · have hothers : keys.any k.same = false := by
        refine List.any_eq_false.2 fun m hm => ?_
        rw [same_congr hkl, hl m hm]
        exact Bool.false_ne_true
      simp [hkl, hothers]
    · simp [hkl]

end Key

namespace Collection

variable {rows : List (KeyedRow α)}

theorem findIn?_congr {k l : Key} (h : k.same l = true) : findIn? k rows = findIn? l rows := by
  induction rows with
  | nil => rfl
  | cons entry rows ih => rw [findIn?, findIn?, ih, Key.same_congr h]

/-- Where no key comes twice, a search finds the only row whose key is the same. -/
theorem findIn?_of_distinct (h : (rows.map Prod.fst).Pairwise fun k l => k.same l = false)
    {k key : Key} {row : Cells α} (hmem : (key, row) ∈ rows) (hk : k.same key = true) :
    findIn? k rows = some row := by
  induction rows with
  | nil => cases hmem
  | cons entry rows ih =>
    obtain ⟨hentry, hrows⟩ := List.pairwise_cons.1 h
    rw [findIn?]
    rcases List.mem_cons.1 hmem with rfl | hmem
    · have hrest : findIn? k rows = none := by
        refine findIn?_eq_none fun other ho => ?_
        rw [Key.same_congr hk]
        exact hentry _ (List.mem_map_of_mem ho)
      rw [hrest, hk]
      rfl
    · rw [ih hrows hmem]

theorem hasKey_iff {c : Collection α} {k : Key} :
    c.hasKey k = true ↔ ∃ entry ∈ c.rows, k.same entry.1 = true := by
  rw [hasKey, keys, List.any_map, List.any_eq_true]
  rfl

theorem hasKey_congr {c : Collection α} {k l : Key} (h : k.same l = true) :
    c.hasKey k = c.hasKey l := by
  rw [← isSome_find?_eq_hasKey, ← isSome_find?_eq_hasKey, find?, find?, findIn?_congr h]

/-! ## Going through the rows -/

/-- A row has been computed, and stays under its key. -/
def Computed (f : KeyedRow α → Except Error (Cells α)) (entry new : KeyedRow α) : Prop :=
  new.1 = entry.1 ∧ f entry = .ok new.2

variable {f : KeyedRow α → Except Error (Cells α)}

/-- The computation of a row that ends as it should, or fails in some way. -/
theorem computed_ends {Bad : Error → Prop} {entry : KeyedRow α} (h : Fails (f entry) Bad) :
    Ends (do return (entry.1, ← f entry)) (Computed f entry) Bad := by
  cases hf : f entry with
  | ok row => exact Ends.ok ⟨rfl, hf⟩
  | error e => exact h.of_error hf

theorem mapM_computed {Bad : Error → Prop} {rows : List (KeyedRow α)}
    (h : ∀ entry ∈ rows, Fails (f entry) Bad) :
    Ends (rows.mapM fun entry => do return (entry.1, ← f entry))
      (List.Forall₂ (Computed f) rows) Bad :=
  Ends.mapM fun entry hentry => computed_ends (h entry hentry)

theorem mapPartitions_computed {Bad : Error → Prop} {c : Collection α}
    (h : ∀ entry ∈ c.rows, Fails (f entry) Bad) :
    Ends (c.mapPartitions fun p => p.mapM fun entry => do return (entry.1, ← f entry))
      (fun d => List.Forall₂ (List.Forall₂ (Computed f)) c.partitions d.partitions ∧
        d.keyType = c.keyType) Bad := by
  refine Ends.bind (Ends.mapM fun p hp => ?_) fun ps hps => Ends.ok ⟨hps, rfl⟩
  exact mapM_computed fun entry hentry => h entry (mem_rows_of_mem hp hentry)

theorem keys_of_computed {rows new : List (KeyedRow α)}
    (h : List.Forall₂ (Computed f) rows new) : new.map Prod.fst = rows.map Prod.fst := by
  induction h with
  | nil => rfl
  | cons hentry _ ih => exact congrArg₂ List.cons hentry.1 ih

theorem partitionKeys_of_computed {c d : Collection α}
    (h : List.Forall₂ (List.Forall₂ (Computed f)) c.partitions d.partitions) :
    d.partitionKeys = c.partitionKeys := by
  rw [partitionKeys, partitionKeys]
  generalize c.partitions = ps at h ⊢
  generalize d.partitions = qs at h ⊢
  induction h with
  | nil => rfl
  | cons hp _ ih => exact congrArg₂ List.cons (keys_of_computed hp) ih

/-- Each row has been computed. -/
theorem exists_of_computed {rows new : List (KeyedRow α)} (h : List.Forall₂ (Computed f) rows new)
    {entry : KeyedRow α} (hmem : entry ∈ rows) :
    ∃ row, (entry.1, row) ∈ new ∧ f entry = .ok row := by
  induction h with
  | nil => cases hmem
  | @cons first found rows new hfirst _ ih =>
    rcases List.mem_cons.1 hmem with rfl | hmem
    · exact ⟨found.2, hfirst.1 ▸ List.mem_cons_self, hfirst.2⟩
    · obtain ⟨row, hrow, hok⟩ := ih hmem
      exact ⟨row, List.mem_cons_of_mem _ hrow, hok⟩

end Collection

/-- Rows of one width are combined cell by cell. -/
theorem Cells.combine_plain [Cell α] (op : CellOp) {x y : Row α} (h : x.length = y.length) :
    combine op (.plain x) (.plain y) = .ok (.plain (List.zipWith op.apply x y)) := by
  rw [combine, Row.combine, Row.paired_ok h]
  change Except.ok (plain ((x.zip y).map _)) = _
  rw [List.zip, List.map_zipWith]

namespace Handle

theorem appendToLast_concat (extra last : List (KeyedRow α)) (ps : List (List (KeyedRow α))) :
    appendToLast extra (ps ++ [last]) = .ok (ps ++ [last ++ extra]) := by
  induction ps with
  | nil => rfl
  | cons p ps ih =>
    cases ps with
    | nil => rfl
    | cons q ps =>
      rw [List.cons_append, List.cons_append, appendToLast]
      · rw [← List.cons_append, ih]
        rfl
      · simp

/-- The keys that only `b` has. -/
def keysOnlyIn (a b : Handle α) : List Key :=
  b.collection.keys.filter fun k => !a.collection.hasKey k

theorem keysOnlyIn_eq_nil_iff {a b : Handle α} :
    a.keysOnlyIn b = [] ↔ ∀ k ∈ b.collection.keys, a.collection.hasKey k = true := by
  rw [keysOnlyIn, List.filter_eq_nil_iff]
  simp

/-- Together with those of `a`, they are as distinct as the keys of either side. -/
theorem distinct_joined {a b : Handle α} (ha : a.collection.DistinctKeys)
    (hb : b.collection.DistinctKeys) :
    (a.collection.keys ++ a.keysOnlyIn b).Pairwise fun k l => k.same l = false := by
  refine List.pairwise_append.2 ⟨ha, List.Pairwise.sublist List.filter_sublist hb, ?_⟩
  intro k hk l hl
  obtain ⟨-, hmissing⟩ := List.mem_filter.1 hl
  refine Bool.eq_false_iff.2 fun hsame => ?_
  rw [Collection.hasKey, Bool.not_eq_true', List.any_eq_false] at hmissing
  exact hmissing k hk (Key.same_symm hsame)

theorem any_joined (a b : Handle α) (k : Key) :
    (a.collection.keys ++ a.keysOnlyIn b).any k.same =
      (a.collection.hasKey k || b.collection.hasKey k) := by
  rw [List.any_append, keysOnlyIn, List.any_filter]
  change (a.collection.hasKey k || _) = _
  cases hk : a.collection.hasKey k with
  | true => rfl
  | false =>
    -- none of the keys that are the same is one of `a`
    have hmissing (l : Key) : (!a.collection.hasKey l && k.same l) = k.same l := by
      cases hl : k.same l with
      | true => rw [← Collection.hasKey_congr hl, hk]; rfl
      | false => exact Bool.and_false _
    simp only [hmissing, Bool.false_or]
    rfl

variable [Cell α]

/-- The cells of the row of a key, which are zeros where there is no row. -/
def cellsAt (h : Handle α) (w : ℕ) (k : Key) : Cells α :=
  (h.collection.find? k).getD (.plain (List.replicate w Cell.zero))

/-- The handle `g` joins the rows of `a` and `b` by their keys. -/
structure OuterJoin (op : CellOp) (a b : Handle α) (w : ℕ) (g : Handle α) : Prop where
  ncol : g.ncol = w
  keyType : g.collection.keyType = a.collection.keyType
  /-- Each key of either side is there once, and no other. -/
  once : ∀ k, g.collection.keys.countP k.same =
    if a.collection.hasKey k || b.collection.hasKey k then 1 else 0
  row : ∀ k, (a.collection.hasKey k || b.collection.hasKey k) = true → ∃ row,
    g.collection.find? k = some row ∧ Cells.combine op (a.cellsAt w k) (b.cellsAt w k) = .ok row
  /-- The keys that only `b` has stand behind those of `a` in the last partition. -/
  partitionKeys : ∃ ps last, a.collection.partitionKeys = ps ++ [last] ∧
    g.collection.partitionKeys = ps ++ [last ++ a.keysOnlyIn b]

variable {op : CellOp} {a b g : Handle α} {w : ℕ}

/-- How two matrices are combined: the rows of `a` are computed where they are, the rows that only `b`
has are computed apart, and these are put behind the others. -/
structure Combined (op : CellOp) (a b : Handle α) (w : ℕ) (g : Handle α) : Prop where
  ncol : g.ncol = w
  keyType : g.collection.keyType = a.collection.keyType
  parts : ∃ (ps : List (List (KeyedRow α))) (last extra : List (KeyedRow α)),
    g.collection.partitions = ps ++ [last ++ extra] ∧
    List.Forall₂ (Collection.Computed fun entry => entry.2.combine op (b.cellsAt w entry.1))
      a.collection.rows (ps ++ [last]).flatten ∧
    (ps ++ [last]).map (List.map Prod.fst) = a.collection.partitionKeys ∧
    List.Forall₂ (Collection.Computed fun entry =>
        Cells.combine op (.plain (List.replicate w Cell.zero)) entry.2)
      (b.collection.rows.filter fun entry => !a.collection.hasKey entry.1) extra

/-- Rows that are missing are put behind the last partition, if there are any. -/
theorem appended (hpartitions : a.collection.partitions ≠ []) {merged : Collection α}
    {extra : List (KeyedRow α)}
    (hmerged : List.Forall₂ (List.Forall₂ (Collection.Computed fun entry =>
      entry.2.combine op (b.cellsAt w entry.1))) a.collection.partitions merged.partitions)
    (htype : merged.keyType = a.collection.keyType)
    (hextra : List.Forall₂ (Collection.Computed fun entry =>
        Cells.combine op (.plain (List.replicate w Cell.zero)) entry.2)
      (b.collection.rows.filter fun entry => !a.collection.hasKey entry.1) extra)
    {Bad : Error → Prop} :
    Ends (if extra.isEmpty then .ok ⟨merged, w⟩
      else do return ⟨⟨← appendToLast extra merged.partitions, merged.keyType⟩, w⟩)
      (Combined op a b w) Bad := by
  have hkeys := Collection.partitionKeys_of_computed hmerged
  have hrows := List.rel_flatten hmerged
  obtain ⟨partitions, type⟩ := merged
  have hne : partitions ≠ [] := by
    rintro rfl
    exact hpartitions (List.map_eq_nil_iff.1 hkeys.symm)
  obtain ⟨ps, last, rfl⟩ : ∃ ps last, partitions = ps ++ [last] :=
    ⟨_, _, (List.dropLast_append_getLast hne).symm⟩
  rw [appendToLast_concat]
  cases extra with
  | nil =>
    exact Ends.ok ⟨rfl, htype, ps, last, [], by rw [List.append_nil], hrows, hkeys, hextra⟩
  | cons row extra =>
    exact Ends.ok ⟨rfl, htype, ps, last, row :: extra, rfl, hrows, hkeys, hextra⟩

/-- Combining two matrices fails only with what makes a row of zeros fail, or two rows that meet. -/
theorem combine_ends (hpartitions : a.collection.partitions ≠ []) {Bad : Error → Prop}
    (hzeros : Ends (Dense.sides α 1 w) (fun sides => sides.2 = w) Bad)
    (hleft : ∀ entry ∈ a.collection.rows,
      Fails (entry.2.combine op (b.cellsAt w entry.1)) Bad)
    (hright : ∀ entry ∈ b.collection.rows,
      Fails (Cells.combine op (.plain (List.replicate w Cell.zero)) entry.2) Bad) :
    Ends (a.combine op b w) (Combined op a b w) Bad := by
  have hfilter : (b.collection.rows.filter fun entry =>
      (a.collection.index.find? entry.1).isNone) =
      b.collection.rows.filter fun entry => !a.collection.hasKey entry.1 := by
    refine List.filter_congr fun entry _ => ?_
    rw [Collection.find?_index, ← Collection.isSome_find?_eq_hasKey, Option.not_isSome]
  rw [combine]
  refine hzeros.bind fun sides hsides => ?_
  dsimp only
  rw [hsides, hfilter]
  simp only [Collection.find?_index]
  refine (Collection.mapPartitions_computed hleft).bind fun merged hmerged => ?_
  refine (Collection.mapM_computed fun entry hentry =>
    hright entry (List.mem_of_mem_filter hentry)).bind fun extra hextra => ?_
  exact appended hpartitions hmerged.1 hmerged.2 hextra

/-- A row of zeros is as wide as it is asked for. -/
theorem sides_ensures (r c : ℕ) : Ensures (Dense.sides α r c) fun sides => sides.2 = c := by
  cases hheld : @Cell.tooLarge? α _ r c with
  | none =>
    rw [sides_of_held hheld]
    exact Ends.ok rfl
  | some kind =>
    rw [sides_of_not_held hheld]
    trivial

theorem cellsAt_congr {h : Handle α} {k l : Key} (hsame : k.same l = true) :
    h.cellsAt w k = h.cellsAt w l := by
  rw [cellsAt, cellsAt, Collection.find?, Collection.find?, Collection.findIn?_congr hsame]

theorem cellsAt_of_distinct {h : Handle α} (hdistinct : h.collection.DistinctKeys)
    {entry : KeyedRow α} (hmem : entry ∈ h.collection.rows) {k : Key} (hk : k.same entry.1 = true) :
    h.cellsAt w k = entry.2 := by
  rw [cellsAt, Collection.find?, Collection.findIn?_of_distinct hdistinct hmem hk]
  rfl

theorem cellsAt_of_missing {h : Handle α} {k : Key} (hk : h.collection.hasKey k = false) :
    h.cellsAt w k = .plain (List.replicate w Cell.zero) := by
  rw [← Collection.isSome_find?_eq_hasKey, Option.isSome_eq_false_iff,
    Option.isNone_iff_eq_none] at hk
  rw [cellsAt, hk]
  rfl

namespace Combined

variable (h : Combined op a b w g)

include h

theorem partitionKeys : ∃ ps last, a.collection.partitionKeys = ps ++ [last] ∧
    g.collection.partitionKeys = ps ++ [last ++ a.keysOnlyIn b] := by
  obtain ⟨ps, last, extra, hparts, -, hkeys, hextra⟩ := h.parts
  have honly : extra.map Prod.fst = a.keysOnlyIn b := by
    rw [Collection.keys_of_computed hextra, keysOnlyIn, Collection.keys, List.filter_map]
    rfl
  refine ⟨ps.map (List.map Prod.fst), last.map Prod.fst, ?_, ?_⟩
  · rw [← hkeys, List.map_append]
    rfl
  · rw [Collection.partitionKeys, hparts, List.map_append, List.map_singleton, List.map_append,
      honly]

theorem keys_eq : g.collection.keys = a.collection.keys ++ a.keysOnlyIn b := by
  obtain ⟨ps, last, ha, hg⟩ := h.partitionKeys
  rw [Collection.keys_eq_flatten, Collection.keys_eq_flatten, ha, hg]
  simp

theorem exists_left {entry : KeyedRow α} (hentry : entry ∈ a.collection.rows) :
    ∃ row, (entry.1, row) ∈ g.collection.rows ∧
      entry.2.combine op (b.cellsAt w entry.1) = .ok row := by
  obtain ⟨ps, last, extra, hparts, hrows, -, -⟩ := h.parts
  obtain ⟨row, hrow, hok⟩ := Collection.exists_of_computed hrows hentry
  refine ⟨row, ?_, hok⟩
  rw [Collection.rows, hparts]
  rw [List.flatten_concat] at hrow ⊢
  rw [← List.append_assoc]
  exact List.mem_append_left _ hrow

theorem exists_right {entry : KeyedRow α} (hentry : entry ∈ b.collection.rows)
    (honly : a.collection.hasKey entry.1 = false) :
    ∃ row, (entry.1, row) ∈ g.collection.rows ∧
      Cells.combine op (.plain (List.replicate w Cell.zero)) entry.2 = .ok row := by
  obtain ⟨ps, last, extra, hparts, -, -, hextra⟩ := h.parts
  have hmem : entry ∈ b.collection.rows.filter fun entry => !a.collection.hasKey entry.1 :=
    List.mem_filter.2 ⟨hentry, by rw [honly]; rfl⟩
  obtain ⟨row, hrow, hok⟩ := Collection.exists_of_computed hextra hmem
  refine ⟨row, ?_, hok⟩
  rw [Collection.rows, hparts, List.flatten_concat]
  exact List.mem_append_right _ (List.mem_append_right _ hrow)

theorem outerJoin (ha : a.collection.DistinctKeys) (hb : b.collection.DistinctKeys) :
    OuterJoin op a b w g := by
  have hdistinct : g.collection.keys.Pairwise fun k l => k.same l = false :=
    h.keys_eq ▸ distinct_joined ha hb
  refine ⟨h.ncol, h.keyType, fun k => ?_, fun k hk => ?_, h.partitionKeys⟩
  · rw [Key.countP_same hdistinct, h.keys_eq, any_joined]
  · cases hak : a.collection.hasKey k with
    | true =>
      obtain ⟨entry, hentry, hsame⟩ := Collection.hasKey_iff.1 hak
      obtain ⟨row, hrow, hok⟩ := h.exists_left hentry
      refine ⟨row, Collection.findIn?_of_distinct hdistinct hrow hsame, ?_⟩
      rw [cellsAt_of_distinct ha hentry hsame, cellsAt_congr hsame]
      exact hok
    | false =>
      rw [hak, Bool.false_or] at hk
      obtain ⟨entry, hentry, hsame⟩ := Collection.hasKey_iff.1 hk
      have honly : a.collection.hasKey entry.1 = false :=
        (Collection.hasKey_congr hsame).symm.trans hak
      obtain ⟨row, hrow, hok⟩ := h.exists_right hentry honly
      refine ⟨row, Collection.findIn?_of_distinct hdistinct hrow hsame, ?_⟩
      rw [cellsAt_of_missing hak, cellsAt_of_distinct hb hentry hsame]
      exact hok

end Combined

/-! ## Equal partition keys -/

namespace OuterJoin

theorem partitionKeys_eq_iff (h : OuterJoin op a b w g) :
    g.collection.partitionKeys = a.collection.partitionKeys ↔
      ∀ k ∈ b.collection.keys, a.collection.hasKey k = true := by
  obtain ⟨ps, last, ha, hg⟩ := h.partitionKeys
  rw [ha, hg, List.append_right_inj, List.singleton_inj, List.append_right_eq_self,
    keysOnlyIn_eq_nil_iff]

/-- It makes no difference whether keys are compared as they are or by what they stand for. -/
theorem samePartitionKeys_iff (h : OuterJoin op a b w g) (hvalued : a.collection.Valued) :
    g.collection.samePartitionKeys a.collection = true ↔
      ∀ k ∈ b.collection.keys, a.collection.hasKey k = true := by
  constructor
  · intro hsame
    obtain ⟨ps, last, ha, hg⟩ := h.partitionKeys
    have hlength := congrArg List.length
      (Collection.values_eq_of_layout (Collection.samePartitionKeys_iff.1 hsame).2)
    simp only [List.length_map, Collection.keys_eq_flatten, ha, hg, List.length_flatten,
      List.map_append, List.map_singleton, List.sum_append, List.sum_singleton,
      List.length_append] at hlength
    rw [← keysOnlyIn_eq_nil_iff, ← List.length_eq_zero_iff]
    omega
  · intro hall
    have heq := h.partitionKeys_eq_iff.2 hall
    exact Collection.samePartitionKeys_iff.2
      ⟨hvalued.of_keys heq, Collection.layout_eq_of_keys heq⟩

end OuterJoin

/-! ## Rows of plain cells -/

/-- Whether each row has `w` plain cells. -/
def Width (h : Handle α) (w : ℕ) : Prop :=
  ∀ entry ∈ h.collection.rows, ∃ row : Row α, entry.2 = .plain row ∧ row.length = w

/-- The plain cells of the row of a key, which are zeros where there is no row. -/
def rowAt (h : Handle α) (w : ℕ) (k : Key) : Row α :=
  (h.cellsAt w k).plain?.getD []

theorem Width.cellsAt {h : Handle α} (hw : h.Width w) (k : Key) :
    h.cellsAt w k = .plain (h.rowAt w k) ∧ (h.rowAt w k).length = w := by
  rw [rowAt, Handle.cellsAt]
  cases hfound : h.collection.find? k with
  | none => exact ⟨rfl, List.length_replicate⟩
  | some cells =>
    obtain ⟨entry, hentry, rfl⟩ := Collection.exists_of_find? hfound
    obtain ⟨row, hrow, hlength⟩ := hw entry hentry
    rw [Option.getD_some, hrow]
    exact ⟨rfl, hlength⟩

/-- Rows of one width meet without a failure, if there can be a row of zeros of that width. -/
theorem combine_ok (hpartitions : a.collection.partitions ≠ [])
    (hheld : @Cell.tooLarge? α _ 1 w = none) (ha : a.Width w) (hb : b.Width w) :
    ∃ g, a.combine op b w = .ok g := by
  have hmeet {x y : Row α} (hx : x.length = w) (hy : y.length = w) :
      Fails (Cells.combine op (.plain x) (.plain y)) fun _ => False := by
    rw [Cells.combine_plain op (hx.trans hy.symm)]
    exact .ok _
  have hzeros : Ends (Dense.sides α 1 w) (fun sides => sides.2 = w) fun _ => False := by
    have hsides : Dense.sides α 1 w = .ok (1, w) := sides_of_held hheld
    rw [hsides]
    exact Ends.ok rfl
  have hends : Ends (a.combine op b w) (Combined op a b w) fun _ => False := by
    refine combine_ends hpartitions hzeros (fun entry hentry => ?_) fun entry hentry => ?_
    · obtain ⟨row, hrow, hlength⟩ := ha entry hentry
      rw [hrow, (hb.cellsAt entry.1).1]
      exact hmeet hlength (hb.cellsAt entry.1).2
    · obtain ⟨row, hrow, hlength⟩ := hb entry hentry
      rw [hrow]
      exact hmeet List.length_replicate hlength
  obtain ⟨g, hg, -⟩ := hends.exists_ok
  exact ⟨g, hg⟩

theorem OuterJoin.find?_eq (h : OuterJoin op a b w g) (ha : a.Width w) (hb : b.Width w) {k : Key}
    (hk : (a.collection.hasKey k || b.collection.hasKey k) = true) :
    g.collection.find? k =
      some (.plain (List.zipWith op.apply (a.rowAt w k) (b.rowAt w k))) := by
  obtain ⟨hleft, hleftLength⟩ := ha.cellsAt k
  obtain ⟨hright, hrightLength⟩ := hb.cellsAt k
  obtain ⟨row, hfound, hrow⟩ := h.row k hk
  rw [hleft, hright, Cells.combine_plain op (hleftLength.trans hrightLength.symm)] at hrow
  rw [hfound, ← Except.ok.inj hrow]

/-- **An element-wise operator is an outer join by key.** Operations on cells are any functions
here. What is computed holds each key of either side once, under it the cells of both sides that are
combined, and its partitions are those of `a`, with the keys that only `b` has behind the last one;
they have the keys of `a` exactly if `b` has no other keys. Rows of one width fail only where no row of
zeros of that width can be held. -/
theorem combine_outerJoin (op : CellOp) {a b : Handle α} {w : ℕ}
    (hpartitions : a.collection.partitions ≠ []) (ha : a.collection.DistinctKeys)
    (hb : b.collection.DistinctKeys) :
    (∀ g, a.combine op b w = .ok g → OuterJoin op a b w g ∧
      (g.collection.partitionKeys = a.collection.partitionKeys ↔
        ∀ k ∈ b.collection.keys, a.collection.hasKey k = true) ∧
      (a.collection.Valued → (g.collection.samePartitionKeys a.collection = true ↔
        ∀ k ∈ b.collection.keys, a.collection.hasKey k = true))) ∧
    (a.Width w → b.Width w →
      (@Cell.tooLarge? α _ 1 w = none → ∃ g, a.combine op b w = .ok g ∧
        ∀ k, (a.collection.hasKey k || b.collection.hasKey k) = true → g.collection.find? k =
          some (.plain (List.zipWith op.apply (a.rowAt w k) (b.rowAt w k)))) ∧
      ∀ kind, @Cell.tooLarge? α _ 1 w = some kind →
        a.combine op b w = .error (.fault kind)) := by
  have hjoin (g : Handle α) (hg : a.combine op b w = .ok g) : OuterJoin op a b w g := by
    have hends : Ensures (a.combine op b w) (Combined op a b w) :=
      combine_ends hpartitions (sides_ensures 1 w) (fun _ _ => Ends.any _) fun _ _ => Ends.any _
    exact (hends.of_ok hg).outerJoin ha hb
  refine ⟨fun g hg => ?_, fun hwa hwb => ⟨fun hheld => ?_, fun kind hkind => ?_⟩⟩
  · exact ⟨hjoin g hg, (hjoin g hg).partitionKeys_eq_iff, (hjoin g hg).samePartitionKeys_iff⟩
  · obtain ⟨g, hg⟩ : ∃ g, a.combine op b w = .ok g := combine_ok hpartitions hheld hwa hwb
    exact ⟨g, hg, fun k hk => (hjoin g hg).find?_eq hwa hwb hk⟩
  · have hsides : Dense.sides α 1 w = .error (.fault kind) := sides_of_not_held hkind
    rw [combine, hsides]
    rfl

/-- Two rows in two partitions. -/
def upperRows : Handle ℚ :=
  ⟨⟨[[(.int 1, .plain [1, 2])], [(.int 0, .plain [3, 4])]], .int⟩, 2⟩

/-- A row that `upperRows` does not have, and one that it has in its first partition. -/
def lowerRows : Handle ℚ :=
  ⟨⟨[[(.int 2, .plain [5, 6]), (.int 1, .plain [7, 8])]], .int⟩, 2⟩

theorem combine_outerJoin_upperRows :
    upperRows.collection.DistinctKeys ∧ lowerRows.collection.DistinctKeys ∧
    ∃ g, upperRows.combine .minus lowerRows 2 = .ok g ∧ OuterJoin .minus upperRows lowerRows 2 g ∧
      g.collection.find? (.int 1) = some (.plain [1 - 7, 2 - 8]) ∧
      g.collection.find? (.int 2) = some (.plain [0 - 5, 0 - 6]) ∧
      g.collection.partitionKeys = [[.int 1], [.int 0, .int 2]] := by
  have hdistinct : upperRows.collection.DistinctKeys ∧ lowerRows.collection.DistinctKeys := by
    unfold Collection.DistinctKeys
    decide
  have hwidth : upperRows.Width 2 ∧ lowerRows.Width 2 := by
    constructor <;> simp [Width, upperRows, lowerRows, Collection.rows]
  obtain ⟨hany, hplain⟩ :=
    combine_outerJoin .minus (w := 2) (by simp [upperRows]) hdistinct.1 hdistinct.2
  obtain ⟨g, hg, hrow⟩ := (hplain hwidth.1 hwidth.2).1 rfl
  obtain ⟨hjoin, -⟩ := hany g hg
  refine ⟨hdistinct.1, hdistinct.2, g, hg, hjoin, hrow _ (by decide), hrow _ (by decide), ?_⟩
  cases hg
  rfl

end Handle

end RowAlgebra
