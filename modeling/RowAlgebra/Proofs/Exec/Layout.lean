import RowAlgebra.Proofs.Exec.Run
import RowAlgebra.Proofs.Key.Value

/-!
# Where operators leave their rows

A handle is `Spread L t` if all its keys have values and lie where the tag `t` says, as far as it is
known: `L` is the layout that each tag stands for. Operators that keep the tag of their input keep
its layout, and all others make settled keys (`UnaryOp.kernel_spread`, `BinaryOp.kernel_spread`). So
whatever is executed is spread as its tag says, if its leaves are (`exec_spread`). This needs that
declared block functions keep layouts (`BlockFunction.KeepsLayouts`). The check of their keys does not
see to it by itself: it compares them with the list that the function was handed, as that list is
after the call. Functions keep layouts that leave the list alone (`BlockFunction.LeavesHanded`).
-/

namespace RowAlgebra

variable {α : Type}

/-! ## Collections -/

namespace Collection

theorem layout_eq_of_keys {c d : Collection α} (h : c.partitionKeys = d.partitionKeys) :
    c.layout = d.layout := by
  rw [layout, layout, h]

theorem Valued.of_keys {c d : Collection α} (hd : d.Valued) (h : c.partitionKeys = d.partitionKeys) :
    c.Valued := by
  rw [Valued, keys_eq_flatten, h, ← keys_eq_flatten]
  exact hd

theorem values_eq_of_layout {c d : Collection α} (h : c.layout = d.layout) :
    c.keys.map Key.value? = d.keys.map Key.value? := by
  rw [keys_eq_flatten, keys_eq_flatten, List.map_flatten, List.map_flatten]
  exact congrArg List.flatten h

/-- A computation on partitions that keeps the keys of each keeps them all. -/
theorem mapPartitions_keys {f : List (KeyedRow α) → Except Error (List (KeyedRow α))}
    (c : Collection α)
    (hf : ∀ p ∈ c.partitions, Ensures (f p) fun q => q.map Prod.fst = p.map Prod.fst) :
    Ensures (c.mapPartitions f) fun d => d.partitionKeys = c.partitionKeys := by
  refine (Ends.mapM hf).bind fun ps hps => Ends.ok ?_
  change ps.map _ = c.partitions.map _
  generalize c.partitions = qs at hps
  induction hps with
  | nil => rfl
  | cons h _ ih => exact congrArg₂ List.cons h ih

theorem mapM_rows_keys {f : KeyedRow α → Except Error (Cells α)} (p : List (KeyedRow α)) :
    Ensures (p.mapM fun entry => do return (entry.1, ← f entry)) fun q =>
      q.map Prod.fst = p.map Prod.fst := by
  have hrow (entry : KeyedRow α) : Ensures (do return (entry.1, ← f entry) : Except Error (KeyedRow α))
      fun new => new.1 = entry.1 := (Ends.any (f entry)).bind fun _ _ => Ends.ok rfl
  refine (Ends.mapM fun entry _ => hrow entry).imp fun q hq => ?_
  induction hq with
  | nil => rfl
  | cons h _ ih => exact congrArg₂ List.cons h ih

theorem mapRows_keys (f : Cells α → Except Error (Cells α)) (c : Collection α) :
    Ensures (c.mapRows f) fun d => d.partitionKeys = c.partitionKeys :=
  c.mapPartitions_keys fun p _ => mapM_rows_keys p

theorem mem_cut {β : Type} {x : β} : ∀ {sizes : List Nat} {items : List β},
    x ∈ (cut sizes items).flatten → x ∈ items
  | [], _, h => by simp [cut] at h
  | size :: sizes, items, h => by
    rw [cut, List.flatten_cons, List.mem_append] at h
    rcases h with h | h
    · exact List.mem_of_mem_take h
    · exact List.mem_of_mem_drop (mem_cut h)

theorem settleFrom_valued (call : Nat) (position : Nat) (ps : List (List (KeyedRow α))) :
    ∀ entry ∈ (settleFrom call position ps).flatten, entry.1.value?.isSome = true := by
  induction ps generalizing position with
  | nil => simp [settleFrom]
  | cons p ps ih =>
    intro entry h
    rw [settleFrom, List.flatten_cons, List.mem_append] at h
    rcases h with h | h
    · obtain ⟨⟨old, i⟩, -, rfl⟩ := List.mem_map.1 h
      exact Key.isSome_value?_settle call i old.1
    · exact ih _ entry h

theorem settle_valued (call : Nat) (c : Collection α) : (c.settle call).Valued := by
  intro k hk
  obtain ⟨entry, h, rfl⟩ := List.mem_map.1 hk
  exact settleFrom_valued call 0 c.partitions entry h

/-- Keys with values are settled already. -/
theorem settleFrom_eq_self (call position : Nat) {ps : List (List (KeyedRow α))}
    (h : ∀ p ∈ ps, ∀ entry ∈ p, entry.1.value?.isSome = true) :
    settleFrom call position ps = ps := by
  induction ps generalizing position with
  | nil => rfl
  | cons p ps ih =>
    obtain ⟨hp, hps⟩ := List.forall_mem_cons.1 h
    rw [settleFrom, ih _ hps]
    congr 1
    refine List.ext_getElem (by simp) fun i h₁ h₂ => ?_
    simp [Key.settle_eq_self (hp _ (List.getElem_mem h₂))]

theorem settle_eq_self {c : Collection α} (h : c.Valued) (call : Nat) : c.settle call = c := by
  rw [settle, settleFrom_eq_self]
  intro p hp entry he
  exact h _ (List.mem_map_of_mem (List.mem_flatten_of_mem hp he))

/-- A key of one collection is found in the other one if both hold the same values. -/
theorem isSome_find?_of_layout {c d : Collection α} (hd : d.Valued) (h : c.layout = d.layout)
    {k : Key} (hk : k ∈ d.keys) : (c.find? k).isSome = true := by
  have hmem : k.value? ∈ c.keys.map Key.value? := by
    rw [values_eq_of_layout h]
    exact List.mem_map_of_mem hk
  obtain ⟨k', hk', hv⟩ := List.mem_map.1 hmem
  rw [isSome_find?_eq_hasKey, hasKey, List.any_eq_true]
  exact ⟨k', hk', Key.same_iff.2 ⟨hd k hk, hv.symm⟩⟩

end Collection

/-! ## Handles -/

theorem Dense.sides_ensures [Cell α] (nrow ncol : Int) :
    Ensures (Dense.sides α nrow ncol) fun sides => (sides.1 : Int) = nrow ∧ (sides.2 : Int) = ncol := by
  have hextent (n : Int) : Ensures (Dense.extent n) fun m => (m : Int) = n := by
    unfold Dense.extent
    split
    · exact Ends.error trivial
    · refine Ends.ok ?_
      omega
  refine (hextent nrow).bind fun r hr => (hextent ncol).bind fun c hc => ?_
  split
  · exact Ends.ok ⟨hr, hc⟩
  · exact Ends.error trivial

/-- The layout that each tag stands for. -/
abbrev Layouts := Tag → List (List (Option KeyValue))

/-- A handle whose keys have values, and lie where its tag says. -/
structure Spread (L : Layouts) (t : Tag) (h : Handle α) : Prop where
  valued : h.collection.Valued
  layout : t ≠ .unknown → h.collection.layout = L t

theorem Spread.unknown {L : Layouts} {h : Handle α}
    (hv : h.collection.Valued) : Spread L .unknown h :=
  ⟨hv, fun ht => absurd rfl ht⟩

theorem Spread.of_keys {L : Layouts} {t : Tag} {g h : Handle α}
    (hg : Spread L t g) (hk : h.collection.partitionKeys = g.collection.partitionKeys) :
    Spread L t h :=
  ⟨hg.valued.of_keys hk, fun ht => (Collection.layout_eq_of_keys hk).trans (hg.layout ht)⟩

/-- Tags stand for layouts if equal ones are those of equal layouts. -/
theorem Spread.exists_layouts (leaves : Set (Checkpoint α))
    (hvalued : ∀ c ∈ leaves, c.rows.collection.Valued)
    (htags : ∀ c ∈ leaves, ∀ d ∈ leaves, c.tag = d.tag → c.tag ≠ .unknown →
      c.rows.collection.layout = d.rows.collection.layout) :
    ∃ L, ∀ c ∈ leaves, Spread L c.tag c.rows := by
  classical
  let IsOf (t : Tag) (layout : List (List (Option KeyValue))) : Prop :=
    ∃ c ∈ leaves, c.tag = t ∧ c.rows.collection.layout = layout
  refine ⟨fun t => if h : ∃ layout, IsOf t layout then h.choose else [], fun c hc => ?_⟩
  refine ⟨hvalued c hc, fun ht => ?_⟩
  have hexists : ∃ layout, IsOf c.tag layout := ⟨_, c, hc, rfl, rfl⟩
  rw [dif_pos hexists]
  obtain ⟨d, hd, htag, hlayout⟩ := hexists.choose_spec
  exact (htags c hc d hd htag.symm ht).trans hlayout

theorem Spread.samePartitionKeys {L : Layouts} {t : Tag} {g h : Handle α} (hg : Spread L t g)
    (hh : Spread L t h) (ht : t ≠ .unknown) :
    g.collection.samePartitionKeys h.collection = true :=
  Collection.samePartitionKeys_iff.2 ⟨hg.valued, (hg.layout ht).trans (hh.layout ht).symm⟩

/-- Whether a block function leaves the list of keys alone that it is handed. -/
def BlockFunction.LeavesHanded (f : BlockFunction α) : Prop :=
  ∀ keys block result, f keys block = .ok result → result.handed = keys

namespace Handle

theorem numbered_key {first : Nat} {rows : List (Row α)} {entry : KeyedRow α}
    (h : entry ∈ numbered first rows) : ∃ n : Nat, entry.1 = .int n := by
  induction rows generalizing first with
  | nil => cases h
  | cons row rows ih =>
    rcases List.mem_cons.1 h with rfl | h
    · exact ⟨first, rfl⟩
    · exact ih h

theorem ofDense_valued (m : Dense α) (partitions : Nat) :
    (ofDense m partitions).collection.Valued := by
  intro k hk
  obtain ⟨entry, h, rfl⟩ := List.mem_map.1 hk
  obtain ⟨n, hn⟩ := numbered_key (Collection.mem_cut h)
  rw [hn]
  rfl

theorem appendToLast_ends (extra : List (KeyedRow α)) (ps : List (List (KeyedRow α))) :
    Ends (appendToLast extra ps) (fun qs => qs ≠ [] ∧ qs.flatten = ps.flatten ++ extra)
      fun _ => ps = [] := by
  induction ps with
  | nil => exact Ends.error rfl
  | cons p ps ih =>
    cases ps with
    | nil => exact Ends.ok ⟨List.cons_ne_nil _ _, by simp⟩
    | cons q ps =>
      refine Ends.bind (ih.mapBad fun _ h => absurd h (List.cons_ne_nil _ _)) fun qs hqs => Ends.ok ?_
      refine ⟨List.cons_ne_nil _ _, ?_⟩
      rw [List.flatten_cons, hqs.2, ← List.append_assoc]
      rfl

variable [Cell α]

/-! ## Small results -/

/-- A dense matrix of some shape that is spread over partitions. -/
def IsSmall (shape : Shape) (h : Handle α) : Prop :=
  ∃ (m : Dense α) (k : Nat), m.shape = shape ∧ h = ofDense m k

omit [Cell α] in
theorem IsSmall.valued {shape : Shape} {h : Handle α} (hs : IsSmall shape h) :
    h.collection.Valued := by
  obtain ⟨m, k, -, rfl⟩ := hs
  exact ofDense_valued m k

/-- What is gathered can be held. -/
theorem collect_sides (h : Handle α) (nrow : Int) :
    Ensures (h.collect nrow) fun m => Dense.sides α nrow h.ncol = .ok (m.nrow, m.ncol) := by
  unfold collect
  dsimp only
  split
  · exact Ends.error trivial
  · change Ends (Dense.sides α nrow h.ncol >>= fun sides => _) _ _
    exact (Ends.self _).bind fun sides hsides => (Ends.any _).bind fun cells _ => Ends.ok hsides

theorem collect_shape (h : Handle α) (nrow : Int) :
    Ensures (h.collect nrow) fun m => m.shape = ⟨nrow, h.ncol⟩ := by
  refine (h.collect_sides nrow).imp fun m hsides => ?_
  have hm := (Dense.sides_ensures nrow h.ncol).of_ok hsides
  exact congrArg₂ Shape.mk hm.1 hm.2

theorem transposed_isSmall (a : Handle α) (nrow : Int) :
    Ensures (a.transposed nrow) (IsSmall ⟨a.ncol, nrow⟩) := by
  refine (a.collect_shape nrow).bind fun m hm => Ends.ok ⟨m.transposed, _, ?_, rfl⟩
  obtain ⟨hnrow, hncol⟩ := Shape.mk.inj hm
  exact congrArg₂ Shape.mk hncol hnrow

theorem gramian_isSmall (a : Handle α) (shape : Shape) :
    Ensures (a.gramian shape) (IsSmall shape) := by
  refine (Dense.sides_ensures shape.nrow shape.ncol).bind fun (r, c) hsides => ?_
  exact (Ends.any _).bind fun cells _ =>
    Ends.ok ⟨⟨r, c, cells⟩, _, congrArg₂ Shape.mk hsides.1 hsides.2, rfl⟩

theorem transposedTimes_isSmall (a b : Handle α) (shape : Shape) (zippable : Bool) :
    Ensures (a.transposedTimes b shape zippable) (IsSmall shape) := by
  refine (Dense.sides_ensures shape.nrow shape.ncol).bind fun (r, c) hsides => ?_
  have hsmall (cells : Grid α r c) :
      IsSmall shape (ofDense ⟨r, c, cells⟩ a.collection.partitions.length) :=
    ⟨_, _, congrArg₂ Shape.mk hsides.1 hsides.2, rfl⟩
  cases zippable with
  | false => exact (Ends.any _).bind fun cells _ => Ends.ok (hsmall cells)
  | true =>
    dsimp only
    rw [if_pos rfl]
    split
    · exact (Ends.any _).bind fun cells _ => Ends.ok (hsmall cells)
    · exact Ends.error trivial

/-! ## Operators on single rows -/

theorem timesTransposed_keys (a b : Handle α) (ncol : Int) :
    Ensures (a.timesTransposed b ncol) fun h =>
      h.collection.partitionKeys = a.collection.partitionKeys :=
  (Ends.any _).bind fun _ _ => (Collection.mapRows_keys _ _).bind fun _ h => Ends.ok h

theorem timesDense_keys (a : Handle α) (m : Dense α) :
    Ensures (a.timesDense m) fun h => h.collection.partitionKeys = a.collection.partitionKeys :=
  (Collection.mapRows_keys _ _).bind fun _ h => Ends.ok h

theorem withScalar_keys (op : ScalarOp) (s : Scalar) (a : Handle α) :
    Ensures (a.withScalar op s) fun h => h.collection.partitionKeys = a.collection.partitionKeys :=
  (Collection.mapRows_keys _ _).bind fun _ h => Ends.ok h

/-! ## Element-wise operators -/

theorem evident_iff {s t : Tag} : Tag.evident s t = true ↔ s ≠ .unknown ∧ s = t := by
  simp [Tag.evident]

/-- The rows of the left operand stay where they are, and no others join them if the left operand
has all keys of the right one. -/
theorem combine_keys (op : CellOp) (ncol : Int) {a b : Handle α}
    (h : ∀ k ∈ b.collection.keys, (a.collection.find? k).isSome = true) :
    Ensures (a.combine op b ncol) fun g =>
      g.collection.partitionKeys = a.collection.partitionKeys := by
  have hnone : b.collection.rows.filter
      (fun entry => (a.collection.index.find? entry.1).isNone) = [] := by
    refine List.filter_eq_nil_iff.2 fun entry he => ?_
    have hfound := h entry.1 (List.mem_map_of_mem he)
    rw [← Collection.find?_index] at hfound
    simp [Option.isNone_iff_eq_none, Option.ne_none_iff_isSome, hfound]
  refine (Ends.any _).bind fun sides _ => ?_
  refine (a.collection.mapPartitions_keys fun p _ =>
    Collection.mapM_rows_keys p).bind fun merged hmerged => ?_
  rw [hnone]
  exact Ends.ok hmerged

theorem combine_valued (op : CellOp) (ncol : Int) {a b : Handle α} (ha : a.collection.Valued)
    (hb : b.collection.Valued) : Ensures (a.combine op b ncol) fun g => g.collection.Valued := by
  refine (Ends.any _).bind fun sides _ => ?_
  refine (a.collection.mapPartitions_keys fun p _ =>
    Collection.mapM_rows_keys p).bind fun merged hmerged => ?_
  refine Ends.bind (Collection.mapM_rows_keys _) fun missing hmissing => ?_
  have hleft : merged.Valued := ha.of_keys hmerged
  split
  · exact Ends.ok hleft
  · have happend := (appendToLast_ends missing merged.partitions).mapBad fun _ _ => trivial
    refine happend.bind fun ps hps => Ends.ok fun k hk => ?_
    have hsplit : k ∈ merged.keys ∨ k ∈ missing.map Prod.fst := by
      rw [← List.mem_append, Collection.keys, Collection.rows, ← List.map_append, ← hps.2]
      exact hk
    rcases hsplit with hk | hk
    · exact hleft k hk
    · rw [hmissing] at hk
      obtain ⟨entry, he, rfl⟩ := List.mem_map.1 hk
      exact hb _ (List.mem_map_of_mem (List.mem_of_mem_filter he))

/-- Operands that are partitioned alike have the same keys, so no rows are appended. -/
theorem combine_spread {L : Layouts} {s t : Tag} (op : CellOp)
    {a b : Handle α} (ha : Spread L s a) (hb : Spread L t b) (ncol : Int) :
    Ensures (a.combine op b ncol) (Spread L (if Tag.evident s t then s else .unknown)) := by
  split
  · next h =>
    obtain ⟨hs, rfl⟩ := evident_iff.1 h
    have hlayout := (ha.layout hs).trans (hb.layout hs).symm
    have hfound : ∀ k ∈ b.collection.keys, (a.collection.find? k).isSome = true :=
      fun _ hk => Collection.isSome_find?_of_layout hb.valued hlayout hk
    exact (combine_keys op ncol hfound).imp fun _ hk => ha.of_keys hk
  · exact (combine_valued op ncol ha.valued hb.valued).imp fun _ hv => .unknown hv

/-! ## Block functions -/

/-- Rows whose keys have the values of other keys. -/
def KeepsValues (p q : List (KeyedRow α)) : Prop :=
  (∀ k ∈ q.map Prod.fst, k.value?.isSome = true) ∧
    (q.map Prod.fst).map Key.value? = (p.map Prod.fst).map Key.value?

omit [Cell α] in
/-- The rows that a block function yields get the keys that it yields. -/
theorem enforce_fst (contract : BlockContract) (result : BlockResult (Dense α)) :
    Ensures (contract.enforce result) fun q => q.map Prod.fst = result.keys := by
  unfold BlockContract.enforce
  dsimp only
  split
  · exact Ends.error trivial
  · next hshape =>
    obtain ⟨hshape, hlength⟩ := not_or.1 hshape
    have hrows : result.keys.length ≤ (result.block.rows.map Cells.plain).length := by
      have hnrow := congrArg Shape.nrow (not_not.1 hshape)
      simp only [Dense.shape, Int.natCast_inj] at hnrow
      simp only [Dense.rows, List.length_map, Vector.length_toList] at hlength ⊢
      omega
    split
    · exact Ends.error trivial
    · exact Ends.ok (List.map_fst_zip hrows)

omit [Cell α] in
theorem enforce_keys {contract : BlockContract} (hc : contract.keepsKeys = true)
    {p : List (KeyedRow α)} {result : BlockResult (Dense α)}
    (hhanded : result.handed = p.map Prod.fst) :
    Ensures (contract.enforce result) (KeepsValues p) := by
  have hsame : Ensures (contract.enforce result) fun _ =>
      Key.sameAll result.keys (p.map Prod.fst) = true := by
    unfold BlockContract.enforce
    dsimp only
    split
    · exact Ends.error trivial
    · split
      · exact Ends.error trivial
      · next hkeys => exact Ends.ok (by simpa [hc, hhanded] using hkeys)
  refine ((enforce_fst contract result).and hsame).imp ?_
  rintro q ⟨hkeys, hq⟩
  exact Key.sameAll_iff.1 (hkeys ▸ hq)

theorem applyBlock_keys {f : BlockFunction α} (hf : f.LeavesHanded) {contract : BlockContract}
    (hc : contract.keepsKeys = true) (p : List (KeyedRow α)) :
    Ensures (applyBlock f contract p) (KeepsValues p) := by
  unfold applyBlock
  split
  · next hp =>
    obtain rfl := List.isEmpty_iff.1 hp
    exact Ends.ok ⟨nofun, rfl⟩
  · refine (Ends.any _).bind fun block _ => ?_
    cases hresult : f (p.map Prod.fst) block with
    | error error => exact Ends.error trivial
    | ok result =>
      exact Ends.bind (x := result.block.toDense) (Ends.any _) fun m _ =>
        enforce_keys hc (hf _ _ _ hresult)

omit [Cell α] in
theorem keepsValues_forall₂ {c d : Collection α}
    (h : List.Forall₂ KeepsValues c.partitions d.partitions) : d.Valued ∧ d.layout = c.layout := by
  rw [Collection.Valued, Collection.keys_eq_flatten]
  unfold Collection.layout Collection.partitionKeys
  generalize c.partitions = ps, d.partitions = qs at h
  induction h with
  | nil => exact ⟨fun k hk => absurd hk List.not_mem_nil, rfl⟩
  | cons hpq _ ih =>
    refine ⟨fun k hk => ?_, congrArg₂ List.cons hpq.2 ih.2⟩
    rcases List.mem_append.1 hk with hk | hk
    · exact hpq.1 k hk
    · exact ih.1 k hk

theorem mapBlock_valued (f : BlockFunction α) (contract : BlockContract) (call : Nat)
    (a : Handle α) : Ensures (mapBlock f contract call a) fun g => g.collection.Valued :=
  (Ends.any _).bind fun c _ => Ends.ok (Collection.settle_valued call c)

end Handle

namespace BlockFunction

variable [Cell α]

/-- Whether a block function keeps the layout of all rows, if it is declared to. -/
def KeepsLayouts (f : BlockFunction α) : Prop :=
  ∀ (contract : BlockContract) (call : Nat) (a : Handle α), contract.keepsKeys = true →
    a.collection.Valued → Ensures (Handle.mapBlock f contract call a) fun g =>
      g.collection.layout = a.collection.layout

theorem LeavesHanded.keepsLayouts {f : BlockFunction α} (hf : f.LeavesHanded) :
    f.KeepsLayouts := by
  intro contract call a hc _
  have hparts : Ensures (a.collection.mapPartitions (Handle.applyBlock f contract)) fun c =>
      List.Forall₂ Handle.KeepsValues a.collection.partitions c.partitions :=
    (Ends.mapM fun p _ => Handle.applyBlock_keys hf hc p).bind fun ps hps => Ends.ok hps
  refine hparts.bind fun c hps => Ends.ok ?_
  obtain ⟨hvalued, hlayout⟩ := Handle.keepsValues_forall₂ hps
  rw [Collection.settle_eq_self hvalued]
  exact hlayout

end BlockFunction

/-! ## Whole operators -/

variable {L : Layouts}

/-- Handles that are evidently partitioned alike have the same keys at the same places. -/
theorem Spread.samePartitionKeys_of_evident {s t : Tag} {g h : Handle α} (hg : Spread L s g)
    (hh : Spread L t h) (hevident : Tag.evident s t = true) :
    g.collection.samePartitionKeys h.collection = true := by
  obtain ⟨hknown, rfl⟩ := Handle.evident_iff.1 hevident
  exact hg.samePartitionKeys hh hknown

variable [Cell α]

theorem UnaryOp.kernel_spread {blocks : BlockCatalogue α} {call : Nat} {s : Schema}
    {op : UnaryOp α} {kernel : Kernel α (Handle α)}
    (h : op.kernel? blocks call (op.schema s) = some kernel)
    {a : Handle α} (ha : Spread L s.tag a)
    (hblock : ∀ fn ncol, op = .mapBlock fn ncol true →
      Ensures (kernel.run a) fun g => g.collection.layout = a.collection.layout) :
    Ensures (kernel.run a) (Spread L (op.schema s).tag) := by
  cases op <;> cases h
  case transpose =>
    exact (Ends.any _).bind fun n _ => (a.transposed_isSmall n).imp fun _ hs => .unknown hs.valued
  case selfGramian =>
    exact (Ends.any _).bind fun shape _ => (a.gramian_isSmall shape).imp fun _ hs => .unknown hs.valued
  case scalar op x => exact (a.withScalar_keys op x).imp fun _ hk => ha.of_keys hk
  case rowRange start stop => exact Ends.ok (.unknown (Collection.settle_valued call _))
  case rightMultiply m => exact (a.timesDense_keys m).imp fun _ hk => ha.of_keys hk
  case mapBlock fn ncol keepsKeys =>
    have hvalued := a.mapBlock_valued (blocks fn) ⟨fn, ncol, keepsKeys⟩ call
    cases keepsKeys with
    | false => exact hvalued.imp fun _ hv => .unknown hv
    | true =>
      exact (hvalued.and (hblock fn ncol rfl)).imp fun _ hg =>
        ⟨hg.1, fun ht => hg.2.trans (ha.layout ht)⟩

theorem BinaryOp.kernel_spread {l r : Schema} {op : BinaryOp}
    {kernel : Kernel α (Handle α × Handle α)}
    (h : op.kernel? (op.schema l r) l.tag r.tag = some kernel) {a b : Handle α}
    (ha : Spread L l.tag a) (hb : Spread L r.tag b) :
    Ensures (kernel.run (a, b)) (Spread L (op.schema l r).tag) := by
  cases op <;> cases h
  case matMulTransA =>
    exact (Ends.any _).bind fun shape _ =>
      (a.transposedTimes_isSmall b shape _).imp fun _ hs => .unknown hs.valued
  case matMulTransB =>
    exact (Ends.any _).bind fun n _ => (a.timesTransposed_keys b n).imp fun _ hk =>
      .unknown (ha.valued.of_keys hk)
  case elementwise op =>
    exact (Ends.any _).bind fun n _ => Handle.combine_spread op ha hb n

/-- Whatever is executed is spread as its tag says, if its leaves are and declared block functions
keep layouts. -/
theorem Expr.exec_spread {blocks : BlockCatalogue α} {e : Expr α}
    (hblocks : ∀ fn ncol, .mapBlock fn ncol true ∈ e.unaries → (blocks fn).KeepsLayouts)
    (h : ∀ i c, checkpoint i c ∈ e.walk → Spread L c.tag c.rows) (call : Nat) :
    Ensures (e.exec blocks call).result (Spread L e.tag) := by
  have hkeeps : Keeps blocks (fun e h => Spread L e.tag h) (fun _ => True) e.walk :=
    ⟨fun _ _ _ => trivial, h, fun i op a hx call kernel hk g hg => ?_,
      fun _ _ _ _ _ _ hk _ _ ha hb => BinaryOp.kernel_spread hk ha hb⟩
  · exact exec_ends hkeeps call
  · refine UnaryOp.kernel_spread hk hg fun fn ncol hop => ?_
    subst hop
    cases hk
    exact hblocks fn ncol (mem_unaries_of_mem_walk hx) _ _ g rfl hg.valued

end RowAlgebra
