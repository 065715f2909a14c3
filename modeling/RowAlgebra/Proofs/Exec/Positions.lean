import Mathlib.Data.List.Nodup
import RowAlgebra.Handle.StandardBlocks
import RowAlgebra.Proofs.Exec.Shapes

/-!
# Rows at positions

A collection is `Numbered` by `n` if its keys are the integers from zero up to, but without, `n`, each
of them once, in any order and in any partitions, and it is `InOrder` if they come in their natural
order. Operators whose block functions keep keys make the keys of their result of those of their
inputs alone (`UnaryOp.kernel_keys`, `BinaryOp.kernel_keys`). So they turn numbered inputs into a
numbered result, with as many rows as its schema says, and keep rows in order (`Expr.exec_numbered`,
`Expr.exec_inOrder`). All rows of a numbered handle have their place in a dense matrix, so gathering
it never fails with an index (`Handle.collect_in_bounds`).
-/

namespace RowAlgebra

variable {α : Type}

/-! ## Keys of positions -/

namespace Key

/-- The keys of the first `n` positions. -/
def positions (n : Int) : List Key :=
  (List.range n.toNat).map fun (i : ℕ) => .int i

theorem nodup_positions (n : Int) : (positions n).Nodup :=
  List.nodup_range.map fun _ _ hij => Int.natCast_inj.1 (Key.int.inj hij)

/-- The positions of a range, counted from its start. -/
theorem positions_selected {n start stop : Int} (hstart : 0 ≤ start) (hle : start ≤ stop)
    (hstop : stop ≤ n) :
    ((positions n).filter (Handle.inRange start stop)).map (Handle.rekeyed start) =
      positions (stop - start) := by
  obtain ⟨m, rfl⟩ := Int.eq_ofNat_of_zero_le hstart
  obtain ⟨k, rfl⟩ := Int.le.dest hle
  obtain ⟨l, rfl⟩ := Int.le.dest hstop
  have hlength : ((m : Int) + k + l).toNat = m + (k + l) := by omega
  have hwidth : ((m : Int) + k - m).toNat = k := by omega
  have hin (i : ℕ) : Handle.inRange m (m + k) (.int i) = decide (m ≤ i ∧ i < m + k) := by
    rw [Handle.inRange_int]
    exact decide_eq_decide.2 (by omega)
  -- The positions below the range, in it, and above it.
  rw [positions, positions, hlength, hwidth, List.range_add, List.range_add]
  simp only [List.map_append, List.map_map, List.filter_append]
  rw [List.filter_eq_nil_iff.2, List.filter_eq_self.2, List.filter_eq_nil_iff.2, List.map_nil,
    List.append_nil, List.nil_append, List.map_map]
  · refine List.map_congr_left fun i _ => ?_
    change Key.int (((m + i : ℕ) : Int) - m) = _
    congr 1
    omega
  all_goals
    simp only [List.forall_mem_map, List.mem_range, Function.comp_apply, hin, decide_eq_true_eq]
    omega

end Key

/-! ## Numbered collections -/

/-- A collection whose keys are the first `n` natural numbers. -/
structure Collection.Numbered (c : Collection α) (n : Int) : Prop where
  nonneg : 0 ≤ n
  keys : c.keys.Perm ((List.range n.toNat).map fun (i : ℕ) => .int i)

/-- A collection whose keys are the first `n` natural numbers, in their natural order. -/
structure Collection.InOrder (c : Collection α) (n : Int) : Prop where
  nonneg : 0 ≤ n
  keys : c.keys = Key.positions n

theorem Collection.InOrder.numbered {c : Collection α} {n : Int} (hc : c.InOrder n) :
    c.Numbered n :=
  ⟨hc.nonneg, .of_eq hc.keys⟩

theorem Collection.keys_eq_of_partitionKeys {c d : Collection α}
    (h : d.partitionKeys = c.partitionKeys) : d.keys = c.keys := by
  rw [keys_eq_flatten, h, ← keys_eq_flatten]

theorem Collection.keys_selected (c : Collection α) (start stop : Int) :
    (Handle.selected c start stop).keys =
      (c.keys.filter (Handle.inRange start stop)).map (Handle.rekeyed start) := by
  rw [Collection.keys, Handle.selected_rows, Collection.keys, List.filter_map, List.map_map,
    List.map_map]
  rfl

namespace Collection.Numbered

variable {c d : Collection α} {n : Int} (hc : c.Numbered n)

include hc in
theorem congr {m : Int} (h : n = m) : c.Numbered m :=
  h ▸ hc

include hc in
theorem length_rows : (c.rows.length : Int) = n := by
  have hlength := hc.keys.length_eq
  rw [Collection.keys, List.length_map, List.length_map, List.length_range] at hlength
  rw [hlength, Int.toNat_of_nonneg hc.nonneg]

include hc in
theorem mem_keys_iff {k : Key} : k ∈ c.keys ↔ ∃ i : ℕ, (i : Int) < n ∧ k = .int i := by
  rw [hc.keys.mem_iff, List.mem_map]
  constructor
  · rintro ⟨i, hi, rfl⟩
    rw [List.mem_range] at hi
    exact ⟨i, by omega, rfl⟩
  · rintro ⟨i, hi, rfl⟩
    exact ⟨i, List.mem_range.2 (by omega), rfl⟩

include hc in
theorem exists_int {k : Key} (hk : k ∈ c.keys) : ∃ i, k = .int i := by
  obtain ⟨i, -, rfl⟩ := hc.mem_keys_iff.1 hk
  exact ⟨i, rfl⟩

include hc in
theorem valued : c.Valued := by
  intro k hk
  obtain ⟨i, rfl⟩ := hc.exists_int hk
  rfl

include hc in
/-- A position has a row in every collection that is numbered alike. -/
theorem isSome_find? (hd : d.Numbered n) {k : Key} (hk : k ∈ d.keys) : (c.find? k).isSome = true := by
  have hmem : k ∈ c.keys := hc.mem_keys_iff.2 (hd.mem_keys_iff.1 hk)
  rw [isSome_find?_eq_hasKey, hasKey, List.any_eq_true]
  exact ⟨k, hmem, Key.same_self_iff.2 (hd.valued k hk)⟩

include hc in
/-- The positions of a range, counted from its start. -/
theorem selected {start stop : Int} (hstart : 0 ≤ start) (hle : start ≤ stop) (hstop : stop ≤ n) :
    (Handle.selected c start stop).Numbered (stop - start) := by
  refine ⟨by omega, ?_⟩
  rw [keys_selected]
  refine ((hc.keys.filter _).map _).trans (.of_eq ?_)
  exact Key.positions_selected hstart hle hstop

end Collection.Numbered

/-! ## Operators -/

/-- Whether a block function yields the keys that it was given, whenever it yields anything. -/
def BlockFunction.KeepsKeys (f : BlockFunction α) : Prop :=
  ∀ keys block result, f keys block = .ok result → result.keys = keys

theorem BlockFunction.onRows_keepsKeys (c : Nat → Nat)
    (f : Key → Row Float → Except Error (Row Float))
    (g : Key → Row Scalar → Except Error (Row Scalar)) : (onRows c f g).KeepsKeys := by
  intro keys block result h
  cases block with
  | plain m | mixed m =>
    obtain ⟨new, -, hnew⟩ := bind_eq_ok_iff.1 h
    cases hnew
    rfl

namespace Handle

theorem IsSmall.inOrder {shape : Shape} {h : Handle α} (hs : IsSmall shape h) :
    h.collection.InOrder shape.nrow := by
  obtain ⟨m, k, rfl, rfl⟩ := hs
  have hk : 0 < max 1 (min k m.nrow) := by omega
  refine ⟨Int.natCast_nonneg _, ?_⟩
  change (ofDense m k).collection.keys = Key.positions m.nrow
  rw [ofDense, Collection.keys, Collection.rows_spread _ hk, numbered_eq, Key.positions,
    Int.toNat_natCast, ← m.length_rows]
  refine List.ext_getElem (by simp) fun i h₁ h₂ => ?_
  simp

variable [Cell α] {a b : Handle α}

theorem applyBlock_keepsKeys {f : BlockFunction α} (hf : f.KeepsKeys) (contract : BlockContract)
    (p : List (KeyedRow α)) :
    Ensures (applyBlock f contract p) fun q => q.map Prod.fst = p.map Prod.fst := by
  unfold applyBlock
  split
  · next hp =>
    obtain rfl := List.isEmpty_iff.1 hp
    exact Ends.ok rfl
  · refine (Ends.any _).bind fun block _ => ?_
    cases hresult : f (p.map Prod.fst) block with
    | error error => exact Ends.error trivial
    | ok result =>
      refine Ends.bind (x := result.block.toDense) (Ends.any _) fun m _ => ?_
      exact (enforce_fst contract _).imp fun q hq => hq.trans (hf _ _ _ hresult)

theorem mapBlock_keys {f : BlockFunction α} (hf : f.KeepsKeys) (contract : BlockContract)
    (call : Nat) (ha : a.collection.Valued) :
    Ensures (mapBlock f contract call a) fun h =>
      h.collection.partitionKeys = a.collection.partitionKeys := by
  refine (a.collection.mapPartitions_keys fun p _ => applyBlock_keepsKeys hf contract p).bind
    fun c hc => Ends.ok ?_
  change (c.settle call).partitionKeys = _
  rw [Collection.settle_eq_self (ha.of_keys hc), hc]

end Handle

theorem BlockFunction.KeepsKeys.keepsLayouts [Cell α] {f : BlockFunction α} (hf : f.KeepsKeys) :
    f.KeepsLayouts :=
  fun contract call _ _ ha => (Handle.mapBlock_keys hf contract call ha).imp fun _ hk =>
    Collection.layout_eq_of_keys hk

/-! ## The keys of results -/

/-- The keys that an operator makes of those of an input with the schema `s`. -/
def UnaryOp.keys (s : Schema) (ks : List Key) : UnaryOp α → List Key
  | transpose | transposeAnyKey | selfGramian => Key.positions s.ncol
  | leftMultiply m => Key.positions m.nrow
  | rowRange start stop => (ks.filter (Handle.inRange start stop)).map (Handle.rekeyed start)
  | scalar _ _ | rightMultiply _ | mapBlock _ _ _ => ks

theorem UnaryOp.keys_perm {s : Schema} {ks ls : List Key} (h : ks.Perm ls) (op : UnaryOp α) :
    (op.keys s ks).Perm (op.keys s ls) := by
  cases op with
  | rowRange start stop => exact (h.filter _).map _
  | scalar | rightMultiply | mapBlock => exact h
  | transpose | transposeAnyKey | selfGramian | leftMultiply => exact .refl _

/-- Positions become positions. -/
theorem UnaryOp.keys_positions {s : Schema} {op : UnaryOp α} (hadm : op.admits s = .ok ()) :
    op.keys s (Key.positions s.nrow) = Key.positions (op.schema s).nrow := by
  cases op with
  | rowRange start stop =>
    obtain ⟨-, hstart, hle, n, hrows, hstop⟩ := admits_rowRange_iff.1 hadm
    have hnrow : s.nrow = n := congrArg Side.length hrows
    exact Key.positions_selected hstart hle (hnrow ▸ hstop)
  | _ => rfl

/-- The keys that an operator makes of those of its left input. -/
def BinaryOp.keys (l : Schema) (ks : List Key) : BinaryOp → List Key
  | matMulTransA => Key.positions l.ncol
  | matMul | matMulTransB | elementwise _ => ks

theorem BinaryOp.keys_perm {l : Schema} {ks ls : List Key} (h : ks.Perm ls) (op : BinaryOp) :
    (op.keys l ks).Perm (op.keys l ls) := by
  cases op with
  | matMulTransA => exact .refl _
  | matMul | matMulTransB | elementwise => exact h

theorem BinaryOp.keys_positions (l r : Schema) (op : BinaryOp) :
    op.keys l (Key.positions l.nrow) = Key.positions (op.schema l r).nrow := by
  cases op <;> rfl

namespace Expr

/-- Whether all block functions of an expression yield the keys that they are given. -/
def KeepsKeys (blocks : BlockCatalogue α) (e : Expr α) : Prop :=
  ∀ fn ncol keepsKeys, .mapBlock fn ncol keepsKeys ∈ e.unaries → (blocks fn).KeepsKeys

end Expr

variable [Cell α]

/-- Operators that keep keys make those of their result of those of their input. -/
theorem UnaryOp.kernel_keys {blocks : BlockCatalogue α} {call : Nat} {s : Schema}
    {op : UnaryOp α} (hadm : op.admits s = .ok ())
    (hblocks : ∀ fn ncol keepsKeys, op = .mapBlock fn ncol keepsKeys → (blocks fn).KeepsKeys)
    {kernel : Kernel α (Handle α)} (h : op.kernel? blocks call (op.schema s) = some kernel)
    {a : Handle α} (ha : a.Shaped s) (hn : a.collection.Numbered s.nrow) :
    Ensures (kernel.run a) fun g =>
      0 ≤ (op.schema s).nrow ∧ g.collection.keys = op.keys s a.collection.keys := by
  have hkept {x : Except Error (Handle α)} (hx : Ensures x fun g =>
      g.collection.partitionKeys = a.collection.partitionKeys) :
      Ensures x fun g => 0 ≤ s.nrow ∧ g.collection.keys = a.collection.keys :=
    hx.imp fun g hg => ⟨hn.nonneg, Collection.keys_eq_of_partitionKeys hg⟩
  have hsmall {shape : Shape} (hshape : shape.nrow = s.ncol) {g : Handle α}
      (hg : Handle.IsSmall shape g) : 0 ≤ s.ncol ∧ g.collection.keys = Key.positions s.ncol :=
    hshape ▸ ⟨hg.inOrder.nonneg, hg.inOrder.keys⟩
  cases op <;> cases h
  case transpose =>
    exact (Side.count_ensures _).bind fun n _ => (a.transposed_isSmall n).imp fun g => hsmall ha.ncol
  case selfGramian =>
    exact (Schema.shape_ensures _).bind fun shape hshape =>
      (a.gramian_isSmall shape).imp fun g => hsmall (congrArg Shape.nrow hshape)
  case scalar op x => exact hkept (a.withScalar_keys op x)
  case rowRange start stop =>
    obtain ⟨-, hstart, hle, n, hrows, hstop⟩ := admits_rowRange_iff.1 hadm
    have hnrow : s.nrow = n := congrArg Side.length hrows
    have hselected := hn.selected hstart hle (hnrow ▸ hstop)
    refine Ends.ok ⟨hselected.nonneg, ?_⟩
    change ((Handle.selected a.collection start stop).settle _).keys = _
    rw [Collection.settle_eq_self hselected.valued]
    exact Collection.keys_selected ..
  case rightMultiply m => exact hkept (a.timesDense_keys m)
  case mapBlock fn ncol keepsKeys =>
    exact hkept (Handle.mapBlock_keys (hblocks fn ncol keepsKeys rfl) _ call hn.valued)

theorem UnaryOp.kernel_numbered {blocks : BlockCatalogue α} {call : Nat} {s : Schema}
    {op : UnaryOp α} (hadm : op.admits s = .ok ())
    (hblocks : ∀ fn ncol keepsKeys, op = .mapBlock fn ncol keepsKeys → (blocks fn).KeepsKeys)
    {kernel : Kernel α (Handle α)} (h : op.kernel? blocks call (op.schema s) = some kernel)
    {a : Handle α} (ha : a.Shaped s) (hn : a.collection.Numbered s.nrow) :
    Ensures (kernel.run a) fun g => g.collection.Numbered (op.schema s).nrow := by
  refine (kernel_keys hadm hblocks h ha hn).imp fun g hg => ⟨hg.1, ?_⟩
  rw [hg.2]
  exact (op.keys_perm hn.keys).trans (.of_eq (keys_positions hadm))

theorem BinaryOp.kernel_keys {l r : Schema} {op : BinaryOp} (hadm : op.admits l r = .ok ())
    {kernel : Kernel α (Handle α × Handle α)}
    (h : op.kernel? (op.schema l r) l.tag r.tag = some kernel) {a b : Handle α}
    (ha : a.collection.Numbered l.nrow) (hb : b.collection.Numbered r.nrow) :
    Ensures (kernel.run (a, b)) fun g =>
      0 ≤ (op.schema l r).nrow ∧ g.collection.keys = op.keys l a.collection.keys := by
  have hkept {x : Except Error (Handle α)} (hx : Ensures x fun g =>
      g.collection.partitionKeys = a.collection.partitionKeys) :
      Ensures x fun g => 0 ≤ l.nrow ∧ g.collection.keys = a.collection.keys :=
    hx.imp fun g hg => ⟨ha.nonneg, Collection.keys_eq_of_partitionKeys hg⟩
  cases op <;> cases h
  case matMulTransA =>
    refine (Schema.shape_ensures _).bind fun shape hshape =>
      (a.transposedTimes_isSmall b shape _).imp fun g hg => ?_
    obtain rfl := hshape
    exact ⟨hg.inOrder.nonneg, hg.inOrder.keys⟩
  case matMulTransB =>
    exact (Side.count_ensures _).bind fun n _ => hkept (a.timesTransposed_keys b n)
  case elementwise op =>
    obtain ⟨⟨shape, hl, hr⟩, -⟩ := admits_elementwise_iff.1 hadm
    have hfit : r.rows = l.rows :=
      (Schema.shape_eq_ok_iff.1 hr).1.trans (Schema.shape_eq_ok_iff.1 hl).1.symm
    have hb' : b.collection.Numbered l.nrow := hb.congr (congrArg Side.length hfit)
    refine (Side.count_ensures _).bind fun n _ => hkept ?_
    exact Handle.combine_keys op n fun k hk => ha.isSome_find? hb' hk

/-! ## Whole executions -/

section Executions

variable {blocks : BlockCatalogue α} {e : Expr α} (hadm : ∀ x ∈ e.walk, x.Admitted)
  (hblocks : e.KeepsKeys blocks)

include hadm hblocks in
/-- Whatever is executed has keys that are related to the positions of its rows, if the keys of its
leaves are and operators keep the relation. -/
theorem Expr.exec_keys {R : List Key → List Key → Prop} (hperm : ∀ {ks ls}, R ks ls → ks.Perm ls)
    (hunary : ∀ (s : Schema) (op : UnaryOp α) {ks ls}, R ks ls → R (op.keys s ks) (op.keys s ls))
    (hbinary : ∀ (l : Schema) (op : BinaryOp) {ks ls}, R ks ls → R (op.keys l ks) (op.keys l ls))
    (hleaves : ∀ i c, checkpoint i c ∈ e.walk → c.rows.Shaped c.schema ∧ 0 ≤ c.nrow ∧
      R c.rows.collection.keys (Key.positions c.nrow)) (call : Nat) :
    Ensures (e.exec blocks call).result fun h =>
      h.Shaped e.schema ∧ 0 ≤ e.nrow ∧ R h.collection.keys (Key.positions e.nrow) := by
  have hkeeps : Keeps blocks (fun e h => h.Shaped e.schema ∧ 0 ≤ e.nrow ∧
      R h.collection.keys (Key.positions e.nrow)) (fun _ => True) e.walk := by
    refine ⟨fun _ _ _ => trivial, hleaves, ?_, ?_⟩
    · rintro i op a hx call kernel hk h ⟨hshaped, hnonneg, hkeys⟩
      refine (UnaryOp.kernel_shaped hk hshaped).and ((UnaryOp.kernel_keys (hadm _ hx)
        (fun fn ncol keeps hop => hblocks fn ncol keeps (hop ▸ mem_unaries_of_mem_walk hx)) hk
          hshaped ⟨hnonneg, hperm hkeys⟩).imp ?_)
      rintro g ⟨hnrow, hg⟩
      have hpositions : R _ (op.keys a.schema (Key.positions a.schema.nrow)) := hunary _ op hkeys
      rw [← hg, UnaryOp.keys_positions (hadm _ hx)] at hpositions
      exact ⟨hnrow, hpositions⟩
    · rintro i op a b hx kernel hk g h ⟨hleft, hnonneg, hkeys⟩ ⟨hright, hnonneg', hkeys'⟩
      refine (BinaryOp.kernel_shaped (hadm _ hx) hk hleft hright).and ((BinaryOp.kernel_keys
        (hadm _ hx) hk ⟨hnonneg, hperm hkeys⟩ ⟨hnonneg', hperm hkeys'⟩).imp ?_)
      rintro f ⟨hnrow, hf⟩
      have hpositions : R _ (op.keys a.schema (Key.positions a.schema.nrow)) := hbinary _ op hkeys
      rw [← hf, BinaryOp.keys_positions a.schema b.schema] at hpositions
      exact ⟨hnrow, hpositions⟩
  exact exec_ends hkeeps call

include hadm hblocks in
/-- Whatever is executed is numbered by its rows, if its leaves are and its block functions keep
keys. -/
theorem Expr.exec_numbered (hleaves : ∀ i c, checkpoint i c ∈ e.walk →
      c.rows.Shaped c.schema ∧ c.rows.collection.Numbered c.nrow) (call : Nat) :
    Ensures (e.exec blocks call).result fun h =>
      h.Shaped e.schema ∧ h.collection.Numbered e.nrow :=
  (exec_keys hadm hblocks (R := List.Perm) (fun h => h) (fun _ op _ _ h => op.keys_perm h)
    (fun _ op _ _ h => op.keys_perm h) (fun i c hc => (hleaves i c hc).imp_right fun hn =>
      ⟨hn.nonneg, hn.keys⟩) call).imp fun _ hg => ⟨hg.1, hg.2.1, hg.2.2⟩

include hadm hblocks in
/-- Whatever is executed lists its rows in order, if its leaves do and its block functions keep
keys. -/
theorem Expr.exec_inOrder (hleaves : ∀ i c, checkpoint i c ∈ e.walk →
      c.rows.Shaped c.schema ∧ c.rows.collection.InOrder c.nrow) (call : Nat) :
    Ensures (e.exec blocks call).result fun h =>
      h.Shaped e.schema ∧ h.collection.InOrder e.nrow :=
  (exec_keys hadm hblocks (R := Eq) List.Perm.of_eq (fun _ _ _ _ h => h ▸ rfl)
    (fun _ _ _ _ h => h ▸ rfl) (fun i c hc => (hleaves i c hc).imp_right fun hn =>
      ⟨hn.nonneg, hn.keys⟩) call).imp fun _ hg => ⟨hg.1, hg.2.1, hg.2.2⟩

end Executions

/-! ## Gathering -/

/-- An error that is not about an index. -/
def Error.NotIndex (e : Error) : Prop :=
  e.kind ≠ .index

/-- Cells whose failures are not about an index. -/
class UnindexedCell (α : Type) [Cell α] : Prop where
  ofScalar (s : Scalar) : Fails (Cell.ofScalar s : Except Error α) Error.NotIndex
  tooLarge {r c : Nat} {k : ErrorKind} (h : @Cell.tooLarge? α _ r c = some k) : k ≠ .index

instance : UnindexedCell Float where
  ofScalar s := by
    change Fails s.toFloat _
    unfold Scalar.toFloat
    split
    · split
      · exact Ends.ok trivial
      · exact Ends.error nofun
    · exact Ends.ok trivial
    · exact Ends.ok trivial
    · unfold Decimal.floatOfText
      split
      · split
        · exact Ends.ok trivial
        · exact Ends.error nofun
      · exact Ends.error nofun
    · exact Ends.error nofun
  tooLarge {r c k} h := by
    change Capacity.tableFault? r c = some k at h
    unfold Capacity.tableFault? at h
    split at h
    · cases h
      nofun
    · split at h <;> cases h
      nofun

namespace Key

/-- The largest of some integers is one of them, and bounds them all. -/
theorem largest_int {ks : List Key} (h : ∀ k ∈ ks, ∃ n, k = .int n) (m : Int) :
    ∃ b, largest (.int m) ks = .int b ∧ .int b ∈ .int m :: ks ∧
      ∀ n, .int n ∈ .int m :: ks → n ≤ b := by
  induction ks generalizing m with
  | nil => exact ⟨m, rfl, List.mem_singleton_self _, by simp⟩
  | cons k ks ih =>
    obtain ⟨⟨n, rfl⟩, hks⟩ := List.forall_mem_cons.1 h
    have hstep : largest (.int m) (.int n :: ks) = largest (.int (max m n)) ks := by
      change largest (if (Magnitude.ofInt m).below (Magnitude.ofInt n) = true then _ else _) ks = _
      simp only [Magnitude.below_ofInt, decide_eq_true_eq]
      split
      · rw [max_eq_right (by omega)]
      · rw [max_eq_left (by omega)]
    obtain ⟨b, hb, hmem, hall⟩ := ih hks (max m n)
    have hle := hall _ List.mem_cons_self
    refine ⟨b, hstep.trans hb, ?_, fun n' hn' => ?_⟩
    · simp only [List.mem_cons, int.injEq] at hmem ⊢
      rcases hmem with rfl | hmem
      · rcases Int.le_total m n with hmn | hmn
        · simp [max_eq_right hmn]
        · simp [max_eq_left hmn]
      · simp [hmem]
    · simp only [List.mem_cons, int.injEq] at hn' hall
      rcases hn' with rfl | rfl | hn'
      · omega
      · omega
      · exact hall n' (.inr hn')

end Key

section Gathering

variable [UnindexedCell α]

theorem Row.stretch_notIndex {β : Type} (n : Nat) (row : Row β) :
    Fails (Row.stretch n row) Error.NotIndex := by
  unfold Row.stretch
  split
  · exact Ends.ok trivial
  · split
    · exact Ends.ok trivial
    · exact Ends.error nofun

theorem Cells.stretch_notIndex (n : Nat) (row : Cells α) :
    Fails (row.stretch n) Error.NotIndex := by
  cases row with
  | plain row => exact Row.stretch_notIndex n row
  | mixed row =>
    have hcells := Fails.mapM (γ := α) UnindexedCell.ofScalar row
    rw [stretch]
    split
    · exact hcells.bind fun _ => Row.stretch_notIndex ..
    · exact Ends.error nofun

theorem Dense.sides_notIndex (r c : Int) : Fails (Dense.sides α r c) Error.NotIndex := by
  have hextent (n : Int) : Fails (Dense.extent n) Error.NotIndex := by
    unfold Dense.extent
    split
    · exact Ends.error nofun
    · exact Ends.ok trivial
  refine (hextent r).bind fun r => (hextent c).bind fun c => ?_
  split
  · exact Ends.ok trivial
  · next k h => exact Ends.error (UnindexedCell.tooLarge h)

namespace Handle

/-- A row whose key is a position in the grid has its place there. -/
theorem place_notIndex {r c : Nat} (grid : Grid α r c) {entry : KeyedRow α} {i : ℕ}
    (hi : (i : Int) < r) (hk : entry.1 = .int i) : Fails (place grid entry) Error.NotIndex := by
  have hrange : (0 : Int) ≤ i ∧ (i : Int) < r := by omega
  simp only [place, hk, if_pos hrange]
  exact (Cells.stretch_notIndex c entry.2).bind fun _ => Ends.ok trivial

omit [Cell α] [UnindexedCell α] in
/-- The rows up to the largest key are enough for all keys, and no fewer ones are. -/
theorem exists_openExtent {keys : List Key} (h : ∀ k ∈ keys, ∃ n, k = .int n) :
    ∃ b, openExtent keys = .ok b ∧ (∀ n, .int n ∈ keys → n < b) ∧
      (keys = [] ∧ b = 0 ∨ .int (b - 1) ∈ keys) := by
  let succ (k : Key) : Key := k.next.toOption.getD k
  have hnext : keys.mapM Key.next = .ok (keys.map succ) := by
    refine mapM_ok fun k hk => ?_
    obtain ⟨n, rfl⟩ := h k hk
    rfl
  rw [openExtent, hnext]
  cases keys with
  | nil => exact ⟨0, rfl, nofun, .inl ⟨rfl, rfl⟩⟩
  | cons k ks =>
    obtain ⟨⟨m, rfl⟩, hks⟩ := List.forall_mem_cons.1 h
    have hints : ∀ k ∈ ks.map succ, ∃ n, k = .int n := by
      refine List.forall_mem_map.2 fun k hk => ?_
      obtain ⟨n, rfl⟩ := hks k hk
      exact ⟨n + 1, rfl⟩
    obtain ⟨b, hb, hmem, hall⟩ := Key.largest_int hints (m + 1)
    refine ⟨b, congrArg (Except.bind · Key.extent) (congrArg Except.ok hb), fun n hn => ?_, .inr ?_⟩
    · have hsucc : Key.int (n + 1) ∈ (Key.int m :: ks).map succ := List.mem_map_of_mem (f := succ) hn
      exact hall (n + 1) hsucc
    · obtain ⟨k, hk, hkb⟩ := List.mem_map.1 (show Key.int b ∈ (Key.int m :: ks).map succ from hmem)
      obtain ⟨n, rfl⟩ := h k hk
      cases hkb
      simpa using hk

/-- **Gathering stays within bounds**: all rows of a numbered handle have their place, whether as
many rows are asked for as there are or only those up to the largest key. -/
theorem collect_in_bounds {h : Handle α} {n : Int} (hn : h.collection.Numbered n)
    (nrow : Option Int) (hnrow : ∀ m ∈ nrow, m = n) : Fails (h.collect nrow) Error.NotIndex := by
  have hplaced (m : Int) (hm : ∀ i : ℕ, Key.int i ∈ h.collection.keys → (i : Int) < m) : Fails (do
      let sides ← Dense.sides α m h.ncol
      let cells ← h.collection.rows.foldlM place (Dense.zeros sides.1 sides.2)
      return (⟨sides.1, sides.2, cells⟩ : Dense α)) Error.NotIndex := by
    refine ((Dense.sides_notIndex m h.ncol).and (Dense.sides_ensures m h.ncol)).bind
      fun (r, c) hsides => ?_
    let Inv : List (KeyedRow α) → Grid α r c → Prop := fun _ _ => True
    have hrows : Ends (h.collection.rows.foldlM place (Dense.zeros r c)) (Inv h.collection.rows)
        Error.NotIndex := by
      refine Ends.foldlM trivial fun _ entry grid he _ => ?_
      have hkey : entry.1 ∈ h.collection.keys := List.mem_map_of_mem he
      obtain ⟨i, -, hi⟩ := hn.mem_keys_iff.1 hkey
      exact place_notIndex grid (hsides.2.1 ▸ hm i (hi ▸ hkey)) hi
    exact hrows.bind fun cells _ => Ends.ok trivial
  unfold collect
  dsimp only
  split
  · exact Ends.error nofun
  · cases nrow with
    | some m =>
      refine hplaced m fun i hi => ?_
      obtain ⟨j, hj, heq⟩ := hn.mem_keys_iff.1 hi
      cases heq
      exact (hnrow m rfl).symm ▸ hj
    | none =>
      obtain ⟨m, hm, hbound, -⟩ := exists_openExtent fun k hk => hn.exists_int hk
      rw [hm]
      exact hplaced m fun i hi => hbound i hi

end Handle

end Gathering

end RowAlgebra
