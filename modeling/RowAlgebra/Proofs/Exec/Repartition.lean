import RowAlgebra.Proofs.Exec.Cuts
import RowAlgebra.Proofs.Exec.Pairing
import RowAlgebra.Proofs.Plan.Twins

/-!
# Rows in other partitions

Handles have the same rows (`Handle.SameRows`) if they list the same keyed rows, whatever partitions
these are in. Partitions show in many operators: rows are zipped partition by partition, appended to
the last one, and handed to block functions partition by partition; small results are spread over as
many as an operand has. Still every operator turns operands with the same rows into results with the
same rows, or fails on both (`UnaryOp.kernel_together`, `BinaryOp.kernel_together`), provided that
block functions treat each row on its own. No property of cells is used: all sums are formed in the
order of the rows.
-/

namespace RowAlgebra

variable {α : Type}

/-- Handles that differ in their partitions only. -/
structure Handle.SameRows (g h : Handle α) : Prop where
  rows : g.collection.rows = h.collection.rows
  keyType : g.collection.keyType = h.collection.keyType
  ncol : g.ncol = h.ncol

theorem Handle.SameRows.trans {f g h : Handle α} (hfg : f.SameRows g) (hgh : g.SameRows h) :
    f.SameRows h :=
  ⟨hfg.rows.trans hgh.rows, hfg.keyType.trans hgh.keyType, hfg.ncol.trans hgh.ncol⟩

/-! ## Collections -/

namespace Collection

/-- What treats partitions row by row does not show how the rows are spread. -/
theorem mapPartitions_together {f : List (KeyedRow α) → Except Error (List (KeyedRow α))}
    {step : KeyedRow α → Except Error (KeyedRow α)} {c d : Collection α} (h : c.rows = d.rows)
    (hc : ∀ p ∈ c.partitions, Together (f p) (p.mapM step) Eq)
    (hd : ∀ p ∈ d.partitions, Together (f p) (p.mapM step) Eq) :
    Together (c.mapPartitions f) (d.mapPartitions f) fun c' d' =>
      c'.rows = d'.rows ∧ c'.keyType = c.keyType ∧ d'.keyType = d.keyType := by
  have hleft := Together.mapM_flatten hc
  have hright := (Together.mapM_flatten hd).symm
  rw [show c.partitions.flatten = d.partitions.flatten from h] at hleft
  refine (hleft.trans hright).bind fun ps qs hpq => Together.ok ⟨?_, rfl, rfl⟩
  obtain ⟨rows, hps, hqs⟩ := hpq
  exact hps.trans hqs.symm

theorem mapRows_together (f : Cells α → Except Error (Cells α)) {c d : Collection α}
    (h : c.rows = d.rows) :
    Together (c.mapRows f) (d.mapRows f) fun c' d' =>
      c'.rows = d'.rows ∧ c'.keyType = c.keyType ∧ d'.keyType = d.keyType :=
  mapPartitions_together h (fun _ _ => .refl _) fun _ _ => .refl _

theorem settleFrom_rows (call position : Nat) (ps : List (List (KeyedRow α))) :
    (settleFrom call position ps).flatten = (ps.flatten.zipIdx position).map fun (entry, i) =>
      (entry.1.settle call i, entry.2) := by
  induction ps generalizing position with
  | nil => rfl
  | cons p ps ih =>
    rw [settleFrom, List.flatten_cons, List.flatten_cons, List.zipIdx_append, List.map_append, ih]

/-- Keys are settled by the places of their rows among all rows. -/
theorem settle_rows {c d : Collection α} (h : c.rows = d.rows) (call : Nat) :
    (c.settle call).rows = (d.settle call).rows := by
  change (settleFrom call 0 c.partitions).flatten = (settleFrom call 0 d.partitions).flatten
  rw [settleFrom_rows, settleFrom_rows]
  exact congrArg (fun rows : List (KeyedRow α) => (rows.zipIdx 0).map _) h

theorem index_eq {c d : Collection α} (h : c.rows = d.rows) : c.index = d.index :=
  congrArg RowIndex.ofRows h

end Collection

namespace Handle

theorem ofDense_sameRows (m : Dense α) (k l : Nat) : (ofDense m k).SameRows (ofDense m l) := by
  refine ⟨?_, rfl, rfl⟩
  have hrows (n : Nat) : (ofDense m n).collection.rows = numbered 0 m.rows :=
    Collection.rows_spread _ (by omega) _
  rw [hrows, hrows]

theorem rowRange_sameRows {a b : Handle α} (h : a.SameRows b) (start stop : Int) (call : Nat) :
    (a.rowRange start stop call).SameRows (b.rowRange start stop call) := by
  refine ⟨Collection.settle_rows ?_ call, h.keyType, h.ncol⟩
  rw [selected_rows, selected_rows, h.rows]

/-! ## Products -/

section Operators

variable [Cell α] {a a' b b' : Handle α} {ncol : Int}

theorem collect_eq (h : a.SameRows b) (nrow : Option Int) : a.collect nrow = b.collect nrow := by
  rw [collect, collect, Collection.keys, Collection.keys, h.keyType, h.ncol, h.rows]

theorem transposed_together (h : a.SameRows b) (n : Int) :
    Together (a.transposed n) (b.transposed n) SameRows := by
  rw [transposed, transposed, collect_eq h]
  exact .bind_left _ fun m => .ok (ofDense_sameRows _ _ _)

theorem gramian_together (h : a.SameRows b) (shape : Shape) :
    Together (a.gramian shape) (b.gramian shape) SameRows := by
  rw [gramian, gramian, h.rows]
  exact .bind_left _ fun sides => .bind_left _ fun cells => .ok (ofDense_sameRows _ _ _)

omit [Cell α] in
theorem mapRows_together (h : a.SameRows b) (f : Cells α → Except Error (Cells α)) (n : Int) :
    Together (do return (⟨← a.collection.mapRows f, n⟩ : Handle α))
      (do return ⟨← b.collection.mapRows f, n⟩) SameRows := by
  refine (Collection.mapRows_together f h.rows).bind fun c d hcd => .ok ⟨hcd.1, ?_, rfl⟩
  rw [hcd.2.1, hcd.2.2, h.keyType]

theorem withScalar_together (h : a.SameRows b) (op : ScalarOp) (s : Scalar) :
    Together (a.withScalar op s) (b.withScalar op s) SameRows := by
  rw [withScalar, withScalar, h.ncol]
  exact mapRows_together h _ _

theorem timesDense_together (h : a.SameRows b) (m : Dense α) :
    Together (a.timesDense m) (b.timesDense m) SameRows :=
  mapRows_together h _ _

theorem timesTransposed_together (h : a.SameRows a') (h' : b.SameRows b') (n : Int) :
    Together (a.timesTransposed b n) (a'.timesTransposed b' n) SameRows := by
  rw [timesTransposed, timesTransposed, collect_eq h']
  exact .bind_left _ fun m => mapRows_together h _ _

/-- Rows that are zipped partition by partition are zipped over all partitions. -/
theorem addZippedPartitions_congr (h : a.SameRows a') (h' : b.SameRows b')
    (hsame : a.collection.samePartitionKeys b.collection = true)
    (hsame' : a'.collection.samePartitionKeys b'.collection = true) {r c : Nat}
    (grid : Grid α r c) :
    addZippedPartitions grid a.collection.partitions b.collection.partitions =
      addZippedPartitions grid a'.collection.partitions b'.collection.partitions := by
  rw [addZippedPartitions_eq (Collection.length_eq_of_samePartitionKeys hsame),
    addZippedPartitions_eq (Collection.length_eq_of_samePartitionKeys hsame')]
  exact congrArg₂ (addZipped grid) h.rows h'.rows

theorem transposedTimes_together (h : a.SameRows a') (h' : b.SameRows b') (shape : Shape)
    (zippable : Bool) (hsame : zippable = true → a.collection.samePartitionKeys b.collection =
      a'.collection.samePartitionKeys b'.collection) :
    Together (a.transposedTimes b shape zippable) (a'.transposedTimes b' shape zippable)
      SameRows := by
  unfold transposedTimes
  refine .bind_left _ fun (r, c) => ?_
  cases zippable with
  | false =>
    simp only [h.rows, Collection.index_eq h'.rows]
    exact .bind_left _ fun cells => .ok (ofDense_sameRows _ _ _)
  | true =>
    have hzip := hsame rfl
    cases hkeys : a'.collection.samePartitionKeys b'.collection with
    | false =>
      simp only [hzip, hkeys, if_true, Bool.false_eq_true, if_false]
      exact .error
    | true =>
      rw [hkeys] at hzip
      simp only [hzip, if_true, addZippedPartitions_congr h h' hzip hkeys]
      exact .bind_left _ fun cells => .ok (ofDense_sameRows _ _ _)

/-! ## Element-wise operators -/

omit [Cell α] in
/-- Rows that are appended follow all others, in whichever partition that is. -/
theorem appended_together {c d : Collection α} (h : SameRows ⟨c, ncol⟩ ⟨d, ncol⟩)
    {extra : List (KeyedRow α)} (hc : extra ≠ [] → c.partitions ≠ [])
    (hd : extra ≠ [] → d.partitions ≠ []) :
    Together
      (if extra.isEmpty then (return ⟨c, ncol⟩ : Except Error (Handle α))
        else do return ⟨⟨← appendToLast extra c.partitions, c.keyType⟩, ncol⟩)
      (if extra.isEmpty then return ⟨d, ncol⟩
        else do return ⟨⟨← appendToLast extra d.partitions, d.keyType⟩, ncol⟩) SameRows := by
  split
  · exact .ok h
  · have hextra : extra ≠ [] := by simp_all
    have hleft := (appendToLast_ends extra c.partitions).mapBad fun _ => hc hextra
    have hright := (appendToLast_ends extra d.partitions).mapBad fun _ => hd hextra
    obtain ⟨ps, hps, -, hrows⟩ := hleft.exists_ok
    obtain ⟨qs, hqs, -, hrows'⟩ := hright.exists_ok
    rw [hps, hqs]
    refine .ok ⟨?_, h.keyType, rfl⟩
    exact hrows.trans ((congrArg (· ++ extra) h.rows).trans hrows'.symm)

/-- The rows of the right operand need a partition of the left one to be appended to. -/
theorem combine_together (h : a.SameRows a') (h' : b.SameRows b')
    (ha : b.collection.rows ≠ [] → a.collection.partitions ≠ [])
    (ha' : b'.collection.rows ≠ [] → a'.collection.partitions ≠ []) (op : CellOp) (ncol : Int) :
    Together (a.combine op b ncol) (a'.combine op b' ncol) SameRows := by
  have hpartitions (c : Collection α) (f : List (KeyedRow α) → Except Error (List (KeyedRow α))) :
      Ensures (c.mapPartitions f) fun d => c.partitions ≠ [] → d.partitions ≠ [] := by
    refine (mapM_length f c.partitions).bind fun ps hps => Ends.ok fun hc => ?_
    rwa [← List.length_pos_iff, hps, List.length_pos_iff]
  unfold combine
  rw [Collection.index_eq h.rows, Collection.index_eq h'.rows, h'.rows]
  refine .bind_left _ fun sides => ?_
  have hmerged := Collection.mapPartitions_together h.rows
    (f := fun p => p.mapM fun entry => do return (entry.1, ← entry.2.combine op
      ((b'.collection.index.find? entry.1).getD (.plain (List.replicate sides.2 Cell.zero)))))
    (fun _ _ => .refl _) fun _ _ => .refl _
  refine (hmerged.and (hpartitions _ _) (hpartitions _ _)).bind fun c d hcd => ?_
  obtain ⟨⟨hrows, hkeys, hkeys'⟩, hc, hd⟩ := hcd
  refine ((Together.refl _).and (mapM_length _ _) (mapM_length _ _)).bind fun missing _ hm => ?_
  obtain ⟨rfl, hmissing, -⟩ := hm
  have hright : missing ≠ [] → b'.collection.rows ≠ [] := by
    rintro hne hnil
    rw [hnil] at hmissing
    exact hne (List.length_eq_zero_iff.1 hmissing)
  refine appended_together ⟨hrows, ?_, rfl⟩ (fun hne => hc (ha ?_)) fun hne => hd (ha' (hright hne))
  · exact hkeys.trans (h.keyType.trans hkeys'.symm)
  · exact h'.rows ▸ hright hne

/-! ## Block functions -/

/-- Block functions that treat each row on its own, in rows of one width. -/
theorem mapBlock_together {f : BlockFunction α} {Occurs : Cells α → Prop} (hf : f.RowLocal Occurs)
    (h : a.SameRows b) {n : Nat}
    (hrows : ∀ entry ∈ a.collection.rows, Occurs entry.2 ∧ entry.2.length = n)
    (contract : BlockContract) (call : Nat) :
    Together (mapBlock f contract call a) (mapBlock f contract call b) SameRows := by
  obtain ⟨step, hstep⟩ := applyBlock_together hf contract
  have happly {g : Handle α} (hg : a.collection.rows = g.collection.rows) :
      ∀ p ∈ g.collection.partitions, Together (applyBlock f contract p) (p.mapM step) Eq :=
    fun p hp => hstep n p fun entry he => hrows entry (hg ▸ Collection.mem_rows_of_mem hp he)
  refine (Collection.mapPartitions_together h.rows (happly rfl) (happly h.rows)).bind
    fun c d hcd => .ok ⟨Collection.settle_rows hcd.1 call, ?_, rfl⟩
  exact hcd.2.1.trans (h.keyType.trans hcd.2.2.symm)

end Operators

end Handle

/-! ## Whole operators -/

variable [Cell α] {a a' b b' : Handle α}

/-- An operator does not look at the tag of its own node. -/
theorem UnaryOp.kernel?_congr {s t : Schema} (h : s.Specializes t) (blocks : BlockCatalogue α)
    (call : Nat) (op : UnaryOp α) : op.kernel? blocks call s = op.kernel? blocks call t := by
  cases op <;> simp only [kernel?, h.columns, h.shape]

/-- An operator looks at the tags of its inputs only to see whether they are evident. -/
theorem BinaryOp.kernel?_congr {s t : Schema} (h : s.Specializes t) {l l' r r' : Tag}
    (ht : Tag.evident l r = Tag.evident l' r') (op : BinaryOp) :
    (op.kernel? s l r : Option (Kernel α (Handle α × Handle α))) = op.kernel? t l' r' := by
  cases op <;> simp only [kernel?, h.columns, h.shape, ht]

theorem UnaryOp.kernel_together {blocks : BlockCatalogue α} {call : Nat} {out : Schema}
    {op : UnaryOp α} {Occurs : Cells α → Prop}
    (hlocal : ∀ fn ncol keepsKeys, op = .mapBlock fn ncol keepsKeys → (blocks fn).RowLocal Occurs)
    {kernel : Kernel α (Handle α)} (hk : op.kernel? blocks call out = some kernel)
    (h : a.SameRows b) {n : Nat}
    (hrows : ∀ entry ∈ a.collection.rows, Occurs entry.2 ∧ entry.2.length = n) :
    Together (kernel.run a) (kernel.run b) Handle.SameRows := by
  cases op <;> cases hk
  case transpose => exact .bind_left _ fun n => Handle.transposed_together h n
  case selfGramian => exact .bind_left _ fun shape => Handle.gramian_together h shape
  case scalar op s => exact Handle.withScalar_together h op s
  case rowRange start stop => exact .ok (Handle.rowRange_sameRows h start stop call)
  case rightMultiply m => exact Handle.timesDense_together h m
  case mapBlock fn ncol keepsKeys =>
    exact Handle.mapBlock_together (hlocal fn ncol keepsKeys rfl) h hrows _ call

theorem BinaryOp.kernel_together {out : Schema} {left right : Tag} {op : BinaryOp}
    {kernel : Kernel α (Handle α × Handle α)} (hk : op.kernel? out left right = some kernel)
    (h : a.SameRows a') (h' : b.SameRows b') (ha : a.collection.partitions ≠ [])
    (ha' : a'.collection.partitions ≠ []) (hsame : Tag.evident left right = true →
      a.collection.samePartitionKeys b.collection =
        a'.collection.samePartitionKeys b'.collection) :
    Together (kernel.run (a, b)) (kernel.run (a', b')) Handle.SameRows := by
  cases op <;> cases hk
  case matMulTransA =>
    exact .bind_left _ fun shape => Handle.transposedTimes_together h h' shape _ hsame
  case matMulTransB => exact .bind_left _ fun n => Handle.timesTransposed_together h h' n
  case elementwise op =>
    exact .bind_left _ fun n =>
      Handle.combine_together h h' (fun _ => ha) (fun _ => ha') op n

/-! ## Whole executions -/

omit [Cell α] in
/-- Whether handles that are cut as equal tags say have the same partition keys does not depend on
where the cuts are. -/
theorem Handle.SameRows.samePartitionKeys_eq {S S' : Tag → List Nat} {s s' t t' : Tag}
    (h : a.SameRows a') (h' : b.SameRows b') (ha : a.CutBy S s) (hb : b.CutBy S t)
    (ha' : a'.CutBy S' s') (hb' : b'.CutBy S' t') (hpa : a.collection.partitions ≠ [])
    (hpb : b.collection.partitions ≠ []) (hpa' : a'.collection.partitions ≠ [])
    (hpb' : b'.collection.partitions ≠ []) (hst : Tag.evident s t = true)
    (hst' : Tag.evident s' t' = true) :
    a.collection.samePartitionKeys b.collection = a'.collection.samePartitionKeys b'.collection := by
  obtain ⟨hs, rfl⟩ := Handle.evident_iff.1 hst
  obtain ⟨hs', rfl⟩ := Handle.evident_iff.1 hst'
  have hcuts := (ha.cuts hs).trans (hb.cuts hs).symm
  have hcuts' := (ha'.cuts hs').trans (hb'.cuts hs').symm
  have hkeys : a.collection.keys = a'.collection.keys := congrArg (List.map Prod.fst) h.rows
  have hkeys' : b.collection.keys = b'.collection.keys := congrArg (List.map Prod.fst) h'.rows
  rw [Bool.eq_iff_iff, Collection.samePartitionKeys_iff_of_cuts hpa hpb hcuts,
    Collection.samePartitionKeys_iff_of_cuts hpa' hpb' hcuts', hkeys, hkeys']
  simp only [ha.valued, ha'.valued, true_and]

namespace Expr

/-- What is known of the nodes of a plan, and of its leaves. -/
structure Grounded (L : Layouts) (e : Expr α) : Prop where
  admitted : ∀ x ∈ e.walk, x.Admitted
  shaped : ∀ i c, checkpoint i c ∈ e.walk → c.rows.Shaped c.schema
  spread : ∀ i c, checkpoint i c ∈ e.walk → Spread L c.tag c.rows
  plain : ∀ i c, checkpoint i c ∈ e.walk → c.rows.Plain

namespace Grounded

variable {L : Layouts} {e x : Expr α}

omit [Cell α] in
theorem of_mem (h : Grounded L e) (hx : x ∈ e.walk) : Grounded L x :=
  ⟨fun y hy => h.admitted y (mem_walk_trans hy hx),
    fun i c hc => h.shaped i c (mem_walk_trans hc hx),
    fun i c hc => h.spread i c (mem_walk_trans hc hx),
    fun i c hc => h.plain i c (mem_walk_trans hc hx)⟩

theorem exec_ensures (h : Grounded L e) (blocks : BlockCatalogue α) (call : Nat) :
    Ensures (e.exec blocks call).result fun g => g.Shaped e.schema ∧
      ∀ entry ∈ g.collection.rows, e.Meets entry.2 :=
  (exec_shaped h.admitted h.shaped call).and (exec_meets h.plain call)

end Grounded

/-- Whether block functions treat each of the rows that may be met in an expression on its own. -/
structure IsRowLocal (blocks : BlockCatalogue α) (Occurs : Cells α → Prop) (e : Expr α) : Prop where
  occurs : ∀ cells, e.Meets cells → Occurs cells
  blocks : ∀ fn ncol keepsKeys, .mapBlock fn ncol keepsKeys ∈ e.unaries →
    (blocks fn).RowLocal Occurs

theorem IsRowLocal.mono {blocks : BlockCatalogue α} {Occurs : Cells α → Prop} {e e' : Expr α}
    (h : e.IsRowLocal blocks Occurs) (hs : e'.unaries ⊆ e.unaries) : e'.IsRowLocal blocks Occurs :=
  ⟨fun cells hc => h.occurs cells (hc.mono fun _ hop => hs hop),
    fun fn ncol keepsKeys hop => h.blocks fn ncol keepsKeys (hs hop)⟩

/-- Handles with the same rows, each of them cut as its tag says. -/
structure CutAlike (S S' : Tag → List Nat) (t t' : Tag) (g g' : Handle α) : Prop where
  rows : g.SameRows g'
  left : g.CutBy S t
  right : g'.CutBy S' t'

section Twins

variable {R : Expr α → Expr α → Prop} (hR : Matching R) {L L' : Layouts} {blocks : BlockCatalogue α}
  {Occurs : Cells α → Prop} {i j : NodeId} {a a' b b' : Expr α} {call : Nat}
include hR

/-- One operator on inputs with the same rows. -/
theorem Twins.unary_cut {op : UnaryOp α} (h : Twins R a a') (ha : Grounded L a)
    (hlocal : (Expr.unary i op a).IsRowLocal blocks Occurs)
    (hinputs : Together (a.exec blocks call).result (a'.exec blocks call).result
      (CutAlike L.cuts L'.cuts a.tag a'.tag)) :
    Together ((Expr.unary i op a).exec blocks call).result
      ((Expr.unary j op a').exec blocks call).result
      (CutAlike L.cuts L'.cuts (Expr.unary i op a).tag (Expr.unary j op a').tag) := by
  have hkernel := UnaryOp.kernel?_congr ((h.alike hR).unary op).specializes blocks (call + a.size) op
  cases hk : op.kernel? blocks (call + a.size) (op.schema a.schema) with
  | none =>
    rw [exec_unary_refused hk, exec_unary_refused (h.size_eq ▸ hkernel.symm.trans hk)]
    exact .error
  | some kernel =>
    have hk' := hkernel.symm.trans hk
    rw [exec_unary hk, exec_unary (h.size_eq ▸ hk')]
    refine (hinputs.and (ha.exec_ensures blocks call) (Ends.any _)).bind fun g g' hg => ?_
    obtain ⟨hcut, ⟨hshaped, hmet⟩, -⟩ := hg
    have hblocks : ∀ fn ncol keepsKeys, op = .mapBlock fn ncol keepsKeys →
        (blocks fn).RowLocal Occurs :=
      fun fn ncol keepsKeys hop => hlocal.blocks fn ncol keepsKeys (hop ▸ List.mem_cons_self)
    have hinput : a.IsRowLocal blocks Occurs := hlocal.mono (List.subset_cons_self _ _)
    have hentries : ∀ entry ∈ g.collection.rows,
        Occurs entry.2 ∧ entry.2.length = a.schema.ncol.toNat := by
      intro entry hentry
      have := hshaped.width entry hentry
      exact ⟨hinput.occurs _ (hmet entry hentry), by omega⟩
    have hentries' := hcut.rows.rows ▸ hentries
    refine ((UnaryOp.kernel_together hblocks hk hcut.rows hentries).and
      (UnaryOp.kernel_cutBy hblocks hk hcut.left hentries)
      (UnaryOp.kernel_cutBy hblocks hk' hcut.right hentries')).imp_of_ok fun k k' _ _ hkk => ?_
    exact ⟨hkk.1, hkk.2.1, hkk.2.2⟩

/-- One operator on two inputs each with the same rows. -/
theorem Twins.binary_cut {op : BinaryOp} (ha : Twins R a a') (hb : Twins R b b')
    (hga : Grounded L a) (hgb : Grounded L b) (hga' : Grounded L' a') (hgb' : Grounded L' b')
    (hlefts : Together (a.exec blocks call).result (a'.exec blocks call).result
      (CutAlike L.cuts L'.cuts a.tag a'.tag))
    (hrights : Together (b.exec blocks (call + a.size)).result
      (b'.exec blocks (call + a.size)).result (CutAlike L.cuts L'.cuts b.tag b'.tag)) :
    Together ((Expr.binary i op a b).exec blocks call).result
      ((Expr.binary j op a' b').exec blocks call).result
      (CutAlike L.cuts L'.cuts (Expr.binary i op a b).tag (Expr.binary j op a' b').tag) := by
  have hevident := (ha.tags hR).evident_eq hR (hb.tags hR)
  have hkernel := BinaryOp.kernel?_congr (α := α)
    ((ha.alike hR).binary (hb.alike hR) op).specializes hevident op
  cases hk : (op.kernel? (op.schema a.schema b.schema) a.tag b.tag :
      Option (Kernel α (Handle α × Handle α))) with
  | none =>
    rw [exec_binary_refused hk, exec_binary_refused (hkernel.symm.trans hk)]
    exact .error
  | some kernel =>
    have hk' := hkernel.symm.trans hk
    rw [exec_binary hk, exec_binary hk', ← ha.size_eq]
    refine (hlefts.and (hga.exec_ensures blocks call)
      (hga'.exec_ensures blocks call)).bind fun g g' hg => ?_
    refine (hrights.and (hgb.exec_ensures blocks (call + a.size))
      (hgb'.exec_ensures blocks (call + a.size))).bind fun k k' hkk => ?_
    obtain ⟨hcut, ⟨hshaped, -⟩, hshaped', -⟩ := hg
    obtain ⟨hcutRight, ⟨hshapedRight, -⟩, hshapedRight', -⟩ := hkk
    have hpartitions (hzip : Tag.evident a.tag b.tag = true) :=
      hcut.rows.samePartitionKeys_eq hcutRight.rows hcut.left hcutRight.left hcut.right
        hcutRight.right hshaped.partitions hshapedRight.partitions hshaped'.partitions
        hshapedRight'.partitions hzip (hevident.symm.trans hzip)
    have hkernels := BinaryOp.kernel_together hk hcut.rows hcutRight.rows hshaped.partitions
      hshaped'.partitions hpartitions
    refine (hkernels.and (BinaryOp.kernel_cutBy hk hcut.left hcutRight.left.valued)
      (BinaryOp.kernel_cutBy hk' hcut.right hcutRight.right.valued)).imp_of_ok
        fun k k' _ _ hkk => ?_
    exact ⟨hkk.1, hkk.2.1, hkk.2.2⟩

variable {e e' : Expr α} (hrows : ∀ i c j d, R (.checkpoint i c) (.checkpoint j d) →
  c.rows.SameRows d.rows)
include hrows

/-- Twins over leaves with the same rows are executed to the same rows, cut as their tags say, or not
at all. -/
theorem Twins.exec_cut (h : Twins R e e') (he : Grounded L e) (he' : Grounded L' e')
    (hlocal : e.IsRowLocal blocks Occurs) (call : Nat) :
    Together (e.exec blocks call).result (e'.exec blocks call).result
      (CutAlike L.cuts L'.cuts e.tag e'.tag) := by
  induction h generalizing call with
  | checkpoint h =>
    exact .ok ⟨hrows _ _ _ _ h, (he.spread _ _ (mem_walk_self _)).cutBy,
      (he'.spread _ _ (mem_walk_self _)).cutBy⟩
  | foreign => exact .error
  | @unary i j op a a' h ih =>
    have ha : Grounded L a := he.of_mem (by simp [walk_unary, mem_walk_self])
    have ha' : Grounded L' a' := he'.of_mem (by simp [walk_unary, mem_walk_self])
    have hinput : a.IsRowLocal blocks Occurs := hlocal.mono (List.subset_cons_self _ _)
    exact h.unary_cut hR ha hlocal (ih ha ha' hinput call)
  | @binary i j op a a' b b' ha hb iha ihb =>
    have hga : Grounded L a := he.of_mem (by simp [walk_binary, mem_walk_self])
    have hgb : Grounded L b := he.of_mem (by simp [walk_binary, mem_walk_self])
    have hga' : Grounded L' a' := he'.of_mem (by simp [walk_binary, mem_walk_self])
    have hgb' : Grounded L' b' := he'.of_mem (by simp [walk_binary, mem_walk_self])
    have hleft : a.IsRowLocal blocks Occurs := hlocal.mono (List.subset_append_left _ _)
    have hright : b.IsRowLocal blocks Occurs := hlocal.mono (List.subset_append_right _ _)
    exact ha.binary_cut hR hb hga hgb hga' hgb' (iha hga hga' hleft call)
      (ihb hgb hgb' hright (call + a.size))

/-- Twins over leaves with the same rows are executed to the same rows, or not at all. -/
theorem Twins.exec_together (h : Twins R e e') (he : Grounded L e) (he' : Grounded L' e')
    (hlocal : e.IsRowLocal blocks Occurs) (call : Nat) :
    Together (e.exec blocks call).result (e'.exec blocks call).result Handle.SameRows :=
  (h.exec_cut hR hrows he he' hlocal call).imp_of_ok fun _ _ _ _ hg => hg.rows

end Twins

end Expr

end RowAlgebra
