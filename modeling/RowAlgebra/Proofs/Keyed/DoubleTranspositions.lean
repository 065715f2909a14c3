import RowAlgebra.Proofs.Exec.Repartition
import RowAlgebra.Proofs.Keyed.Grids
import RowAlgebra.Proofs.Plan.Metadata

/-!
# Executing expressions without their double transpositions

A transposition gathers its input into a dense matrix, and spreads the columns over few partitions.
So transposing twice moves rows to other partitions, and takes known tags away, but it brings all
rows back to their places (`Handle.transposed_twice`), provided that they have been in order, have
plain cells, and can be gathered (`Schema.Gatherable`). Rows are in order throughout an expression
if they are at its leaves and block functions keep keys (`Ordered`), and where keys are distinct it
does not matter whether rows are zipped or joined (`BinaryOp.kernel_joined`). So an expression and
its clean form are executed to the same rows in the same order, or both fail
(`CleanForm.exec_together`). If the expression comes to anything, then all of its double
transpositions have been gathered (`CleanForm.exec_kept`).
-/

namespace RowAlgebra

variable {α : Type}

/-! ## Rows in order -/

theorem Collection.Numbered.distinctKeys {c : Collection α} {n : Int} (hc : c.Numbered n) :
    c.DistinctKeys := by
  have hnodup : c.keys.Nodup := hc.keys.nodup_iff.2 (Key.nodup_positions n)
  refine hnodup.imp_of_mem fun {k l} hk hl hkl => Bool.eq_false_iff.2 fun hs => hkl ?_
  obtain ⟨i, -, rfl⟩ := hc.mem_keys_iff.1 hk
  obtain ⟨j, -, rfl⟩ := hc.mem_keys_iff.1 hl
  have hij : KeyValue.ofNat i = .ofNat j := Option.some.inj (Key.same_iff.1 hs).2
  rw [KeyValue.ofNat_injective hij]

/-- The rows of a handle in order are those of its matrix, from the first position on. -/
theorem Handle.Holds.rows_inOrder {h : Handle α} {A : KeyedMatrix α} (hh : h.Holds A) {n : ℕ}
    (hA : A.Within n) (hn : h.collection.InOrder n) :
    h.collection.rows = (List.range n).map fun (i : ℕ) =>
      (.int i, .plain ((List.range A.ncol).map (A.cell (.ofNat i)))) := by
  obtain ⟨vs, hvs, hrows⟩ := hh.rows
  have hkeys : vs.map A.key = Key.positions n := by
    rw [← hn.keys, Collection.keys, hrows, List.map_map]
    rfl
  have hlength : vs.length = n := by simpa [Key.positions] using congrArg List.length hkeys
  rw [hrows]
  refine List.ext_getElem (by simp [hlength]) fun i hi _ => ?_
  rw [List.length_map] at hi
  have hkey : A.key vs[i] = .int i := by
    have hget := List.getElem_of_eq hkeys (i := i) (by simpa using hi)
    simpa [Key.positions] using hget
  obtain ⟨j, -, hv, hj⟩ := hA _ (hvs.mem_iff.1 (List.getElem_mem hi))
  obtain rfl : j = i := Int.natCast_inj.1 (Key.int.inj (hj.symm.trans hkey))
  simp [KeyedMatrix.entry, KeyedMatrix.row, hv, hv ▸ hkey]

variable [Cell α]

/-- A matrix with a row at each position is transposed back. -/
theorem KeyedMatrix.Indexed.transposed_transposed {A : KeyedMatrix α} {n : ℕ} (hA : A.Indexed n)
    {i j : ℕ} (hi : i < n) (hj : j < A.ncol) :
    ((A.transposed n).transposed A.ncol).cell (.ofNat i) j = A.cell (.ofNat i) j := by
  have hrow := indexed_transposed n A
  change (A.transposed n).read (.ofNat j) (KeyValue.ofNat i).index = _
  rw [read_of_mem (hrow.complete j hj), KeyValue.index_ofNat]
  change A.read (.ofNat i) (KeyValue.ofNat j).index = _
  rw [read_of_mem (hA.complete i hi), KeyValue.index_ofNat]

/-! ## Gathering -/

namespace Schema

/-- The schema of a transposed matrix. -/
def flipped (s : Schema) : Schema :=
  ⟨s.columns, s.rows, .int, .unknown⟩

/-- Whether a matrix with a schema can be gathered: the number of its rows can be told, and a dense
matrix of its shape can be held. -/
structure Gatherable (α : Type) [Cell α] (s : Schema) : Prop where
  counted : ∃ n, s.rows.count = .ok n
  held : ∃ sides, Dense.sides α s.nrow s.ncol = .ok sides

theorem Gatherable.exists_sides {s : Schema} (h : s.Gatherable α) :
    ∃ r c : ℕ, s.nrow = r ∧ s.ncol = c ∧ Dense.sides α r c = .ok (r, c) := by
  obtain ⟨⟨r, c⟩, hsides⟩ := h.held
  obtain ⟨hr, hc⟩ := (Dense.sides_ensures s.nrow s.ncol).of_ok hsides
  exact ⟨r, c, hr.symm, hc.symm, by rwa [hr, hc]⟩

theorem Gatherable.count_eq {s : Schema} (h : s.Gatherable α) : s.rows.count = .ok s.nrow := by
  obtain ⟨n, hn⟩ := h.counted
  rw [hn, nrow, Side.count_eq_ok_iff.1 hn]
  rfl

end Schema

namespace Handle

variable {a : Handle α} {s : Schema}

/-- Rows in order that are transposed twice are the same rows. -/
theorem transposed_twice (ha : a.Shaped s) (htype : a.collection.keyType = .int)
    (hn : a.collection.InOrder s.nrow) (hp : a.Plain) (h : s.Gatherable α)
    (h' : s.flipped.Gatherable α) :
    ∃ t b, a.transposed s.nrow = .ok t ∧ t.transposed s.ncol = .ok b ∧ b.SameRows a := by
  obtain ⟨r, c, hr, hc, hsides⟩ := h.exists_sides
  obtain ⟨c', r', hc', hr', hsides'⟩ := h'.exists_sides
  obtain rfl : c = c' := Int.ofNat.inj (hc.symm.trans hc')
  obtain rfl : r = r' := Int.ofNat.inj (hr.symm.trans hr')
  rw [hr] at hn
  have hint : a.collection.keyType.isInt = true := by rw [htype]; rfl
  have hformed := ha.wellFormed (hc ▸ Int.natCast_nonneg c) hp (hr ▸ hn.numbered)
  have hholds := hformed.holds_matrix
  have hindexed : a.matrix.Indexed r := hformed.indexed hn.numbered.keys
  obtain rfl : a.matrix.ncol = c := Int.ofNat.inj (hholds.ncol.symm.trans (ha.ncol.trans hc))
  obtain ⟨t, ht, htholds, httype⟩ :=
    (hholds.transposed_of_sides hindexed.within hint hsides).exists_ok
  obtain ⟨b, hb, hbholds, hbtype⟩ := (htholds.transposed_of_sides
    (KeyedMatrix.indexed_transposed r a.matrix).within (httype ▸ rfl) hsides').exists_ok
  have hbn : b.collection.InOrder r := by
    have hsmall := ((t.transposed_isSmall _).of_ok hb).inOrder
    rwa [htholds.ncol] at hsmall
  refine ⟨t, b, hr ▸ ht, hc ▸ hb, ?_, hbtype.trans htype.symm, hbholds.ncol.trans hholds.ncol.symm⟩
  rw [hholds.rows_inOrder hindexed.within hn, hbholds.rows_inOrder
    (KeyedMatrix.indexed_transposed _ _).within hbn]
  refine List.map_congr_left fun i hi => congrArg (Prod.mk _ ∘ Cells.plain) ?_
  exact List.map_congr_left fun j hj =>
    hindexed.transposed_transposed (List.mem_range.1 hi) (List.mem_range.1 hj)

/-- A transposition that comes to anything has gathered its input. -/
theorem transposed_gatherable (ha : a.Shaped s) :
    Ensures (do a.transposed (← s.rows.count)) fun _ => s.Gatherable α := by
  refine (Ends.self _).bind fun n hn => ?_
  obtain rfl : s.nrow = n := congrArg Side.length (Side.count_eq_ok_iff.1 hn)
  exact (a.collect_sides s.nrow).bind fun m hm => Ends.ok ⟨⟨_, hn⟩, _, ha.ncol ▸ hm⟩

end Handle

/-! ## Operators -/

/-- Where keys are positions, the number of a call shows nowhere. -/
theorem UnaryOp.kernel_call {blocks : BlockCatalogue α} {call : Nat} {s : Schema} {op : UnaryOp α}
    (hadm : op.admits s = .ok ())
    (hblocks : ∀ fn ncol keepsKeys, op = .mapBlock fn ncol keepsKeys → (blocks fn).KeepsKeys)
    {kernel : Kernel α (Handle α)} (h : op.kernel? blocks call (op.schema s) = some kernel)
    (call' : Nat) : ∃ kernel', op.kernel? blocks call' (op.schema s) = some kernel' ∧
      ∀ a, a.collection.Numbered s.nrow → kernel.run a = kernel'.run a := by
  cases op <;> cases h <;> refine ⟨_, rfl, fun a hn => ?_⟩
  case rowRange start stop =>
    obtain ⟨-, hstart, hle, n, hrows, hstop⟩ := admits_rowRange_iff.1 hadm
    have hnrow : s.nrow = n := congrArg Side.length hrows
    have hvalued := (hn.selected hstart hle (hnrow ▸ hstop)).valued
    simp only [Handle.rowRange, Collection.settle_eq_self hvalued]
  case mapBlock fn ncol keepsKeys =>
    refine ((a.collection.mapPartitions_keys fun p _ => Handle.applyBlock_keepsKeys
      (hblocks fn ncol keepsKeys rfl) _ p).imp fun c hc => ?_).bind_congr
    have hvalued := hn.valued.of_keys hc
    rw [Collection.settle_eq_self hvalued, Collection.settle_eq_self hvalued]
  all_goals rfl

theorem UnaryOp.kernel?_none {blocks : BlockCatalogue α} {call : Nat} {out : Schema}
    {op : UnaryOp α} (h : op.kernel? blocks call out = none) (call' : Nat) :
    op.kernel? blocks call' out = none := by
  cases op <;> first | rfl | cases h

/-- Rows with distinct keys may be paired by their keys, whatever the tags are. -/
theorem BinaryOp.kernel_joined {out : Schema} {left right : Tag} {op : BinaryOp}
    {kernel : Kernel α (Handle α × Handle α)} (h : op.kernel? out left right = some kernel) :
    ∃ joined, op.kernel? out .unknown .unknown = some joined ∧
      ∀ a b, a.collection.DistinctKeys → (Tag.evident left right = true →
        a.collection.samePartitionKeys b.collection = true) →
          kernel.run (a, b) = joined.run (a, b) := by
  cases op <;> cases h <;> refine ⟨_, rfl, fun a b hdistinct hsame => ?_⟩
  case matMulTransA =>
    refine bind_congr fun shape => ?_
    cases hzip : Tag.evident left right with
    | false => rfl
    | true => exact Handle.transposedTimes_zippable (hsame hzip) hdistinct shape
  all_goals rfl

theorem BinaryOp.kernel?_none {out : Schema} {left right : Tag} {op : BinaryOp}
    (h : (op.kernel? out left right : Option (Kernel α (Handle α × Handle α))) = none)
    (left' right' : Tag) :
    (op.kernel? out left' right' : Option (Kernel α (Handle α × Handle α))) = none := by
  cases op <;> first | rfl | cases h

/-! ## Whole executions -/

namespace Expr

/-- What is known of a plan over leaves with rows in order. -/
structure Ordered (L : Layouts) (blocks : BlockCatalogue α) (Occurs : Cells α → Prop)
    (e : Expr α) : Prop extends Grounded L e where
  inOrder : ∀ i c, checkpoint i c ∈ e.walk → c.rows.collection.InOrder c.nrow
  plainKeys : ∀ i c, checkpoint i c ∈ e.walk → c.rows.collection.keyType.isDerived = false
  keepsKeys : e.KeepsKeys blocks
  rowLocal : ∀ fn ncol keepsKeys, .mapBlock fn ncol keepsKeys ∈ e.unaries →
    (blocks fn).RowLocal Occurs
  occurs : ∀ cells, e.Meets cells → Occurs cells

namespace Ordered

variable {L : Layouts} {blocks : BlockCatalogue α} {Occurs : Cells α → Prop} {e e' x : Expr α}

theorem of_mem (h : Ordered L blocks Occurs e) (hx : x ∈ e.walk) : Ordered L blocks Occurs x := by
  have hunaries := unaries_subset_of_mem_walk hx
  exact ⟨h.toGrounded.of_mem hx, fun i c hc => h.inOrder i c (mem_walk_trans hc hx),
    fun i c hc => h.plainKeys i c (mem_walk_trans hc hx),
    fun fn ncol keeps hop => h.keepsKeys fn ncol keeps (hunaries hop),
    fun fn ncol keeps hop => h.rowLocal fn ncol keeps (hunaries hop),
    fun cells hc => h.occurs cells (hc.mono fun _ hop => hunaries hop)⟩

theorem input {i : NodeId} {op : UnaryOp α} (h : Ordered L blocks Occurs (unary i op e)) :
    Ordered L blocks Occurs e :=
  h.of_mem (by simp [walk_unary, mem_walk_self])

theorem left {i : NodeId} {op : BinaryOp} (h : Ordered L blocks Occurs (binary i op e x)) :
    Ordered L blocks Occurs e :=
  h.of_mem (by simp [walk_binary, mem_walk_self])

theorem right {i : NodeId} {op : BinaryOp} (h : Ordered L blocks Occurs (binary i op e x)) :
    Ordered L blocks Occurs x :=
  h.of_mem (by simp [walk_binary, mem_walk_self])

/-- What is known of an expression is known of its clean form. -/
theorem cleanForm (h : Ordered L blocks Occurs e) (hc : CleanForm e e')
    (hadm : ∀ x ∈ e'.walk, x.Admitted) : Ordered L blocks Occurs e' :=
  ⟨⟨hadm, fun i c hmem => h.shaped i c (hc.leaf_mem hmem),
      fun i c hmem => h.spread i c (hc.leaf_mem hmem),
      fun i c hmem => h.plain i c (hc.leaf_mem hmem)⟩,
    fun i c hmem => h.inOrder i c (hc.leaf_mem hmem),
    fun i c hmem => h.plainKeys i c (hc.leaf_mem hmem),
    fun fn ncol keeps hop => h.keepsKeys fn ncol keeps (hc.mem_unaries hop),
    fun fn ncol keeps hop => h.rowLocal fn ncol keeps (hc.mem_unaries hop),
    fun cells hmeets => h.occurs cells (hmeets.mono fun _ hop => hc.mem_unaries hop)⟩

theorem exec_ensures (h : Ordered L blocks Occurs e) (call : Nat) :
    Ensures (e.exec blocks call).result fun g => g.Shaped e.schema ∧
      g.collection.InOrder e.nrow ∧ Spread L e.tag g ∧
      ∀ entry ∈ g.collection.rows, e.Meets entry.2 := by
  have hordered := exec_inOrder h.admitted h.keepsKeys
    (fun i c hc => ⟨h.shaped i c hc, h.inOrder i c hc⟩) call
  have hspread : Ensures (e.exec blocks call).result (Spread L e.tag) :=
    exec_spread (fun fn ncol hop => (h.keepsKeys fn ncol true hop).keepsLayouts) h.spread call
  refine (hordered.and (hspread.and (h.toGrounded.exec_ensures blocks call))).imp fun g hg => ?_
  exact ⟨hg.1.1, hg.1.2, hg.2.1, hg.2.2.2⟩

end Ordered

/-- Whether a node is transposed in an expression and the result is transposed again. -/
def TransposesTwice (e x : Expr α) : Prop :=
  ∃ i j, unary i .transpose (unary j .transpose x) ∈ e.walk

omit [Cell α] in
theorem TransposesTwice.of_mem {e a x : Expr α} (h : a.TransposesTwice x) (ha : a ∈ e.walk) :
    e.TransposesTwice x :=
  h.imp fun _ h => h.imp fun _ h => mem_walk_trans h ha

variable {L : Layouts} {blocks : BlockCatalogue α} {Occurs : Cells α → Prop}

theorem exec_transpose (i : NodeId) (a : Expr α) (call : Nat) :
    ((unary i .transpose a).exec blocks call).result = (do
      let g ← (a.exec blocks call).result
      g.transposed (← a.schema.rows.count)) := by
  have hk : (UnaryOp.transpose : UnaryOp α).kernel? blocks (call + a.size)
      (UnaryOp.transpose.schema (α := α) a.schema) =
        some ⟨.transpose, .nothing, fun g => do g.transposed (← a.schema.rows.count)⟩ := rfl
  exact exec_unary hk

/-- A matrix of plain rows in order is computed again by transposing it twice. -/
theorem exec_double {i j : NodeId} {a : Expr α}
    (ha : Ordered L blocks Occurs (unary i .transpose (unary j .transpose a)))
    (hplain : ∀ op, .scalar op .absent ∉ a.unaries) (h : a.schema.Gatherable α)
    (h' : a.schema.flipped.Gatherable α) (call : Nat) :
    Together ((unary i .transpose (unary j .transpose a)).exec blocks call).result
      (a.exec blocks call).result Handle.SameRows := by
  have hint : a.schema.keyType.isInt = true := UnaryOp.admits_transpose_iff.1
    (ha.input.admitted _ (mem_walk_self _))
  have hcount : (unary j .transpose a).schema.rows.count = .ok a.schema.ncol := h'.count_eq
  rw [exec_transpose, exec_transpose, h.count_eq, hcount, bind_assoc]
  have hinput := ha.input.input
  refine .of_bind (((hinput.exec_ensures call).and (exec_plainKeys hinput.plainKeys call)).imp
    fun g hg => ?_)
  obtain ⟨⟨hshaped, hordered, -, hmet⟩, hplainKeys⟩ := hg
  have htype : g.collection.keyType = .int :=
    KeyType.eq_int (hshaped.keyType.isInt_eq.trans hint) hplainKeys
  obtain ⟨t, b, ht, hb, hback⟩ := Handle.transposed_twice hshaped htype hordered
    (fun entry he => (hmet entry he).resolve_right fun ⟨op, hop⟩ => hplain op hop) h h'
  refine ⟨b, ?_, hback⟩
  change g.transposed a.schema.nrow >>= (fun t => t.transposed a.schema.ncol) = .ok b
  rw [ht]
  exact hb

/-- An operator on clean forms of its input comes to what it comes to on the input itself. -/
theorem CleanForm.unary_together {i j : NodeId} {op : UnaryOp α} {a a' : Expr α}
    (h : CleanForm a a') (ha : Ordered L blocks Occurs (Expr.unary i op a)) {call call' : Nat}
    (hinput : Together (a.exec blocks call).result (a'.exec blocks call').result Handle.SameRows) :
    Together ((Expr.unary i op a).exec blocks call).result
      ((Expr.unary j op a').exec blocks call').result Handle.SameRows := by
  have hkernel := UnaryOp.kernel?_congr ((h.specializes ha.input.admitted).unary op) blocks
    (call' + a'.size) op
  cases hk : op.kernel? blocks (call + a.size) (op.schema a.schema) with
  | none =>
    rw [exec_unary_refused hk, exec_unary_refused (hkernel.trans (UnaryOp.kernel?_none hk _))]
    exact .error
  | some kernel =>
    obtain ⟨kernel', hk', hrun⟩ := UnaryOp.kernel_call (ha.admitted _ (mem_walk_self _))
      (fun fn ncol keeps hop => ha.keepsKeys fn ncol keeps (hop ▸ List.mem_cons_self)) hk
      (call' + a'.size)
    rw [exec_unary hk, exec_unary (hkernel.trans hk')]
    refine (hinput.and (ha.input.exec_ensures call) (Ends.any _)).bind fun g g' hg => ?_
    obtain ⟨hsame, ⟨hshaped, hordered, -, hmet⟩, -⟩ := hg
    rw [hrun g hordered.numbered]
    refine UnaryOp.kernel_together (n := a.schema.ncol.toNat)
      (fun fn ncol keeps hop => ha.rowLocal fn ncol keeps (hop ▸ List.mem_cons_self)) hk' hsame
      fun entry hentry => ⟨ha.input.occurs _ (hmet entry hentry), ?_⟩
    have := hshaped.width entry hentry
    omega

/-- Clean forms may have other tags, so that rows are zipped that have been joined before. -/
theorem CleanForm.binary_together {i j : NodeId} {op : BinaryOp} {a a' b b' : Expr α}
    (ha : CleanForm a a') (hb : CleanForm b b')
    (he : Ordered L blocks Occurs (Expr.binary i op a b))
    (he' : Ordered L blocks Occurs (Expr.binary j op a' b')) {call call' : Nat}
    (hlefts : Together (a.exec blocks call).result (a'.exec blocks call').result Handle.SameRows)
    (hrights : Together (b.exec blocks (call + a.size)).result
      (b'.exec blocks (call' + a'.size)).result Handle.SameRows) :
    Together ((Expr.binary i op a b).exec blocks call).result
      ((Expr.binary j op a' b').exec blocks call').result Handle.SameRows := by
  have hkernel := BinaryOp.kernel?_congr (α := α)
    ((ha.specializes he.left.admitted).binary (hb.specializes he.right.admitted) op)
    (rfl : Tag.evident a'.tag b'.tag = Tag.evident a'.tag b'.tag) op
  cases hk : (op.kernel? (op.schema a.schema b.schema) a.tag b.tag :
      Option (Kernel α (Handle α × Handle α))) with
  | none =>
    rw [exec_binary_refused hk,
      exec_binary_refused (hkernel.trans (BinaryOp.kernel?_none hk _ _))]
    exact .error
  | some kernel =>
    cases hk' : (op.kernel? (op.schema a.schema b.schema) a'.tag b'.tag :
        Option (Kernel α (Handle α × Handle α))) with
    | none =>
      rw [BinaryOp.kernel?_none hk' a.tag b.tag] at hk
      cases hk
    | some kernel' =>
      obtain ⟨joined, hj, hrun⟩ := BinaryOp.kernel_joined hk
      obtain ⟨joined', hj', hrun'⟩ := BinaryOp.kernel_joined hk'
      obtain rfl : joined = joined' := Option.some.inj (hj.symm.trans hj')
      rw [exec_binary hk, exec_binary (hkernel.trans hk')]
      refine (hlefts.and (he.left.exec_ensures call) (he'.left.exec_ensures call')).bind
        fun g g' hg => ?_
      refine (hrights.and (he.right.exec_ensures _) (he'.right.exec_ensures _)).bind
        fun k k' hkk => ?_
      obtain ⟨hsame, ⟨hshaped, hordered, hspread, -⟩, hshaped', hordered', hspread', -⟩ := hg
      obtain ⟨hsameRight, ⟨-, -, hspreadRight, -⟩, -, -, hspreadRight', -⟩ := hkk
      rw [hrun g k hordered.numbered.distinctKeys
          (hspread.samePartitionKeys_of_evident hspreadRight),
        hrun' g' k' hordered'.numbered.distinctKeys
          (hspread'.samePartitionKeys_of_evident hspreadRight')]
      exact BinaryOp.kernel_together hj hsame hsameRight hshaped.partitions hshaped'.partitions
        nofun

/-- **Double transpositions do not show**: an expression is executed with them and without them, to
the same rows in the same order, or it fails in both cases, if what is transposed twice can be
gathered and has plain rows. -/
theorem CleanForm.exec_together {e e' : Expr α} (h : CleanForm e e')
    (he : Ordered L blocks Occurs e) (he' : Ordered L blocks Occurs e')
    (hplain : ∀ x, e.TransposesTwice x → ∀ op, .scalar op .absent ∉ x.unaries)
    (hfits : ∀ x, e.TransposesTwice x → x.schema.Gatherable α ∧ x.schema.flipped.Gatherable α)
    (call call' : Nat) :
    Together (e.exec blocks call).result (e'.exec blocks call').result Handle.SameRows := by
  induction h generalizing call call' with
  | checkpoint i c => exact .ok ⟨rfl, rfl, rfl⟩
  | @double i j a a' ha ih =>
    have htwice : (Expr.unary i .transpose (Expr.unary j .transpose a)).TransposesTwice a :=
      ⟨i, j, mem_walk_self _⟩
    have hmem : a ∈ (Expr.unary i .transpose (Expr.unary j .transpose a)).walk := by
      simp [walk_unary, mem_walk_self]
    obtain ⟨hdirect, hflipped⟩ := hfits a htwice
    have hinput := ih he.input.input he' (fun x hx => hplain x (hx.of_mem hmem))
      (fun x hx => hfits x (hx.of_mem hmem)) call call'
    refine ((exec_double he (hplain a htwice) hdirect hflipped call).trans hinput).imp_of_ok ?_
    rintro b g' - - ⟨g, hback, hsame⟩
    exact hback.trans hsame
  | @unary i j op a a' hop ht ha ih =>
    have hmem : a ∈ (Expr.unary i op a).walk := by simp [walk_unary, mem_walk_self]
    exact ha.unary_together he (ih he.input he'.input (fun x hx => hplain x (hx.of_mem hmem))
      (fun x hx => hfits x (hx.of_mem hmem)) call call')
  | @binary i j op a a' b b' ha hb iha ihb =>
    have hleft : a ∈ (Expr.binary i op a b).walk := by simp [walk_binary, mem_walk_self]
    have hright : b ∈ (Expr.binary i op a b).walk := by simp [walk_binary, mem_walk_self]
    exact ha.binary_together hb he he'
      (iha he.left he'.left (fun x hx => hplain x (hx.of_mem hleft))
        (fun x hx => hfits x (hx.of_mem hleft)) call call')
      (ihb he.right he'.right (fun x hx => hplain x (hx.of_mem hright))
        (fun x hx => hfits x (hx.of_mem hright)) (call + a.size) (call' + a'.size))

/-- An execution that comes to anything has gathered all matrices that are transposed. -/
theorem exec_gatherable {e : Expr α} (hadm : ∀ x ∈ e.walk, x.Admitted)
    (hleaves : ∀ i c, checkpoint i c ∈ e.walk → c.rows.Shaped c.schema) (call : Nat) :
    Ensures (e.exec blocks call).result fun g => g.Shaped e.schema ∧
      ∀ i x, unary i .transpose x ∈ e.walk → x.schema.Gatherable α := by
  have hkeeps : Keeps blocks (fun e g => g.Shaped e.schema ∧
      ∀ i x, unary i .transpose x ∈ e.walk → x.schema.Gatherable α) (fun _ => True) e.walk := by
    refine ⟨fun _ _ _ => trivial, fun i c hc => ⟨hleaves i c hc, ?_⟩, ?_, ?_⟩
    · intro j x hx
      cases List.mem_singleton.1 hx
    · rintro i op a - call kernel hk g ⟨hshaped, ha⟩
      refine (UnaryOp.kernel_shaped hk hshaped).and ?_
      have hroot : Ensures (kernel.run g) fun _ => op = .transpose → a.schema.Gatherable α := by
        by_cases hop : op = .transpose
        · subst hop
          cases hk
          exact (Handle.transposed_gatherable hshaped).imp fun _ hg _ => hg
        · exact (Ends.any _).imp fun _ _ h => absurd h hop
      refine hroot.imp fun _ hg j x hx => ?_
      rcases List.mem_cons.1 (walk_unary i op a ▸ hx) with heq | hx
      · cases heq
        exact hg rfl
      · exact ha j x hx
    · rintro i op a b hmem kernel hk g h ⟨hleft, ha⟩ ⟨hright, hb⟩
      refine (BinaryOp.kernel_shaped (hadm _ hmem) hk hleft hright).and
        ((Ends.any _).imp fun _ _ j x hx => ?_)
      rcases List.mem_cons.1 (walk_binary i op a b ▸ hx) with heq | hx
      · cases heq
      · exact (List.mem_append.1 hx).elim (ha j x) (hb j x)
  exact exec_ends hkeeps call

/-- What has been computed with double transpositions is computed without them, too. -/
theorem CleanForm.exec_kept {e e' : Expr α} (h : CleanForm e e')
    (he : Ordered L blocks Occurs e) (he' : Ordered L blocks Occurs e')
    (hplain : ∀ x, e.TransposesTwice x → ∀ op, .scalar op .absent ∉ x.unaries) (call call' : Nat) :
    Ensures (e.exec blocks call).result fun g =>
      ∃ g', (e'.exec blocks call').result = .ok g' ∧ g.SameRows g' := by
  refine ((Ends.self _).and (exec_gatherable he.admitted he.shaped call)).imp ?_
  rintro g ⟨hg, -, hgathered⟩
  have hfits : ∀ x, e.TransposesTwice x →
      x.schema.Gatherable α ∧ x.schema.flipped.Gatherable α := by
    rintro x ⟨i, j, hx⟩
    exact ⟨hgathered j x (mem_walk_trans (by simp [walk_unary]) hx), hgathered i _ hx⟩
  exact (h.exec_together he he' hplain hfits call call').exists_ok hg

end Expr

end RowAlgebra
