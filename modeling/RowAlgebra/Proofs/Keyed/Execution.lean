import RowAlgebra.Proofs.Keyed.Elementwise
import RowAlgebra.Proofs.Keyed.Products
import RowAlgebra.Proofs.Keyed.Schema

/-!
# Execution computes the meaning of plans

On handles of matrices that their schemas describe, physical operators find what they need, never
fail, and make a handle of the matrix that the operator makes (`UnaryOp.kernel_makes`,
`BinaryOp.kernel_makes`). Hence the execution of a plan comes to a handle of the matrix that the plan
stands for (`Expr.exec_meaning`).
-/

namespace RowAlgebra

variable {α : Type} [Cell α] [Field α] [ExactCell α]
variable {blocks : BlockCatalogue α} {rowFn : BlockName → Key → Row α → Row α}

/-! ## Single operators -/

/-- A handle of a matrix, with integer keys where the schema says so. -/
structure Handle.Computes (h : Handle α) (s : Schema) (A : KeyedMatrix α) : Prop where
  holds : h.Holds A
  describes : s.Describes A
  keyType : s.keyType.isInt = true → h.collection.keyType.isInt = true

theorem UnaryOp.kernel_makes {call : ℕ} {s : Schema} {op : UnaryOp α}
    {kernel : Kernel α (Handle α)} (hk : op.kernel? blocks call (op.schema s) = some kernel)
    (hadm : op.admits s = .ok ()) (hready : op.Ready blocks rowFn s) {h : Handle α}
    {A : KeyedMatrix α} (hh : h.Computes s A) :
    Ends (kernel.run h) (fun r => r.Computes (op.schema s) (op.onMatrix rowFn s A))
      fun _ => False := by
  have hop : op.isPhysical = true := by
    cases op <;> first | rfl | cases hk
  have hdesc := hh.describes.unary hop hadm hready
  have computes {t : KeyType} {x : Except Error (Handle α)}
      (hx : Makes x (op.onMatrix rowFn s A) t)
      (ht : (op.schema s).keyType.isInt = true → t.isInt = true) :
      Ends x (fun r => r.Computes (op.schema s) (op.onMatrix rowFn s A)) fun _ => False :=
    hx.imp fun r hr => ⟨hr.1, hdesc, fun hint => hr.2 ▸ ht hint⟩
  cases op <;> cases hk
  case transpose =>
    have hkeys := admits_transpose_iff.1 hadm
    obtain ⟨n, hrows, hA⟩ := hh.describes.indexed hkeys
    have hmake : Makes (h.transposed n) (A.transposed s.nrow.toNat) .int := by
      rw [Schema.toNat_nrow hrows]
      exact Handle.transposed_makes hh.holds hA.within (hh.keyType hkeys)
    change Ends (do h.transposed (← s.rows.count)) _ _
    rw [hrows]
    exact computes hmake fun _ => rfl
  case selfGramian =>
    have hshape : (⟨s.columns, s.columns, .int, .unknown⟩ : Schema).shape = .ok ⟨A.ncol, A.ncol⟩ := by
      rw [Schema.shape, hh.describes.columns]
      rfl
    change Ends (do h.gramian (← Schema.shape ⟨s.columns, s.columns, .int, .unknown⟩)) _ _
    rw [hshape]
    exact computes (Handle.gramian_makes hh.holds) fun _ => rfl
  case scalar op x =>
    obtain ⟨hreal, y, hy⟩ := hready
    exact computes (Handle.withScalar_makes op hreal hy hh.holds) hh.keyType
  case rowRange start stop =>
    obtain ⟨hkeys, hstart, -⟩ := admits_rowRange_iff.1 hadm
    obtain ⟨n, -, hA⟩ := hh.describes.indexed hkeys
    exact Ends.ok ⟨Handle.rowRange_holds hh.holds hA.within hstart stop call, hdesc, hh.keyType⟩
  case rightMultiply m =>
    have hfit : A.ncol = m.nrow := Side.ofLength_natCast_inj
      (hh.describes.columns.symm.trans (admits_rightMultiply_iff.1 hadm))
    exact computes (Handle.timesDense_makes hh.holds hfit) hh.keyType
  case mapBlock fn ncol keepsKeys =>
    have hn : A.ncol = s.ncol.toNat := (Schema.toNat_ncol hh.describes.columns).symm
    have hncol : ncol = ncol.toNat := (Int.toNat_of_nonneg hready.1).symm
    exact computes (Handle.mapBlock_makes hready.2 hh.holds hn hncol call) hh.keyType

omit [Field α] [ExactCell α] in
/-- Block functions that work row by row keep layouts. -/
theorem UnaryOp.kernel_layout {call : ℕ} {s : Schema} {op : UnaryOp α} {kernel : Kernel α (Handle α)}
    (hk : op.kernel? blocks call (op.schema s) = some kernel) (hready : op.Ready blocks rowFn s)
    {h : Handle α} {A : KeyedMatrix α} (hh : h.Computes s A) (fn : BlockName) (ncol : Int)
    (hop : op = .mapBlock fn ncol true) :
    Ensures (kernel.run h) fun r => r.collection.layout = h.collection.layout := by
  subst hop
  cases hk
  have hn : A.ncol = s.ncol.toNat := (Schema.toNat_ncol hh.describes.columns).symm
  have hncol : ncol = ncol.toNat := (Int.toNat_of_nonneg hready.1).symm
  exact Handle.mapBlock_layout hready.2 hh.holds hn hncol call

/-- Products may be zipped if equal known tags mean equal partition keys. -/
theorem BinaryOp.kernel_makes {l r : Schema} {op : BinaryOp}
    {kernel : Kernel α (Handle α × Handle α)}
    (hk : op.kernel? (op.schema l r) l.tag r.tag = some kernel) (hadm : op.admits l r = .ok ())
    {g h : Handle α} {A B : KeyedMatrix α} (hg : g.Computes l A) (hh : h.Computes r B)
    (hzip : Tag.evident l.tag r.tag = true → g.collection.samePartitionKeys h.collection = true) :
    Ends (kernel.run (g, h)) (fun x => x.Computes (op.schema l r) (op.onMatrices r A B))
      fun _ => False := by
  have hop : op.isPhysical = true := by
    cases op <;> first | rfl | cases hk
  have hdesc := hg.describes.binary hh.describes hop hadm
  have computes {t : KeyType} {x : Except Error (Handle α)}
      (hx : Makes x (op.onMatrices r A B) t)
      (ht : (op.schema l r).keyType.isInt = true → t.isInt = true) :
      Ends x (fun x => x.Computes (op.schema l r) (op.onMatrices r A B)) fun _ => False :=
    hx.imp fun _ hr => ⟨hr.1, hdesc, fun hint => hr.2 ▸ ht hint⟩
  cases op <;> cases hk
  case matMulTransA =>
    have hshape : (⟨l.columns, r.columns, .int, .unknown⟩ : Schema).shape = .ok ⟨A.ncol, B.ncol⟩ := by
      rw [Schema.shape, hg.describes.columns, hh.describes.columns]
      rfl
    have hmake : Makes (g.transposedTimes h ⟨A.ncol, B.ncol⟩ (Tag.evident l.tag r.tag))
        (A.transposedTimes B) .int := by
      cases hevident : Tag.evident l.tag r.tag with
      | true => exact Handle.transposedTimes_zipped hg.holds hh.holds (hzip hevident)
      | false => exact Handle.transposedTimes_joined hg.holds hh.holds
    change Ends (do
      g.transposedTimes h (← Schema.shape ⟨l.columns, r.columns, .int, .unknown⟩)
        (Tag.evident l.tag r.tag)) _ _
    rw [hshape]
    exact computes hmake fun _ => rfl
  case matMulTransB =>
    obtain ⟨⟨m, hl, hr⟩, hkeys⟩ := admits_matMulTransB_iff.1 hadm
    obtain ⟨n, hrows, hB⟩ := hh.describes.indexed hkeys
    have hfit : A.ncol = B.ncol := hg.describes.ncol_eq hh.describes (hl.trans hr.symm)
    have hmake : Makes (g.timesTransposed h n) (A.timesTransposed r.nrow.toNat B)
        g.collection.keyType := by
      rw [Schema.toNat_nrow hrows]
      exact Handle.timesTransposed_makes hg.holds hh.holds hB.within (hh.keyType hkeys) hfit
    change Ends (do g.timesTransposed h (← r.rows.count)) _ _
    rw [hrows]
    exact computes hmake hg.keyType
  case elementwise op =>
    obtain ⟨⟨shape, hleft, hright⟩, -⟩ := admits_elementwise_iff.1 hadm
    have hcolumns : l.columns = r.columns :=
      (Schema.shape_eq_ok_iff.1 hleft).2.trans (Schema.shape_eq_ok_iff.1 hright).2.symm
    have hfit : A.ncol = B.ncol := hg.describes.ncol_eq hh.describes hcolumns
    change Ends (do g.combine op h (← l.columns.count)) _ _
    rw [hg.describes.columns]
    exact computes (Handle.combine_makes op hg.holds hh.holds hfit (Handle.sides_ok 1 A.ncol)) hg.keyType

/-! ## Leaves -/

/-- A leaf whose rows can be read as a matrix. Integer keys are the positions of its rows. -/
structure Checkpoint.WellFormed (c : Checkpoint α) : Prop where
  rows : c.rows.WellFormed
  positions : c.keyType.isInt = true → c.rows.collection.keyType.isInt = true ∧ 0 ≤ c.nrow ∧
    c.rows.collection.keys.Perm ((List.range c.nrow.toNat).map fun (i : ℕ) => .int i)

namespace Checkpoint.WellFormed

variable {c : Checkpoint α} (hc : c.WellFormed)

include hc

omit [Field α] [ExactCell α] in
theorem indexed (hint : c.keyType.isInt = true) : c.rows.matrix.Indexed c.nrow.toNat :=
  hc.rows.indexed (hc.positions hint).2.2

omit [Field α] [ExactCell α] in
theorem computes : c.rows.Computes c.schema c.rows.matrix := by
  have hncol : (c.ncol.toNat : Int) = c.ncol := Int.toNat_of_nonneg hc.rows.ncol
  refine ⟨hc.rows.holds_matrix, ⟨?_, fun hint => ⟨c.nrow.toNat, ?_, hc.indexed hint⟩⟩,
    fun hint => (hc.positions hint).1⟩
  · change Side.ofLength c.ncol = .ofLength c.ncol.toNat
    rw [hncol]
  · change Side.ofLength c.nrow = .ofLength c.nrow.toNat
    rw [Int.toNat_of_nonneg (hc.positions hint).2.1]

end Checkpoint.WellFormed

/-! ## Whole plans -/

namespace Expr

/-- A plan that can be executed: built from operators with a physical counterpart that admit their
inputs, over leaves that can be read as matrices and whose known tags are right. -/
structure Executable (blocks : BlockCatalogue α) (rowFn : BlockName → Key → Row α → Row α)
    (e : Expr α) : Prop where
  physical : ∀ x ∈ e.walk, x.isExecutable = true
  admitted : ∀ x ∈ e.walk, x.Admitted
  ready : ∀ i op a, unary i op a ∈ e.walk → op.Ready blocks rowFn a.schema
  leaves : ∀ i c, checkpoint i c ∈ e.walk → c.WellFormed
  tags : ∀ i c j d, checkpoint i c ∈ e.walk → checkpoint j d ∈ e.walk → c.tag = d.tag →
    c.tag ≠ .unknown → c.rows.collection.samePartitionKeys d.rows.collection = true

omit [Field α] [ExactCell α] in
/-- Right tags stand for layouts. -/
theorem Executable.exists_layouts [Field α] {e : Expr α} (he : e.Executable blocks rowFn) :
    ∃ L, ∀ i c, checkpoint i c ∈ e.walk → Spread L c.tag c.rows := by
  obtain ⟨L, hL⟩ := Spread.exists_layouts {c | ∃ i, checkpoint i c ∈ e.walk}
    (fun c ⟨i, hc⟩ => (he.leaves i c hc).rows.valued) fun c ⟨i, hc⟩ d ⟨j, hd⟩ htag ht =>
      (Collection.samePartitionKeys_iff.1 (he.tags i c j d hc hd htag ht)).2
  exact ⟨L, fun i c hc => hL c ⟨i, hc⟩⟩

theorem Executable.exec_computes {e : Expr α} (he : e.Executable blocks rowFn) (call : ℕ) :
    Ends (e.exec blocks call).result (fun h => h.Computes e.schema (e.keyed rowFn))
      fun _ => False := by
  obtain ⟨L, hL⟩ := he.exists_layouts
  have hkeeps : Keeps blocks (fun e h => h.Computes e.schema (e.keyed rowFn) ∧ Spread L e.tag h)
      (fun _ => False) e.walk := by
    refine ⟨fun x hx hphysical => absurd ((he.physical x hx).symm.trans hphysical) nofun,
      fun i c hc => ⟨(he.leaves i c hc).computes, hL i c hc⟩, ?_, ?_⟩
    · intro i op a hmem call kernel hk h hh
      exact (UnaryOp.kernel_makes hk (he.admitted _ hmem) (he.ready i op a hmem) hh.1).and
        (UnaryOp.kernel_spread hk hh.2 (UnaryOp.kernel_layout hk (he.ready i op a hmem) hh.1))
    · intro i op a b hmem kernel hk g h hg hh
      have hzip := hg.2.samePartitionKeys_of_evident hh.2
      exact (BinaryOp.kernel_makes hk (he.admitted _ hmem) hg.1 hh.1 hzip).and
        (BinaryOp.kernel_spread hk hg.2 hh.2)
  exact (exec_ends hkeeps call).imp fun h hh => hh.1

/-- **Execution computes the meaning of the plan**: it does not fail, and its result has each row of
the matrix that the plan stands for exactly once. If the plan has integer keys, these are the
positions of its rows, and gathering them gives the matrix cell by cell. -/
theorem exec_meaning {plan : Expr α} (hplan : plan.Executable blocks rowFn) (call : ℕ) :
    ∃ (h : Handle α) (vs : List KeyValue), (plan.exec blocks call).result = .ok h ∧
      h.ncol = (plan.keyed rowFn).ncol ∧ vs.Nodup ∧ vs.toFinset = (plan.keyed rowFn).keys ∧
      h.collection.rows = vs.map (plan.keyed rowFn).entry ∧
      (plan.keyType.isInt = true → ∃ n : ℕ, plan.nrow = n ∧
        h.collection.keys.Perm ((List.range n).map fun (i : ℕ) => .int i) ∧
        h.collect plan.nrow = .ok (Dense.ofFn fun (i : Fin n) (j : Fin (plan.keyed rowFn).ncol) =>
          (plan.keyed rowFn).cell (.ofNat i) j)) := by
  obtain ⟨h, hexec, hh⟩ := (hplan.exec_computes call).exists_ok
  obtain ⟨vs, hvs, hrows⟩ := hh.holds.rows
  refine ⟨h, vs, hexec, hh.holds.ncol, hvs.nodup, hvs.toFinset, hrows, fun hint => ?_⟩
  obtain ⟨n, hn, hA⟩ := hh.describes.indexed hint
  have hnrow : plan.nrow = n := by rw [nrow, Schema.nrow, hn]; rfl
  refine ⟨n, hnrow, ?_, ?_⟩
  · exact hh.holds.keys_perm hA
  · have hgrid : gridOf n (plan.keyed rowFn).ncol (fun i j => (plan.keyed rowFn).read (.ofNat i) j) =
        gridOf n _ fun i j => (plan.keyed rowFn).cell (.ofNat i) j :=
      gridOf_congr fun i hi j _ => KeyedMatrix.read_of_mem (hA.complete i hi) j
    rw [hnrow, hh.holds.collect_eq hA.within (hh.keyType hint), hgrid]
    rfl

end Expr

/-! ### A zipped product -/

/-- A column of two cells, the lower one of which comes first. -/
def Checkpoint.column (upper lower : ℚ) : Checkpoint ℚ :=
  ⟨⟨⟨[[(.int 1, .plain [lower])], [(.int 0, .plain [upper])]], .int⟩, 1⟩, 0, 2, 1, .unknown, .none, 7,
    .int⟩

theorem Checkpoint.column_wellFormed (upper lower : ℚ) : (column upper lower).WellFormed := by
  refine ⟨⟨Int.one_nonneg, List.cons_ne_nil _ _, ?_, ?_, ?_⟩, fun _ => ⟨rfl, Int.natCast_nonneg 2, .swap _ _ _⟩⟩
  · exact List.forall_mem_cons.2 ⟨rfl, List.forall_mem_singleton.2 rfl⟩
  · change [some (KeyValue.ofNat 1), some (KeyValue.ofNat 0)].Nodup
    decide
  · exact List.forall_mem_cons.2 ⟨⟨_, rfl, rfl⟩, List.forall_mem_singleton.2 ⟨_, rfl, rfl⟩⟩

/-- The product of two columns that lie alike is zipped, and comes to the sum of two products. -/
theorem Expr.exec_meaning_zipped :
    let plan : Expr ℚ :=
      binary 2 .matMulTransA (checkpoint 0 (.column 1 2)) (checkpoint 1 (.column 3 4))
    ∀ blocks : BlockCatalogue ℚ, ∃ h : Handle ℚ, (plan.exec blocks 0).result = .ok h ∧
      h.collect (some 1) = .ok (Dense.ofFn fun (_ _ : Fin 1) => 11) := by
  intro plan blocks
  have hleaf : ∀ i c, checkpoint i c ∈ plan.walk → c = .column 1 2 ∨ c = .column 3 4 := by
    intro i c hc
    simp only [plan, walk, List.cons_append, List.nil_append, List.mem_cons, List.not_mem_nil, or_false,
      reduceCtorEq, false_or] at hc
    rcases hc with hc | hc
    · cases hc
      exact .inl rfl
    · cases hc
      exact .inr rfl
  have hplan : plan.Executable blocks fun _ _ row => row := by
    refine ⟨?_, ?_, ?_, ?_, ?_⟩
    · simp only [plan, forall_walk_binary]
      simp [walk, isExecutable, BinaryOp.isPhysical]
    · simp only [plan, forall_walk_binary]
      refine ⟨rfl, ?_, ?_⟩ <;> simp [walk, Admitted]
    · intro i op a h
      simp [plan, walk] at h
    · intro i c hc
      rcases hleaf i c hc with rfl | rfl <;> exact Checkpoint.column_wellFormed _ _
    · intro i c j d hc hd _ _
      rcases hleaf i c hc with rfl | rfl <;> rcases hleaf j d hd with rfl | rfl <;> rfl
  obtain ⟨h, vs, hexec, -, -, -, -, hint⟩ := exec_meaning hplan 0
  obtain ⟨n, hn, -, hcollect⟩ := hint rfl
  obtain rfl : n = 1 := (Int.ofNat.inj hn).symm
  have hcell : ∀ i j : Fin 1, (plan.keyed fun _ _ row => row).cell (.ofNat i) j = 11 := by
    decide +kernel
  refine ⟨h, hexec, hcollect.trans (congrArg (fun f => Except.ok (Dense.ofFn f)) ?_)⟩
  exact funext fun i => funext (hcell i)

end RowAlgebra
