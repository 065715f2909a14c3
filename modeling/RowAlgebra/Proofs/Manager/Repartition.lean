import RowAlgebra.Proofs.Exec.Repartition
import RowAlgebra.Proofs.Manager.Replacement
import RowAlgebra.Proofs.Manager.Shapes
import RowAlgebra.Proofs.Manager.Tags

/-!
# The number of partitions over two runs

Two runs make leaves of the same matrices with the same keys (`SameOrigin`), but over different
numbers of partitions and with other tags, and build the same expression on them. As long as tags are
distinct within each run, partitions do not show: the expression is refused or fails in both runs, or
both compute the same keyed rows in the same order (`Run.repartitioned`). Cells need not obey any law,
so this holds of rounded numbers bit by bit.
-/

namespace RowAlgebra

variable {α : Type} [Cell α]

/-! ## Leaves -/

/-- What is true of a leaf that has been made of a matrix. -/
structure Checkpoint.IsLeaf (c : Checkpoint α) : Prop where
  known : c.tag ≠ .unknown
  shaped : c.rows.Shaped c.schema
  valued : c.rows.collection.Valued
  plain : c.rows.Plain

namespace Managed.Distributed

variable {s s' t t' : Managed α} {matrix : InCore α} {partitions partitions' : Int}
  {keys : Option GivenKeys} {level level' : StorageLevel} {m m' : Dense α} {n n' : NodeId}
  {c d : Checkpoint α}

theorem isLeaf (h : s.Distributed s' matrix partitions keys level m n c)
    (hkeys : ∀ given ∈ keys, ∀ k ∈ given.keys, k.same k = true) : c.IsLeaf := by
  refine ⟨?_, h.shaped, distribute_valued hkeys h.rows, fun entry he => ?_⟩
  · rw [h.tag, if_pos rfl]
    exact TagSource.next_known _
  · have hmem : entry ∈ (rowKeys m keys).keys.zip (m.rows.map .plain) := h.rows_eq ▸ he
    obtain ⟨row, -, hcells⟩ := List.mem_map.1 (List.of_mem_zip hmem).2
    exact hcells ▸ trivial

/-- Leaves of one matrix with the same keys have the same rows, over however many partitions. -/
theorem sameRows (h : s.Distributed s' matrix partitions keys level m n c)
    (h' : t.Distributed t' matrix partitions' keys level' m' n' d) :
    c.rows.SameRows d.rows ∧ c.schema.Alike d.schema := by
  obtain rfl : m = m' := Except.ok.inj (h.matrix.symm.trans h'.matrix)
  obtain ⟨hnrow, hncol⟩ := Shape.mk.inj (h.shape.trans h'.shape.symm)
  have htype : c.handle.collection.keyType = d.handle.collection.keyType := by
    rw [(distribute_eq_ok h.rows).2.2, (distribute_eq_ok h'.rows).2.2]
    rfl
  refine ⟨⟨h.rows_eq.trans h'.rows_eq.symm, htype, hncol⟩, ?_, ?_, ?_⟩
  · exact congrArg Side.ofLength hnrow
  · exact congrArg Side.ofLength hncol
  · exact h.keyType.trans (htype.trans h'.keyType.symm)

end Managed.Distributed

/-- Whether leaves of two runs have been made of one matrix with the same keys, which have values. -/
def SameOrigin (start : Stage α) (acts : List (Act α)) (start' : Stage α) (acts' : List (Act α))
    (x y : Expr α) : Prop :=
  ∃ matrix keys partitions partitions' level level',
    (∀ given ∈ keys, ∀ k ∈ given.keys, k.same k = true) ∧
    Answers start acts (.parallelize matrix partitions keys level) x ∧
    Answers start' acts' (.parallelize matrix partitions' keys level') y

/-! ## Answers are nodes -/

namespace Stage

theorem subset_after (s : Stage α) (acts : List (Act α)) : s.nodes ⊆ (s.after acts).nodes := by
  induction acts generalizing s with
  | nil => exact Set.Subset.rfl
  | cons act acts ih => exact (s.subset_step act).trans (ih (s.step act))

theorem mem_nodes_of_reply {s : Stage α} {act : Act α} {r : Expr α}
    (h : s.reply act = some (.ok r)) : r ∈ (s.step act).nodes := by
  cases act with
  | parallelize | checkpoint =>
    rw [step, s.absorb_nodes_ok (Option.some.inj h)]
    exact Set.mem_insert _ _
  | unary | binary | foreign | forget | clear | release => cases h

end Stage

theorem Answers.mem_nodes {start s : Stage α} {acts : List (Act α)} {act : Act α} {r : Expr α}
    (h : Answers start acts act r) (hrun : Run start acts s) : r ∈ s.nodes := by
  obtain ⟨before, rest, rfl, hreply⟩ := h
  rw [hrun.eq_after, Stage.after, List.foldl_append, List.foldl_cons]
  exact Stage.subset_after _ rest (Stage.mem_nodes_of_reply hreply)

/-! ## Corresponding leaves -/

theorem SameOrigin.exists_leaves {start start' : Stage α} {acts acts' : List (Act α)}
    {x y : Expr α} (h : SameOrigin start acts start' acts' x y) :
    ∃ i c j d, x = .checkpoint i c ∧ y = .checkpoint j d ∧ c.IsLeaf ∧ d.IsLeaf ∧
      c.rows.SameRows d.rows ∧ c.schema.Alike d.schema := by
  obtain ⟨matrix, keys, partitions, partitions', level, level', hkeys, hx, hy⟩ := h
  obtain ⟨_, _, _, i, c, rfl, hc⟩ := hx.distributed
  obtain ⟨_, _, _, j, d, rfl, hd⟩ := hy.distributed
  exact ⟨i, c, j, d, rfl, rfl, hc.isLeaf hkeys, hd.isLeaf hkeys, hc.sameRows hd⟩

/-- The leaves of two runs, each with its counterpart. Tags are distinct within each run. -/
structure Repartitioned (start : Stage α) (acts : List (Act α)) (start' : Stage α)
    (acts' : List (Act α)) (leaves : List (Expr α × Expr α)) : Prop where
  origin : ∀ p ∈ leaves, SameOrigin start acts start' acts' p.1 p.2
  distinct : (leaves.map fun p => p.1.tag).Nodup
  distinct' : (leaves.map fun p => p.2.tag).Nodup

namespace Repartitioned

variable {start start' s s' : Stage α} {acts acts' : List (Act α)} {leaves : List (Expr α × Expr α)}
  (h : Repartitioned start acts start' acts' leaves) {i j : NodeId} {c d : Checkpoint α}

include h

theorem facts (hmem : (.checkpoint i c, .checkpoint j d) ∈ leaves) :
    c.IsLeaf ∧ d.IsLeaf ∧ c.rows.SameRows d.rows ∧ c.schema.Alike d.schema := by
  obtain ⟨_, _, _, _, hc, hd, hleaves⟩ := (h.origin _ hmem).exists_leaves
  cases hc
  cases hd
  exact hleaves

theorem matching (h₀ : start.Initial) (hrun : Run start acts s) (h₀' : start'.Initial)
    (hrun' : Run start' acts' s') : Expr.Matching fun x y => (x, y) ∈ leaves := by
  have hnodes : ∀ p ∈ leaves, p.1 ∈ s.nodes ∧ p.2 ∈ s'.nodes := by
    intro p hp
    obtain ⟨_, _, _, _, _, _, -, hx, hy⟩ := h.origin p hp
    exact ⟨hx.mem_nodes hrun, hy.mem_nodes hrun'⟩
  have hpopulation := (hrun.housed h₀).population
  have hpopulation' := (hrun'.housed h₀').population
  refine ⟨fun hp hq => ⟨?_, ?_⟩, fun hp hq => ⟨?_, ?_⟩, fun hp => ?_, fun hp => (h.facts hp).2.2.2⟩
  · intro hid
    have hsame := hpopulation.identified _ (hnodes _ hp).1 _ (hnodes _ hq).1 hid
    have hpair := List.inj_on_of_nodup_map h.distinct hp hq (congrArg Expr.tag hsame)
    exact congrArg (fun p => p.2.id) hpair
  · intro hid
    have hsame := hpopulation'.identified _ (hnodes _ hp).2 _ (hnodes _ hq).2 hid
    have hpair := List.inj_on_of_nodup_map h.distinct' hp hq (congrArg Expr.tag hsame)
    exact congrArg (fun p => p.1.id) hpair
  · intro htag
    exact congrArg (fun p => p.2.tag) (List.inj_on_of_nodup_map h.distinct hp hq htag)
  · intro htag
    exact congrArg (fun p => p.1.tag) (List.inj_on_of_nodup_map h.distinct' hp hq htag)
  · exact ⟨(h.facts hp).1.known, (h.facts hp).2.1.known⟩

end Repartitioned

/-! ## Two runs -/

omit [Cell α] in
/-- An expression over leaves that have tags of their own is grounded. -/
theorem Expr.exists_grounded {e : Expr α} (hadm : ∀ x ∈ e.walk, x.Admitted)
    (hleaves : ∀ i c, checkpoint i c ∈ e.walk → c.IsLeaf)
    (htags : ∀ i c j d, checkpoint i c ∈ e.walk → checkpoint j d ∈ e.walk → c.tag = d.tag → c = d) :
    ∃ L, e.Grounded L := by
  obtain ⟨L, hL⟩ := Spread.exists_layouts {c | ∃ i, checkpoint i c ∈ e.walk}
    (fun c ⟨i, hc⟩ => (hleaves i c hc).valued)
    fun c ⟨i, hc⟩ d ⟨j, hd⟩ hsame _ => by rw [htags i c j d hc hd hsame]
  exact ⟨L, hadm, fun i c hc => (hleaves i c hc).shaped, fun i c hc => hL c ⟨i, hc⟩,
    fun i c hc => (hleaves i c hc).plain⟩

/-- A plan of a twin is grounded if the leaves in question have tags of their own. -/
theorem Expr.exists_grounded_plan {R : Expr α → Expr α → Prop} {next n n' : NodeId}
    {nodes : Set (Expr α)} (hp : Population next nodes) {e e' plan : Expr α} (he : e ∈ nodes)
    (hn : next ≤ n) (hplan : e.optimize n = .ok (plan, n')) (htwins : Twins R e e')
    (hleaf : ∀ {i c j d}, R (checkpoint i c) (checkpoint j d) → c.IsLeaf)
    (htag : ∀ {i c j d i' c' j' d'}, R (checkpoint i c) (checkpoint j d) →
      R (checkpoint i' c') (checkpoint j' d') → c.tag = c'.tag → c = c') :
    ∃ L, plan.Grounded L := by
  obtain ⟨hplanned, hadm⟩ := admitted_of_optimize hp he hn hplan
  refine exists_grounded hadm (fun i c hc => ?_) fun i c i' c' hc hc' hsame => ?_
  · obtain ⟨j, d, hcd⟩ := htwins.exists_leaf (hplanned.leaf_mem hc)
    exact hleaf hcd
  · obtain ⟨j, d, hcd⟩ := htwins.exists_leaf (hplanned.leaf_mem hc)
    obtain ⟨j', d', hcd'⟩ := htwins.exists_leaf (hplanned.leaf_mem hc')
    exact htag hcd hcd' hsame

/-- **The number of partitions does not show**: an expression over leaves of the same matrices with
the same keys has a plan in both runs or in none, and executing it yields the same keyed rows in the
same order, or fails in both runs. Its block functions have to treat each row on its own. The number
of the first call tells apart only keys that are no numbers, so it is the same on both sides. -/
theorem Run.repartitioned {start start' s s' : Stage α} {acts acts' : List (Act α)}
    (h₀ : start.Initial) (hrun : Run start acts s) (h₀' : start'.Initial)
    (hrun' : Run start' acts' s') {leaves : List (Expr α × Expr α)}
    (hleaves : Repartitioned start acts start' acts' leaves) {e e' : Expr α} (he : e ∈ s.nodes)
    (he' : e' ∈ s'.nodes) (htwins : Expr.Twins (fun x y => (x, y) ∈ leaves) e e')
    {blocks : BlockCatalogue α}
    (hlocal : ∀ fn ncol keepsKeys, .mapBlock fn ncol keepsKeys ∈ e.unaries →
      (blocks fn).RowLocal e.Meets)
    {n n' : NodeId} (hn : s.next ≤ n) (hn' : s'.next ≤ n') :
    Together (e.optimize n) (e'.optimize n') fun p p' => ∀ call,
      Together (p.1.exec blocks call).result (p'.1.exec blocks call).result Handle.SameRows := by
  have hp := (hrun.housed h₀).population
  have hp' := (hrun'.housed h₀').population
  have hR := hleaves.matching h₀ hrun h₀' hrun'
  refine (Expr.optimize_together hR (hp.mono hn) (hp'.mono hn') he he' htwins).imp_of_ok ?_
  rintro ⟨plan, m⟩ ⟨plan', m'⟩ hplan hplan' hplans call
  obtain ⟨L, hL⟩ := Expr.exists_grounded_plan hp he hn hplan htwins
    (fun hcd => (hleaves.facts hcd).1) fun hcd hcd' htag => by
      cases List.inj_on_of_nodup_map hleaves.distinct hcd hcd' htag
      rfl
  obtain ⟨L', hL'⟩ := Expr.exists_grounded_plan hp' he' hn' hplan' htwins.flip
    (fun hcd => (hleaves.facts hcd).2.1) fun hcd hcd' htag => by
      cases List.inj_on_of_nodup_map hleaves.distinct' hcd hcd' htag
      rfl
  have hplanned := (Expr.admitted_of_optimize hp he hn hplan).1
  have hlocalPlan : plan.IsRowLocal blocks e.Meets :=
    ⟨fun cells hc => hc.mono fun op hop => (hplanned.mem_unaries hop).resolve_right nofun,
      fun fn ncol keepsKeys hop =>
        hlocal fn ncol keepsKeys ((hplanned.mem_unaries hop).resolve_right nofun)⟩
  exact hplans.exec_together hR (fun i c j d hcd => (hleaves.facts hcd).2.2.1) hL hL' hlocalPlan call

/-! ### A zipped product -/

/-- The rows of `swappedLeaf` in one partition, with another tag. -/
def gatheredLeaf : Expr Float :=
  .checkpoint 0 ⟨⟨⟨[[(.int 1, .plain [1.0]), (.int 0, .plain [2.0])]], .int⟩, 1⟩, 0, 2, 1,
    .known swappedMatrix.nonZeros, .memoryOnly, 9, .int⟩

def doubled (a : Expr Float) : Expr Float :=
  .unary 1 (.mapBlock "double" 1 true) a

/-- `A'(2A)`, where `2A` is computed by a block function. -/
def doubledProduct (a : Expr Float) : Expr Float :=
  .binary 2 .matMulTransA a (doubled a)

def leafRequest (partitions : Int) : Act Float :=
  .parallelize (.matrix swappedMatrix) partitions (some (.plain [.int 1, .int 0])) .memoryOnly

def productActs (partitions : Int) (leaf : Expr Float) : List (Act Float) :=
  [leafRequest partitions, .unary (.mapBlock "double" 1 true) leaf,
    .binary .matMulTransA leaf (doubled leaf)]

theorem productActs_run {start : Stage Float} {partitions : Int} {leaf : Expr Float}
    (hleaf : leaf ∈ (start.after [leafRequest partitions]).nodes)
    (hdoubled : doubled leaf ∈ (start.after ((productActs partitions leaf).take 2)).nodes) :
    Run start (productActs partitions leaf) (start.after (productActs partitions leaf)) :=
  ((Run.refl.step (leafRequest partitions) trivial).step (.unary _ leaf) hleaf).step
    (.binary _ leaf (doubled leaf)) ⟨Stage.subset_step _ _ hleaf, hdoubled⟩

/-- Over three partitions, one of which is empty, and over a single one. -/
theorem Run.repartitioned_product :
    let start : Stage Float := .ofScript [2 ^ 63 + 7]
    let start' : Stage Float := .ofScript [2 ^ 63 + 9]
    let e := doubledProduct swappedLeaf
    let e' := doubledProduct gatheredLeaf
    ∃ s s', Run start (productActs 3 swappedLeaf) s ∧ Run start' (productActs 1 gatheredLeaf) s' ∧
      e ∈ s.nodes ∧ e' ∈ s'.nodes ∧ ∀ call, ∃ g g',
        (e.exec BlockCatalogue.standard call).result = .ok g ∧
        (e'.exec BlockCatalogue.standard call).result = .ok g' ∧ g.SameRows g' := by
  intro start start' e e'
  have hrun : Run start (productActs 3 swappedLeaf) (start.after (productActs 3 swappedLeaf)) :=
    productActs_run (.inl rfl) (.inl rfl)
  have hrun' : Run start' (productActs 1 gatheredLeaf) (start'.after (productActs 1 gatheredLeaf)) :=
    productActs_run (.inl rfl) (.inl rfl)
  have hleaves : Repartitioned start (productActs 3 swappedLeaf) start' (productActs 1 gatheredLeaf)
      [(swappedLeaf, gatheredLeaf)] := by
    refine ⟨List.forall_mem_singleton.2 ?_, List.nodup_singleton _, List.nodup_singleton _⟩
    refine ⟨.matrix swappedMatrix, some (.plain [.int 1, .int 0]), 3, 1, .memoryOnly, .memoryOnly, ?_,
      ⟨[], _, rfl, rfl⟩, ⟨[], _, rfl, rfl⟩⟩
    rintro ks ⟨⟩
    exact List.forall_mem_cons.2 ⟨rfl, List.forall_mem_singleton.2 rfl⟩
  have htwins : Expr.Twins (fun x y => (x, y) ∈ [(swappedLeaf, gatheredLeaf)]) e e' := by
    have hleaf := Expr.Twins.checkpoint (R := fun x y => (x, y) ∈ [(swappedLeaf, gatheredLeaf)])
      (List.mem_singleton_self (swappedLeaf, gatheredLeaf))
    exact .binary 2 2 .matMulTransA hleaf (.unary 1 1 _ hleaf)
  have hlocal : ∀ fn ncol keepsKeys, .mapBlock fn ncol keepsKeys ∈ e.unaries →
      (BlockCatalogue.standard fn).RowLocal e.Meets := by
    intro fn ncol keepsKeys hop
    obtain ⟨rfl, -, -⟩ := UnaryOp.mapBlock.inj (List.mem_singleton.1 hop)
    refine BlockFunction.double_rowLocal.anti fun cells hcells => hcells.resolve_right ?_
    rintro ⟨op, hscalar⟩
    cases List.mem_singleton.1 hscalar
  refine ⟨_, _, hrun, hrun', .inl rfl, .inl rfl, fun call => ?_⟩
  obtain ⟨g, hg⟩ : ∃ g, (e.exec BlockCatalogue.standard call).result = .ok g := ⟨_, rfl⟩
  obtain ⟨g', hg'⟩ : ∃ g, (e'.exec BlockCatalogue.standard call).result = .ok g := ⟨_, rfl⟩
  have hplan : Together (e.optimize 3) (e'.optimize 3) _ :=
    Run.repartitioned (Stage.initial_ofScript _) hrun (Stage.initial_ofScript _) hrun' hleaves
      (.inl rfl) (.inl rfl) htwins hlocal (Nat.le_refl 3) (Nat.le_refl 3)
  have hsame : Together (e.exec BlockCatalogue.standard call).result
    (e'.exec BlockCatalogue.standard call).result Handle.SameRows := hplan call
  rw [hg, hg'] at hsame
  exact ⟨g, g', hg, hg', hsame⟩

end RowAlgebra
