import RowAlgebra.Proofs.Keyed.DoubleTranspositions
import RowAlgebra.Proofs.Manager.Repartition

/-!
# The second pass over whole runs

`CleanedUp` is about an expression of a run whose leaves have been made of matrices without keys: the
first pass has made `p` of it, and the second pass has made `p'` of `p`. Whatever `p` computes is
computed by `p'`, too, to the same rows in the same order, and both fail together if all that `p`
transposes twice can be gathered (`CleanedUp.exec_exact`). Cells need not obey any law, so this holds
of rounded numbers bit by bit.

Neither condition can be dropped (`CleanedUp.inexact`): a matrix with a negative side fails to be
transposed, and an empty row that has been combined with an absent scalar is mixed before it is
transposed, but plain afterwards.
-/

namespace RowAlgebra

variable {α : Type} [Cell α]

/-- What both passes have made of an expression of a run: its leaves list the rows of matrices that
have been given no keys, and have tags of their own; block functions keep keys, and treat each row on
its own. -/
structure CleanedUp (blocks : BlockCatalogue α) (start : Stage α) (acts : List (Act α))
    (p p' : Expr α) : Prop where
  initial : start.Initial
  passes : ∃ s e n n' m m', Run start acts s ∧ e ∈ s.nodes ∧ s.next ≤ n ∧
    e.normalize n = .ok (p, n') ∧ n' ≤ m ∧ p.cleanup m = .ok (p', m')
  leaves : ∀ i c, .checkpoint i c ∈ p.walk → ∃ matrix partitions level,
    Answers start acts (.parallelize matrix partitions none level) (.checkpoint i c)
  distinct : ∀ i c j d, .checkpoint i c ∈ p.walk → .checkpoint j d ∈ p.walk →
    c.tag = d.tag → c = d
  keepsKeys : p.KeepsKeys blocks
  rowLocal : ∀ fn ncol keepsKeys, .mapBlock fn ncol keepsKeys ∈ p.unaries →
    (blocks fn).RowLocal p.Meets

namespace CleanedUp

variable {blocks : BlockCatalogue α} {start : Stage α} {acts : List (Act α)} {p p' : Expr α}

theorem cleanForm (h : CleanedUp blocks start acts p p') :
    p.CleanForm p' ∧ (∀ x ∈ p.walk, x.Admitted) ∧ ∀ x ∈ p'.walk, x.Admitted := by
  obtain ⟨s, e, n, n', m, m', hrun, he, hn, hnormal, hm, hclean⟩ := h.passes
  have hpopulation := ((hrun.housed h.initial).population).mono hn
  obtain ⟨N, -, hN, hp, -⟩ := (Expr.normalize_yields hpopulation he).of_ok hnormal
  obtain ⟨M, -, hM, hp', hcleaned⟩ := (Expr.cleanup_yields (hN.mono hm) hp).of_ok hclean
  exact ⟨hcleaned.cleanForm, fun x hx => hN.admitted x (hN.walk_subset hp x hx),
    fun x hx => hM.admitted x (hM.walk_subset hp' x hx)⟩

theorem leaf_facts (h : CleanedUp blocks start acts p p') {i : NodeId} {c : Checkpoint α}
    (hc : .checkpoint i c ∈ p.walk) : c.IsLeaf ∧ c.rows.collection.InOrder c.nrow ∧
      c.rows.collection.keyType.isDerived = false := by
  obtain ⟨matrix, partitions, level, hleaf⟩ := h.leaves i c hc
  obtain ⟨_, _, _, _, _, hsame, hdistributed⟩ := hleaf.distributed
  cases hsame
  exact ⟨hdistributed.isLeaf nofun, hdistributed.inOrder rfl, hdistributed.plainKeys nofun⟩

theorem exists_ordered (h : CleanedUp blocks start acts p p') :
    ∃ L, p.Ordered L blocks p.Meets := by
  obtain ⟨L, hL⟩ := Expr.exists_grounded h.cleanForm.2.1 (fun i c hc => (h.leaf_facts hc).1)
    h.distinct
  exact ⟨L, hL, fun i c hc => (h.leaf_facts hc).2.1, fun i c hc => (h.leaf_facts hc).2.2,
    h.keepsKeys, h.rowLocal, fun _ hc => hc⟩

/-- **The second pass does not show**: whatever has been computed before it is computed after it, to
the same keyed rows in the same order, and if all that is transposed twice can be gathered, the
execution fails before the pass just if it fails after it. Nothing below a double transposition may
be combined with an absent scalar. -/
theorem exec_exact (h : CleanedUp blocks start acts p p')
    (hplain : ∀ x, p.TransposesTwice x → ∀ op, .scalar op .absent ∉ x.unaries) (call call' : Nat) :
    Ensures (p.exec blocks call).result (fun g =>
      ∃ g', (p'.exec blocks call').result = .ok g' ∧ g.SameRows g') ∧
    ((∀ x, p.TransposesTwice x → x.schema.Gatherable α ∧ x.schema.flipped.Gatherable α) →
      Together (p.exec blocks call).result (p'.exec blocks call').result Handle.SameRows) := by
  obtain ⟨L, hp⟩ := h.exists_ordered
  obtain ⟨hclean, -, hadmitted⟩ := h.cleanForm
  have hp' := hp.cleanForm hclean hadmitted
  exact ⟨hclean.exec_kept hp hp' hplain call call',
    fun hfits => hclean.exec_together hp hp' hplain hfits call call'⟩

/-- Over a single leaf, what the first pass leaves alone is cleaned up. -/
theorem of_leaf (leaf : Expr α) {s : Stage α} {matrix : InCore α} {partitions : Int}
    {level : StorageLevel} {n n' : NodeId} (h₀ : start.Initial) (hrun : Run start acts s)
    (hp : p ∈ s.nodes) (hnormal : p.normalize s.next = .ok (p, n))
    (hclean : p.cleanup n = .ok (p', n'))
    (hmade : Answers start acts (.parallelize matrix partitions none level) leaf)
    (hleaf : ∀ i c, .checkpoint i c ∈ p.walk → .checkpoint i c = leaf)
    (hblocks : ∀ fn ncol keepsKeys, .mapBlock fn ncol keepsKeys ∈ p.unaries →
      (blocks fn).KeepsKeys ∧ (blocks fn).RowLocal p.Meets) : CleanedUp blocks start acts p p' where
  initial := h₀
  passes := ⟨s, p, s.next, n, n, n', hrun, hp, le_rfl, hnormal, le_rfl, hclean⟩
  leaves i c hc := ⟨matrix, partitions, level, hleaf i c hc ▸ hmade⟩
  distinct i c j d hc hd _ :=
    (Expr.checkpoint.inj ((hleaf i c hc).trans (hleaf j d hd).symm)).2
  keepsKeys fn ncol keepsKeys hop := (hblocks fn ncol keepsKeys hop).1
  rowLocal fn ncol keepsKeys hop := (hblocks fn ncol keepsKeys hop).2

end CleanedUp

/-! ## Double transpositions over one leaf -/

/-- The leaf of a matrix without keys in one partition. -/
def leafOf (m : Dense Float) : Expr Float :=
  .checkpoint 0 ⟨⟨⟨[(Managed.rowKeys m none).keys.zip (m.rows.map .plain)], .int⟩, m.ncol⟩, 0, m.nrow,
    m.ncol, .known m.nonZeros, .memoryOnly, 7, .int⟩

/-- `A''`, where `A` is what an operator makes of a leaf. -/
def transposedTwice (a : Expr Float) : Expr Float :=
  .unary 3 .transpose (.unary 2 .transpose a)

def transposingActs (m : Dense Float) (op : UnaryOp Float) : List (Act Float) :=
  [.parallelize (.matrix m) 1 none .memoryOnly, .unary op (leafOf m),
    .unary .transpose (.unary 1 op (leafOf m)),
    .unary .transpose (.unary 2 .transpose (.unary 1 op (leafOf m)))]

theorem transposingActs_run (start : Stage Float) (m : Dense Float) (op : UnaryOp Float)
    (hleaf : leafOf m ∈ (start.after ((transposingActs m op).take 1)).nodes)
    (hinput : .unary 1 op (leafOf m) ∈ (start.after ((transposingActs m op).take 2)).nodes)
    (honce : .unary 2 .transpose (.unary 1 op (leafOf m)) ∈
      (start.after ((transposingActs m op).take 3)).nodes) :
    Run start (transposingActs m op) (start.after (transposingActs m op)) :=
  (((Run.refl.step (.parallelize (.matrix m) 1 none .memoryOnly) trivial).step (.unary op _)
    hleaf).step (.unary .transpose _) hinput).step (.unary .transpose _) honce

theorem double_keeps {e : Expr Float} (habsent : ∀ op, .scalar op .absent ∉ e.unaries) :
    (BlockCatalogue.standard "double").KeepsKeys ∧
      (BlockCatalogue.standard "double").RowLocal e.Meets :=
  ⟨BlockFunction.onRows_keepsKeys _ _ _, BlockFunction.double_rowLocal.anti fun _ hcells =>
    hcells.resolve_right fun ⟨op, hop⟩ => habsent op hop⟩

/-! ### A product that is joined or zipped -/

/-- `A'(2A)''`. -/
def transposedProduct : Expr Float :=
  .binary 4 .matMulTransA (leafOf swappedMatrix) (transposedTwice (doubled (leafOf swappedMatrix)))

/-- `A'(2A)`. -/
def cleanedProduct : Expr Float :=
  .binary 5 .matMulTransA (leafOf swappedMatrix) (doubled (leafOf swappedMatrix))

def transposedProductActs : List (Act Float) :=
  transposingActs swappedMatrix (.mapBlock "double" 1 true) ++ [.binary .matMulTransA
    (leafOf swappedMatrix) (transposedTwice (doubled (leafOf swappedMatrix)))]

theorem transposedProduct_cleanedUp : CleanedUp BlockCatalogue.standard (.ofScript [2 ^ 63 + 7])
    transposedProductActs transposedProduct cleanedProduct := by
  have hrun := transposingActs_run (.ofScript [2 ^ 63 + 7]) swappedMatrix
    (.mapBlock "double" 1 true) (.inl rfl) (.inl rfl) (.inl rfl)
  refine .of_leaf (leafOf swappedMatrix) (Stage.initial_ofScript _)
    (hrun.step (.binary .matMulTransA _ _) ⟨.inr (.inr (.inr (.inl rfl))), .inl rfl⟩) (.inl rfl) rfl
    rfl ⟨[], _, rfl, rfl⟩ (fun i c hc => ?_) fun fn ncol keepsKeys hop => ?_
  · simpa [transposedProduct, transposedTwice, doubled, Expr.leaf_mem_binary, Expr.leaf_mem_unary,
      leafOf, Expr.walk] using hc
  · obtain ⟨rfl, -, -⟩ : fn = "double" ∧ ncol = 1 ∧ keepsKeys = true := by
      simpa [transposedProduct, transposedTwice, doubled, leafOf, Expr.unaries] using hop
    exact double_keeps (by simp [transposedProduct, transposedTwice, doubled, leafOf, Expr.unaries])

/-- The rows of the product are joined by their keys before the pass, and zipped after it. -/
theorem CleanedUp.exec_exact_product :
    CleanedUp BlockCatalogue.standard (.ofScript [2 ^ 63 + 7]) transposedProductActs
      transposedProduct cleanedProduct ∧
    ∃ g g', (transposedProduct.exec BlockCatalogue.standard 0).result = .ok g ∧
      (cleanedProduct.exec BlockCatalogue.standard 0).result = .ok g' ∧ g.SameRows g' := by
  have hinput : ∀ x, transposedProduct.TransposesTwice x →
      x = doubled (leafOf swappedMatrix) := by
    rintro x ⟨i, j, hx⟩
    obtain ⟨-, -, hx⟩ : i = 3 ∧ j = 2 ∧ x = doubled (leafOf swappedMatrix) := by
      simpa [transposedProduct, transposedTwice, doubled, leafOf, Expr.walk] using hx
    exact hx
  have hplain : ∀ x, transposedProduct.TransposesTwice x →
      ∀ op, .scalar op .absent ∉ x.unaries := by
    rintro x hx op hop
    simp [hinput x hx, doubled, leafOf, Expr.unaries] at hop
  have hfits : ∀ x, transposedProduct.TransposesTwice x →
      x.schema.Gatherable Float ∧ x.schema.flipped.Gatherable Float := by
    intro x hx
    rw [hinput x hx]
    exact ⟨⟨⟨_, rfl⟩, ⟨_, rfl⟩⟩, ⟨_, rfl⟩, ⟨_, rfl⟩⟩
  obtain ⟨g, hg⟩ : ∃ g, (transposedProduct.exec BlockCatalogue.standard 0).result = .ok g :=
    ⟨_, rfl⟩
  obtain ⟨-, htogether⟩ := transposedProduct_cleanedUp.exec_exact hplain 0 0
  obtain ⟨g', hg', hsame⟩ := (htogether hfits).exists_ok hg
  exact ⟨transposedProduct_cleanedUp, g, g', hg, hg', hsame⟩

/-! ### Where the pass shows -/

/-- Whether the second pass makes a difference to what is computed, or to whether anything is. -/
def PassShows (acts : List (Act Float)) (p p' : Expr Float) : Prop :=
  CleanedUp BlockCatalogue.standard (.ofScript [2 ^ 63 + 7]) acts p p' ∧
    ¬ Together (p.exec BlockCatalogue.standard 0).result (p'.exec BlockCatalogue.standard 0).result
      Handle.SameRows

def emptyMatrix : Dense Float :=
  ⟨0, 2, #v[]⟩

/-- No rows, and one column less than none. -/
def negative : Expr Float :=
  .unary 1 (.mapBlock "double" (-1) true) (leafOf emptyMatrix)

/-- A matrix with a negative side cannot be gathered to be transposed. -/
theorem passShows_negative : PassShows
    (transposingActs emptyMatrix (.mapBlock "double" (-1) true)) (transposedTwice negative)
    negative := by
  constructor
  · have hrun := transposingActs_run (.ofScript [2 ^ 63 + 7]) emptyMatrix
      (.mapBlock "double" (-1) true) (.inl rfl) (.inl rfl) (.inl rfl)
    refine .of_leaf (leafOf emptyMatrix) (Stage.initial_ofScript _) hrun (.inl rfl) rfl rfl
      ⟨[], _, rfl, rfl⟩ (fun i c hc => ?_) fun fn ncol keepsKeys hop => ?_
    · simpa [transposedTwice, negative, Expr.leaf_mem_unary, leafOf, Expr.walk] using hc
    · obtain ⟨rfl, -, -⟩ : fn = "double" ∧ ncol = -1 ∧ keepsKeys = true := by
        simpa [transposedTwice, negative, leafOf, Expr.unaries] using hop
      exact double_keeps (by simp [transposedTwice, negative, leafOf, Expr.unaries])
  · obtain ⟨error, herror⟩ : ∃ error,
      ((transposedTwice negative).exec BlockCatalogue.standard 0).result = .error error := ⟨_, rfl⟩
    obtain ⟨g, hg⟩ : ∃ g, (negative.exec BlockCatalogue.standard 0).result = .ok g := ⟨_, rfl⟩
    rw [herror, hg]
    exact id

def flatMatrix : Dense Float :=
  ⟨1, 0, #v[#v[]]⟩

def absentSum : Expr Float :=
  .unary 1 (.scalar .plus .absent) (leafOf flatMatrix)

/-- `(A M) / 0`, where `M` has no rows and one column. -/
def dividedZero (a : Expr Float) (i j : NodeId) : Expr Float :=
  .unary j (.scalar .divide (.int 0)) (.unary i (.rightMultiply ⟨0, 1, #v[]⟩) a)

def dividedZeroActs : List (Act Float) :=
  transposingActs flatMatrix (.scalar .plus .absent) ++
    [.unary (.rightMultiply ⟨0, 1, #v[]⟩) (transposedTwice absentSum),
      .unary (.scalar .divide (.int 0)) (.unary 4 (.rightMultiply ⟨0, 1, #v[]⟩)
        (transposedTwice absentSum))]

/-- An empty row becomes a mixed one with an absent scalar, and a plain one by being gathered. -/
theorem passShows_absentSum : PassShows dividedZeroActs
    (dividedZero (transposedTwice absentSum) 4 5) (dividedZero absentSum 6 7) := by
  constructor
  · have hrun := transposingActs_run (.ofScript [2 ^ 63 + 7]) flatMatrix (.scalar .plus .absent)
      (.inl rfl) (.inl rfl) (.inl rfl)
    refine .of_leaf (leafOf flatMatrix) (Stage.initial_ofScript _)
      ((hrun.step (.unary (.rightMultiply ⟨0, 1, #v[]⟩) _) (.inl rfl)).step
        (.unary (.scalar .divide (.int 0)) _) (.inl rfl)) (.inl rfl) rfl rfl
      ⟨[], _, rfl, rfl⟩ (fun i c hc => ?_) fun fn ncol keepsKeys hop => ?_
    · simpa [dividedZero, transposedTwice, absentSum, leafOf, Expr.leaf_mem_unary, Expr.walk]
        using hc
    · simp [dividedZero, transposedTwice, absentSum, leafOf, Expr.unaries] at hop
  · obtain ⟨g, hg⟩ : ∃ g, ((dividedZero (transposedTwice absentSum) 4 5).exec
      BlockCatalogue.standard 0).result = .ok g := ⟨_, rfl⟩
    obtain ⟨error, herror⟩ : ∃ error,
      ((dividedZero absentSum 6 7).exec BlockCatalogue.standard 0).result = .error error := ⟨_, rfl⟩
    rw [hg, herror]
    exact id

/-- **The second pass shows** where a matrix with a negative side is transposed twice, and where a
sum with an absent scalar is. -/
theorem CleanedUp.inexact :
    PassShows (transposingActs emptyMatrix (.mapBlock "double" (-1) true))
      (transposedTwice negative) negative ∧
    PassShows dividedZeroActs (dividedZero (transposedTwice absentSum) 4 5)
      (dividedZero absentSum 6 7) :=
  ⟨passShows_negative, passShows_absentSum⟩

end RowAlgebra
