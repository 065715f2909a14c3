import RowAlgebra.Expr.Algebra
import RowAlgebra.Proofs.Plan.Executable

/-!
# Products of rows whose keys have different types

A product `A'B` pairs the rows of `A` and `B` that have equal keys. Whether their keys can be equal
at all is checked nowhere: the product asks for equally many rows only, and so does the rule that
makes one of a transposed matrix times another one. A plan pairs rows with keys of different types
exactly if its expression does so already, or multiplies `A'` with a matrix that has keys of another
type than `A` and is not transposed itself (`optimize_pairs_unlike`). Types are compared by their
bases (`KeyType.base`), since a key of a derived class equals the integer that it is. Where no key
of one side is a key of the other, as with integers and texts, the product is zero
(`Handle.transposedTimes_apart`).
-/

namespace RowAlgebra

/-- Rows without a common key contribute nothing to a sum of outer products. -/
theorem Handle.transposedTimes_apart {α : Type} [Cell α] (a b : Handle α) (shape : Shape)
    (h : ∀ k ∈ a.collection.keys, b.collection.hasKey k = false) :
    a.transposedTimes b shape false = (do
      let (r, c) ← Dense.sides α shape.nrow shape.ncol
      return ofDense ⟨r, c, Dense.zeros r c⟩ a.collection.partitions.length) := by
  have hskip : ∀ {r c : Nat} (grid : Grid α r c), ∀ entry ∈ a.collection.rows,
      addJoined b.collection.index grid entry = .ok grid := by
    intro r c grid entry hentry
    have hnone : b.collection.find? entry.1 = none := by
      rw [← Option.isNone_iff_eq_none, ← Option.not_isSome, Collection.isSome_find?_eq_hasKey,
        h _ (List.mem_map_of_mem hentry)]
      rfl
    rw [addJoined, Collection.find?_index, hnone]
  have hsum : ∀ {r c : Nat} (grid : Grid α r c),
      a.collection.rows.foldlM (addJoined b.collection.index) grid = .ok grid := by
    intro r c grid
    generalize a.collection.rows = rows at hskip
    induction rows with
    | nil => rfl
    | cons entry rows ih =>
      rw [List.foldlM_cons, hskip grid entry List.mem_cons_self]
      exact ih fun grid entry hentry => hskip grid entry (List.mem_cons_of_mem _ hentry)
  simp only [transposedTimes, hsum]
  rfl

namespace Expr

variable {α : Type}

/-- Whether a node pairs the rows of two matrices whose keys are of types with different bases. -/
def pairsUnlike : Expr α → Bool
  | binary _ .matMulTransA a b => a.keyType.base != b.keyType.base
  | _ => false

/-- Whether a node multiplies the transpose of one matrix with another one, which is not transposed
and has keys of another type. -/
def multipliesUnlike : Expr α → Bool
  | binary _ .matMul (unary _ op a) b =>
    op.transposes && !b.isTransposed && a.keyType.base != b.keyType.base
  | _ => false

/-- Whether some node pairs rows with keys of different types. -/
def hasUnlikePairs (e : Expr α) : Bool :=
  e.walk.any pairsUnlike

/-- Whether some node pairs rows with keys of different types, or will do so in a normal form. -/
def hasUnlike (e : Expr α) : Bool :=
  e.walk.any fun x => x.pairsUnlike || x.multipliesUnlike

theorem hasUnlikePairs_iff {e : Expr α} : e.hasUnlikePairs = true ↔
    ∃ i a b, binary i .matMulTransA a b ∈ e.walk ∧ a.keyType.base ≠ b.keyType.base := by
  simp only [hasUnlikePairs, List.any_eq_true]
  constructor
  · rintro ⟨x, hx, h⟩
    unfold pairsUnlike at h
    split at h
    · exact ⟨_, _, _, hx, bne_iff_ne.1 h⟩
    · cases h
  · rintro ⟨i, a, b, hx, hk⟩
    exact ⟨_, hx, bne_iff_ne.2 hk⟩

theorem hasUnlike_iff {e : Expr α} : e.hasUnlike = true ↔
    (∃ i a b, binary i .matMulTransA a b ∈ e.walk ∧ a.keyType.base ≠ b.keyType.base) ∨
      ∃ i j op a b, binary i .matMul (unary j op a) b ∈ e.walk ∧ op.transposes = true ∧
        b.isTransposed = false ∧ a.keyType.base ≠ b.keyType.base := by
  rw [← hasUnlikePairs_iff]
  simp only [hasUnlike, hasUnlikePairs, List.any_eq_true, Bool.or_eq_true, and_or_left,
    exists_or]
  refine or_congr Iff.rfl ⟨?_, ?_⟩
  · rintro ⟨x, hx, h⟩
    unfold multipliesUnlike at h
    split at h
    · simp only [Bool.and_eq_true, Bool.not_eq_true', bne_iff_ne] at h
      exact ⟨_, _, _, _, _, hx, h.1.1, h.1.2, h.2⟩
    · cases h
  · rintro ⟨i, j, op, a, b, hx, hop, ht, hk⟩
    exact ⟨_, hx, by simp [multipliesUnlike, hop, ht, hk]⟩

theorem hasUnlikePairs_unary (i : NodeId) (op : UnaryOp α) (a : Expr α) :
    (unary i op a).hasUnlikePairs = a.hasUnlikePairs := by
  simp [hasUnlikePairs, walk_unary, pairsUnlike]

theorem hasUnlikePairs_binary (i : NodeId) (op : BinaryOp) (a b : Expr α) :
    (binary i op a b).hasUnlikePairs =
      ((binary i op a b).pairsUnlike || (a.hasUnlikePairs || b.hasUnlikePairs)) := by
  simp [hasUnlikePairs, walk_binary]

theorem hasUnlike_unary (i : NodeId) (op : UnaryOp α) (a : Expr α) :
    (unary i op a).hasUnlike = a.hasUnlike := by
  simp [hasUnlike, walk_unary, pairsUnlike, multipliesUnlike]

theorem hasUnlike_binary (i : NodeId) (op : BinaryOp) (a b : Expr α) :
    (binary i op a b).hasUnlike =
      ((binary i op a b).pairsUnlike || (binary i op a b).multipliesUnlike ||
        (a.hasUnlike || b.hasUnlike)) := by
  simp [hasUnlike, walk_binary, Bool.or_assoc]

theorem pairsUnlike_congr (i j : NodeId) (op : BinaryOp) {a a' b b' : Expr α}
    (ha : a.keyType.base = a'.keyType.base) (hb : b.keyType.base = b'.keyType.base) :
    (binary i op a b).pairsUnlike = (binary j op a' b').pairsUnlike := by
  cases op <;> simp only [pairsUnlike, ha, hb]

theorem multipliesUnlike_of_ne (i : NodeId) {op : BinaryOp} (a b : Expr α) (h : op ≠ .matMul) :
    (binary i op a b).multipliesUnlike = false := by
  rw [multipliesUnlike]
  rintro j k op' x y hxy
  cases hxy
  exact h rfl

theorem multipliesUnlike_of_isAnyTransposed (i : NodeId) {a : Expr α} (b : Expr α)
    (h : a.isAnyTransposed = false) : (binary i .matMul a b).multipliesUnlike = false := by
  cases a with
  | unary j op x =>
    have hop : op.transposes = false := h
    simp [multipliesUnlike, hop]
  | _ => rfl

/-! ## The passes -/

section Passes

variable {next : NodeId} {nodes : Set (Expr α)} (hp : Population next nodes)

include hp in
theorem CleanForm.base_eq {e e' : Expr α} (h : CleanForm e e') (he : e ∈ nodes) :
    e'.keyType.base = e.keyType.base :=
  (h.specializes fun x hx => hp.admitted x (hp.walk_subset he x hx)).keyType.base_eq

include hp in
/-- Double transpositions can be removed below a product without changing what it pairs. -/
theorem CleanForm.hasUnlikePairs_eq {e e' : Expr α} (h : CleanForm e e') (he : e ∈ nodes) :
    e'.hasUnlikePairs = e.hasUnlikePairs := by
  induction h with
  | checkpoint => rfl
  | double i j ha ih =>
    rw [hasUnlikePairs_unary, hasUnlikePairs_unary, ih (hp.input (hp.input he))]
  | unary i j hop ht ha ih => rw [hasUnlikePairs_unary, hasUnlikePairs_unary, ih (hp.input he)]
  | binary i j op ha hb iha ihb =>
    have hroot := pairsUnlike_congr j i op (ha.base_eq hp (hp.left he))
      (hb.base_eq hp (hp.right he))
    rw [hasUnlikePairs_binary, hasUnlikePairs_binary, hroot, iha (hp.left he), ihb (hp.right he)]

variable [Cell α]

theorem NormalForm.keyType_eq {e e' : Expr α} (h : NormalForm e e') : e'.keyType = e.keyType := by
  induction h with
  | checkpoint => rfl
  | gramian i j k hop hs ha ih =>
    exact (congrArg Schema.keyType (UnaryOp.schema_of_transposes hop _)).symm
  | timesTransposed i j k hg ha hb iha ihb => exact iha
  | transposedTimes i j k hop hs ht ha hb iha ihb =>
    exact (congrArg Schema.keyType (UnaryOp.schema_of_transposes hop _)).symm
  | times i j k hl ht ha hb iha ihb => exact iha
  | leftMultiply i j k l m ha ih => rfl
  | @unary i j op a a' hop ha ih =>
    have hk : a'.schema.keyType = a.schema.keyType := ih
    cases op <;> first | rfl | exact hk
  | @binary i j op a a' b b' hop ha hb iha ihb =>
    have hk : a'.schema.keyType = a.schema.keyType := iha
    cases op <;> first | rfl | exact hk

include hp in
/-- Equal expressions of a population pair the same types of keys. -/
theorem Equal.hasUnlike_eq {e f : Expr α} (h : Equal e f) (he : e ∈ nodes) (hf : f ∈ nodes) :
    e.hasUnlike = f.hasUnlike := by
  induction h with
  | checkpoint => rfl
  | foreign => rfl
  | unary hop ha ih =>
    rw [hasUnlike_unary, hasUnlike_unary, ih (hp.input he) (hp.input hf)]
  | @binary i j op a a' b b' ha hb iha ihb =>
    have hka : a.keyType = a'.keyType :=
      congrArg Schema.keyType (ha.schema_eq hp (hp.left he) (hp.left hf))
    have hkb : b.keyType = b'.keyType :=
      congrArg Schema.keyType (hb.schema_eq hp (hp.right he) (hp.right hf))
    have hroot :
        (Expr.binary i op a b).multipliesUnlike = (Expr.binary j op a' b').multipliesUnlike := by
      by_cases hop : op = .matMul
      · subst hop
        cases ha with
        | @unary k l o o' x x' ho hx =>
          have ho' : o.transposes = o'.transposes :=
            (Equal.unary (i := k) (j := l) ho hx).kinds_eq.2.2
          have hkx : x.keyType = x'.keyType := congrArg Schema.keyType
            (hx.schema_eq hp (hp.input (hp.left he)) (hp.input (hp.left hf)))
          simp only [multipliesUnlike, ho', hb.kinds_eq.1, hkx, hkb]
        | _ => rfl
      · rw [multipliesUnlike_of_ne i a b hop, multipliesUnlike_of_ne j a' b' hop]
    have hpairs := pairsUnlike_congr i j op (congrArg KeyType.base hka) (congrArg KeyType.base hkb)
    rw [hasUnlike_binary, hasUnlike_binary, hpairs, hroot, iha (hp.left he) (hp.left hf),
      ihb (hp.right he) (hp.right hf)]

include hp in
theorem NormalForm.hasUnlikePairs_eq {e e' : Expr α} (h : NormalForm e e') (he : e ∈ nodes) :
    e'.hasUnlikePairs = e.hasUnlike := by
  induction h with
  | checkpoint => rfl
  | @gramian i j k op a a' b hop hs ha ih =>
    have hab := same_iff_equal.1 hs
    have ha := hp.input (hp.left he)
    have hk : a.keyType = b.keyType :=
      congrArg Schema.keyType (hab.schema_eq hp ha (hp.right he))
    have hroot : (Expr.binary i .matMul (Expr.unary j op a) b).multipliesUnlike = false := by
      simp [multipliesUnlike, hk]
    rw [hasUnlikePairs_unary, ih ha, hasUnlike_binary, hroot, hasUnlike_unary,
      ← hab.hasUnlike_eq hp ha (hp.right he), Bool.or_self]
    rfl
  | @timesTransposed i j k a a' b b' hg ha hb iha ihb =>
    have hroot :
        (Expr.binary i .matMul a (Expr.unary j .transpose b)).multipliesUnlike = false := by
      cases a <;> simp [multipliesUnlike, isTransposed]
    rw [hasUnlikePairs_binary, iha (hp.left he), ihb (hp.input (hp.right he)), hasUnlike_binary,
      hroot, hasUnlike_unary]
    rfl
  | @transposedTimes i j k op a a' b b' hop hs ht ha hb iha ihb =>
    have hroot : (Expr.binary k .matMulTransA a' b').pairsUnlike =
        (Expr.binary i .matMul (Expr.unary j op a) b).multipliesUnlike := by
      simp [pairsUnlike, multipliesUnlike, hop, ht, ha.keyType_eq, hb.keyType_eq]
    rw [hasUnlikePairs_binary, iha (hp.input (hp.left he)), ihb (hp.right he), hasUnlike_binary,
      hroot, hasUnlike_unary]
    rfl
  | @times i j k a a' b b' hl ht ha hb iha ihb =>
    rw [hasUnlikePairs_binary, hasUnlikePairs_unary, iha (hp.left he), ihb (hp.right he),
      hasUnlike_binary, multipliesUnlike_of_isAnyTransposed i b hl]
    rfl
  | leftMultiply i j k l m ha ih =>
    rw [hasUnlikePairs_unary, hasUnlikePairs_unary, hasUnlikePairs_unary, ih (hp.input he),
      hasUnlike_unary]
  | unary i j hop ha ih => rw [hasUnlikePairs_unary, ih (hp.input he), hasUnlike_unary]
  | @binary i j op a a' b b' hop ha hb iha ihb =>
    rw [hasUnlikePairs_binary, iha (hp.left he), ihb (hp.right he), hasUnlike_binary,
      pairsUnlike_congr j i op (congrArg KeyType.base ha.keyType_eq)
        (congrArg KeyType.base hb.keyType_eq), multipliesUnlike_of_ne i a b hop,
      Bool.or_false]

end Passes

/-! ## Plans -/

section Plans

variable [Cell α] {next : NodeId} {nodes : Set (Expr α)} (hp : Population next nodes)

include hp in
theorem optimize_hasUnlikePairs {e : Expr α} (he : e ∈ nodes) :
    e.optimize.Yields next nodes (fun _ => True) fun plan => plan.hasUnlikePairs = e.hasUnlike := by
  refine (normalize_yields hp he).bind (fun _ _ => trivial) fun middle n N hs hp' hm h => ?_
  refine ((cleanup_yields hp' hm).mapBad fun _ _ => trivial).imp fun plan hplan => ?_
  exact (hplan.cleanForm.hasUnlikePairs_eq hp' hm).trans (h.normalForm.hasUnlikePairs_eq hp he)

include hp in
/-- **Products of rows with unlike keys** are planned like any other. An expression of known
operators without a stranded transposition has a plan, unless keys of a derived class come to light in
one operand of an element-wise operator alone. The plan pairs rows with keys of different types
exactly if the expression does so, or multiplies a transposed matrix with one that has keys of another
type and is not transposed. Classes that are derived from the integers count as integers here, as
their keys are looked up as such; without them, types are their own base. What a product makes of
rows without a common key is zero. -/
theorem optimize_pairs_unlike [LawfulSame α] {e : Expr α} (he : e ∈ nodes) :
    (e.hasForeign = false → e.isStranded = false →
      (∃ plan next', e.optimize next = .ok (plan, next')) ∨
        (e.hasDerivedKeys = true ∧ e.optimize next = .error .elementwiseKeys)) ∧
    ∀ plan next', e.optimize next = .ok (plan, next') →
      ((∃ i a b, binary i .matMulTransA a b ∈ plan.walk ∧ a.keyType.base ≠ b.keyType.base) ↔
        (∃ i a b, binary i .matMulTransA a b ∈ e.walk ∧ a.keyType.base ≠ b.keyType.base) ∨
          ∃ i j op a b, binary i .matMul (unary j op a) b ∈ e.walk ∧ op.transposes = true ∧
            b.isTransposed = false ∧ a.keyType.base ≠ b.keyType.base) ∧
      (e.hasDerivedKeys = false → ∀ x, x ∈ e.walk ∨ x ∈ plan.walk → x.keyType.base = x.keyType) ∧
      ∀ i a b, binary i .matMulTransA a b ∈ plan.walk → a.isIdenticallyPartitioned b = false →
        ∀ blocks call f g, (a.exec blocks call).result = .ok f →
          (b.exec blocks (call + a.size)).result = .ok g →
          (∀ k ∈ f.collection.keys, g.collection.hasKey k = false) →
          ((binary i .matMulTransA a b).exec blocks call).result = do
            let shape ← (binary i .matMulTransA a b).shape
            let (r, c) ← Dense.sides α shape.nrow shape.ncol
            return .ofDense ⟨r, c, Dense.zeros r c⟩ f.collection.partitions.length := by
  refine ⟨fun hf hs => ?_, fun plan next' h => ⟨?_, fun hd x hx => ?_, ?_⟩⟩
  · rcases optimize_decides hp he with
      ⟨error, herr, ⟨hf', -⟩ | ⟨-, hs', -⟩ | ⟨-, hd, rfl⟩⟩ | ⟨plan, next', -, h, -⟩
    · exact absurd (hf.symm.trans hf') nofun
    · exact absurd (hs.symm.trans hs') nofun
    · exact .inr ⟨hd, herr⟩
    · exact .inl ⟨plan, next', h⟩
  · obtain ⟨-, -, -, -, hplan⟩ := (optimize_hasUnlikePairs hp he).of_ok h
    rw [← hasUnlikePairs_iff, hplan, hasUnlike_iff]
  · refine KeyType.base_of_not_isDerived (Bool.eq_false_iff.2 fun hk => ?_)
    have hx' := hasDerivedKeys_of_isDerived hk
    obtain ⟨-, -, -, -, hplanned⟩ := planned_of_optimize hp he h
    refine absurd hd (ne_false_of_eq_true ?_)
    rcases hx with hx | hx
    · exact hasDerivedKeys_of_mem_walk hx hx'
    · exact hplanned.hasDerivedKeys_of (hasDerivedKeys_of_mem_walk hx hx')
  · intro i a b _ htags blocks call f g hf hg hkeys
    have hzip : Tag.evident a.tag b.tag = false := htags
    simp only [exec, BinaryOp.kernel?, Traced.result_bind, hf, hg, hzip]
    change ((binary i .matMulTransA a b).shape >>= fun shape =>
      f.transposedTimes g shape false) = _
    simp only [f.transposedTimes_apart g _ hkeys]

end Plans

/-! ### An integer and a text -/

/-- A leaf with one row of one cell. -/
def rowLeaf (i : NodeId) (key : Key) (cell : Float) (tag : Tag) : Expr Float :=
  checkpoint i ⟨⟨⟨[[(key, .plain [cell])]], key.type⟩, 1⟩, 0, 1, 1, .unknown, .none, tag, key.type⟩

/-- The transpose of a row with an integer for a key, times a row with a text for a key. -/
def unlikeProduct : Expr Float :=
  binary 3 .matMul (unary 2 .transpose (rowLeaf 0 (.int 0) 2 1)) (rowLeaf 1 (.text "a") 3 2)

theorem optimize_pairs_unlike_text : ∃ plan next', unlikeProduct.optimize 4 = .ok (plan, next') ∧
    ∃ i a b, binary i .matMulTransA a b ∈ plan.walk ∧ a.keyType.base ≠ b.keyType.base := by
  have hp : Population 4 (insert unlikeProduct (insert (unary 2 .transpose (rowLeaf 0 (.int 0) 2 1))
      (insert (rowLeaf 1 (.text "a") 3 2) (insert (rowLeaf 0 (.int 0) 2 1) ∅)))) := by
    refine ((((Population.empty 0).insert rfl ?_ ?_).insert rfl ?_ ?_).insert rfl ?_ ?_).insert
      rfl ?_ ?_
    all_goals first | trivial | simp [unlikeProduct, rowLeaf, children]
  obtain ⟨hplanned, hpairs⟩ := optimize_pairs_unlike hp (Set.mem_insert _ _)
  rcases hplanned rfl rfl with ⟨plan, next', h⟩ | ⟨hd, -⟩
  · refine ⟨plan, next', h, (hpairs plan next' h).1.2 (.inr ?_)⟩
    exact ⟨_, _, _, _, _, mem_walk_self _, rfl, rfl, by decide⟩
  · cases hd

/-- Both operands are built by the algebra, no key of one is a key of the other, and still their
product is planned and computed. -/
theorem unlikeProduct_planned :
    (do matMul (← transposed (rowLeaf 0 (.int 0) 2 1)) (rowLeaf 1 (.text "a") 3 2)) 2 =
      .ok (unlikeProduct, 4) ∧
    ∃ plan next', unlikeProduct.optimize 4 = .ok (plan, next') ∧
      (∃ i a b, plan = binary i .matMulTransA a b ∧ a.keyType = .int ∧ b.keyType = .text) ∧
      ∀ blocks call, ∃ h, (plan.exec blocks call).result = .ok h ∧
        h.collect (some 1) = .ok ⟨1, 1, Dense.zeros 1 1⟩ :=
  ⟨rfl, _, _, rfl, ⟨_, _, _, rfl, rfl, rfl⟩, fun _ _ => ⟨_, rfl, rfl⟩⟩

end Expr

end RowAlgebra
