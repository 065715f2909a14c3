import RowAlgebra.Plan
import RowAlgebra.Proofs.Expr.Sameness

/-!
# What the first pass does

`NormalForm e e'` says that `e'` is a normal form of `e`, with one constructor for each rule and the
conditions under which no earlier rule fits; the numbers of new nodes are left open. `normalize`
yields a normal form that agrees with the expression on everything but the tag, and fails only for
an operator that it does not know (`normalize_yields`). Whatever is to be known of the first pass
follows from this by induction on `NormalForm`.
-/

namespace RowAlgebra

namespace UnaryOp

variable {α : Type}

/-- Whether an operator transposes its input, whatever the keys are. -/
def transposes : UnaryOp α → Bool
  | transpose | transposeAnyKey => true
  | _ => false

theorem transposes_iff {op : UnaryOp α} :
    op.transposes = true ↔ op = transpose ∨ op = transposeAnyKey := by
  cases op <;> simp [transposes]

theorem schema_of_transposes {op : UnaryOp α} (h : op.transposes = true) (s : Schema) :
    op.schema s = ⟨s.columns, s.rows, .int, .unknown⟩ := by
  rcases transposes_iff.1 h with rfl | rfl <;> rfl

end UnaryOp

namespace Expr

variable {α : Type}

/-! ## Kinds of nodes -/

def hasForeign : Expr α → Bool
  | checkpoint _ _ => false
  | foreign _ _ => true
  | unary _ _ a => a.hasForeign
  | binary _ _ a b => a.hasForeign || b.hasForeign

theorem transposes_transposition (t : KeyType) :
    (transposition t : UnaryOp α).transposes = true := by
  unfold transposition
  split <;> rfl

def isTransposed : Expr α → Bool
  | unary _ .transpose _ => true
  | _ => false

/-- Whether a node transposes a matrix, whatever its keys are. -/
def isAnyTransposed : Expr α → Bool
  | unary _ op _ => op.transposes
  | _ => false

theorem isTransposed_iff {e : Expr α} :
    e.isTransposed = true ↔ ∃ i a, e = unary i .transpose a := by
  constructor
  · intro h
    unfold isTransposed at h
    split at h
    · exact ⟨_, _, rfl⟩
    · cases h
  · rintro ⟨i, a, rfl⟩
    rfl

theorem ne_transpose {e : Expr α} (h : e.isTransposed = false) (i : NodeId) (a : Expr α)
    (he : e = unary i .transpose a) : False := by
  subst he
  cases h

theorem isAnyTransposed_iff {e : Expr α} :
    e.isAnyTransposed = true ↔ ∃ i op a, e = unary i op a ∧ op.transposes = true := by
  constructor
  · intro h
    unfold isAnyTransposed at h
    split at h
    · exact ⟨_, _, _, rfl, h⟩
    · cases h
  · rintro ⟨i, op, a, rfl, h⟩
    exact h

variable [Cell α]

/-- Whether the left operand of a product transposes what the right operand is. -/
def isGramian : Expr α → Expr α → Bool
  | unary _ op a, b => op.transposes && a.same b
  | _, _ => false

theorem Equal.hasForeign_eq {a b : Expr α} (h : Equal a b) : a.hasForeign = b.hasForeign := by
  induction h with
  | checkpoint => rfl
  | foreign => rfl
  | unary _ _ ih => exact ih
  | binary _ _ _ _ _ iha ihb => simp only [hasForeign, iha, ihb]

/-! ## The rules -/

/-- The normal forms of an expression. -/
inductive NormalForm : Expr α → Expr α → Prop
  | checkpoint (i : NodeId) (c : Checkpoint α) : NormalForm (checkpoint i c) (checkpoint i c)
  /-- `A'A` -/
  | gramian (i j k : NodeId) {op : UnaryOp α} {a a' b : Expr α} (hop : op.transposes = true)
      (hs : a.same b = true) (ha : NormalForm a a') :
      NormalForm (binary i .matMul (unary j op a) b) (unary k .selfGramian a')
  /-- `AB'` -/
  | timesTransposed (i j k : NodeId) {a a' b b' : Expr α}
      (hg : a.isGramian (unary j .transpose b) = false) (ha : NormalForm a a')
      (hb : NormalForm b b') :
      NormalForm (binary i .matMul a (unary j .transpose b)) (binary k .matMulTransB a' b')
  /-- `A'B` -/
  | transposedTimes (i j k : NodeId) {op : UnaryOp α} {a a' b b' : Expr α}
      (hop : op.transposes = true) (hs : a.same b = false) (ht : b.isTransposed = false)
      (ha : NormalForm a a') (hb : NormalForm b b') :
      NormalForm (binary i .matMul (unary j op a) b) (binary k .matMulTransA a' b')
  /-- `AB = A(B')'` -/
  | times (i j k : NodeId) {a a' b b' : Expr α} (hl : a.isAnyTransposed = false)
      (ht : b.isTransposed = false) (ha : NormalForm a a') (hb : NormalForm b b') :
      NormalForm (binary i .matMul a b)
        (binary k .matMulTransB a' (unary j (transposition b.keyType) b'))
  /-- `MA = (A'M')'` -/
  | leftMultiply (i j k l : NodeId) (m : Dense α) {a a' : Expr α} (ha : NormalForm a a') :
      NormalForm (unary i (.leftMultiply m) a)
        (unary l .transpose (unary k (.rightMultiply m.transposed) (unary j .transpose a')))
  | unary (i j : NodeId) {op : UnaryOp α} {a a' : Expr α} (hop : ∀ m, op ≠ .leftMultiply m)
      (ha : NormalForm a a') : NormalForm (unary i op a) (unary j op a')
  | binary (i j : NodeId) {op : BinaryOp} {a a' b b' : Expr α} (hop : op ≠ .matMul)
      (ha : NormalForm a a') (hb : NormalForm b b') :
      NormalForm (binary i op a b) (binary j op a' b')

/-! ## The first pass rule by rule -/

section Equations

-- The equations that all rules are read off are derived here, once.
attribute [local simp] normalize

theorem normalize_gramian (i j : NodeId) {op : UnaryOp α} {a b : Expr α}
    (hop : op.transposes = true) (hs : a.same b = true) :
    (binary i .matMul (unary j op a) b).normalize = (do ofUnary .selfGramian (← a.normalize)) := by
  cases ht : b.isTransposed with
  | true =>
    obtain ⟨k, c, rfl⟩ := isTransposed_iff.1 ht
    rcases UnaryOp.transposes_iff.1 hop with rfl | rfl <;> rw [normalize, if_pos hs]
  | false =>
    rcases UnaryOp.transposes_iff.1 hop with rfl | rfl
    · rw [normalize, if_pos hs]
      exact ne_transpose ht
    · rw [normalize, if_pos hs]
      exact ne_transpose ht

theorem normalize_timesTransposed (i j : NodeId) {a b : Expr α}
    (hg : a.isGramian (unary j .transpose b) = false) :
    (binary i .matMul a (unary j .transpose b)).normalize = (do
      let l ← a.normalize
      ofBinary .matMulTransB l (← b.normalize)) := by
  cases ha : a.isAnyTransposed with
  | true =>
    obtain ⟨k, op, x, rfl, hop⟩ := isAnyTransposed_iff.1 ha
    have hs : ¬ x.same (unary j .transpose b) = true := by
      simpa [isGramian, hop] using hg
    rcases UnaryOp.transposes_iff.1 hop with rfl | rfl
    · conv_lhs => rw [normalize, if_neg hs]
    · conv_lhs => rw [normalize, if_neg hs]
  | false =>
    rw [normalize]
    · rintro k x rfl
      cases ha
    · rintro k x rfl
      cases ha

theorem normalize_transposedTimes (i j : NodeId) {op : UnaryOp α} {a b : Expr α}
    (hop : op.transposes = true) (hs : a.same b = false) (ht : b.isTransposed = false) :
    (binary i .matMul (unary j op a) b).normalize = (do
      let l ← a.normalize
      ofBinary .matMulTransA l (← b.normalize)) := by
  have hs : ¬ a.same b = true := by simp [hs]
  rcases UnaryOp.transposes_iff.1 hop with rfl | rfl
  · rw [normalize, if_neg hs]
    exact ne_transpose ht
  · rw [normalize, if_neg hs]
    exact ne_transpose ht

theorem normalize_times (i : NodeId) {a b : Expr α} (hl : a.isAnyTransposed = false)
    (ht : b.isTransposed = false) :
    (binary i .matMul a b).normalize = (do
      let l ← a.normalize
      ofBinary .matMulTransB l (← transposed (← b.normalize))) := by
  rw [normalize]
  · rintro k x rfl
    cases hl
  · rintro k x rfl
    cases hl
  · exact ne_transpose ht

theorem normalize_leftMultiply (i : NodeId) (m : Dense α) (a : Expr α) :
    (unary i (.leftMultiply m) a).normalize = (do
      let flipped ← transposed (← a.normalize)
      ofUnary .transpose (← ofUnary (.rightMultiply m.transposed) flipped)) := by
  simp

theorem normalize_unary (i : NodeId) {op : UnaryOp α} (a : Expr α)
    (hop : ∀ m, op ≠ .leftMultiply m) :
    (unary i op a).normalize = (do withInput i op a (← a.normalize)) := by
  rw [normalize]
  exact hop

theorem normalize_binary (i : NodeId) {op : BinaryOp} (a b : Expr α) (hop : op ≠ .matMul) :
    (binary i op a b).normalize = (do
      let l ← a.normalize
      withInputs i op a b l (← b.normalize)) := by
  rw [normalize]
  exact hop

end Equations

/-! ## The outcome of the first pass -/

/-- How the first pass refuses an expression. -/
def Unknown (e : Expr α) (error : Error) : Prop :=
  e.hasForeign = true ∧ ∃ t, error = .noNormalForm t

/-- What the first pass yields for an expression. -/
structure Normalized (e e' : Expr α) : Prop where
  known : e.hasForeign = false
  normalForm : NormalForm e e'
  alike : e'.schema.Alike e.schema

theorem isGramian_iff {a b : Expr α} : a.isGramian b = true ↔
    ∃ j op x, a = unary j op x ∧ op.transposes = true ∧ x.same b = true := by
  cases a <;> simp [isGramian]

/-- The rule that fits the product of two matrices. -/
inductive ProductRule : Expr α → Expr α → Prop
  | gramian (j : NodeId) {op : UnaryOp α} {a b : Expr α} (hop : op.transposes = true)
      (hs : a.same b = true) : ProductRule (unary j op a) b
  | timesTransposed (j : NodeId) {a b : Expr α}
      (hg : a.isGramian (unary j .transpose b) = false) : ProductRule a (unary j .transpose b)
  | transposedTimes (j : NodeId) {op : UnaryOp α} {a b : Expr α} (hop : op.transposes = true)
      (hs : a.same b = false) (ht : b.isTransposed = false) : ProductRule (unary j op a) b
  | times {a b : Expr α} (hl : a.isAnyTransposed = false) (ht : b.isTransposed = false) :
      ProductRule a b

theorem productRule (a b : Expr α) : ProductRule a b := by
  cases hg : a.isGramian b with
  | true =>
    obtain ⟨j, op, x, rfl, hop, hs⟩ := isGramian_iff.1 hg
    exact .gramian j hop hs
  | false =>
    cases ht : b.isTransposed with
    | true =>
      obtain ⟨j, y, rfl⟩ := isTransposed_iff.1 ht
      exact .timesTransposed j hg
    | false =>
      cases hl : a.isAnyTransposed with
      | true =>
        obtain ⟨j, op, x, rfl, hop⟩ := isAnyTransposed_iff.1 hl
        exact .transposedTimes j hop (by simpa [isGramian, hop] using hg) ht
      | false => exact .times hl ht

/-- Whether an expression is brought into normal form, whatever nodes have joined its population. -/
def Normalizes (nodes : Set (Expr α)) (e : Expr α) : Prop :=
  ∀ next' nodes', nodes ⊆ nodes' → Population next' nodes' →
    e.normalize.Yields next' nodes' e.Unknown e.Normalized

section Rules

variable {next : NodeId} {nodes : Set (Expr α)} (hp : Population next nodes)

include hp in
/-- The operands of a node are brought into normal form one after the other. -/
theorem operands_yield {e a b : Expr α} {f : Expr α → Expr α → Build (Expr α)}
    {Good : Expr α → Prop} (he : e.hasForeign = (a.hasForeign || b.hasForeign))
    (iha : a.Normalizes nodes) (ihb : b.Normalizes nodes)
    (hf : ∀ a' b' next' nodes', nodes ⊆ nodes' → Population next' nodes' → a' ∈ nodes' →
      b' ∈ nodes' → a.Normalized a' → b.Normalized b' → e.hasForeign = false →
      (f a' b').Yields next' nodes' e.Unknown Good) :
    Build.Yields (do let l ← a.normalize; f l (← b.normalize)) next nodes e.Unknown Good := by
  refine (iha next nodes Set.Subset.rfl hp).bind (fun error h => ⟨?_, h.2⟩)
    fun a' n₁ N₁ hs₁ hp₁ ha' h₁ => ?_
  · rw [he, h.1, Bool.true_or]
  refine (ihb n₁ N₁ hs₁ hp₁).bind (fun error h => ⟨?_, h.2⟩) fun b' n₂ N₂ hs₂ hp₂ hb' h₂ => ?_
  · rw [he, h.1, Bool.or_true]
  have hknown : e.hasForeign = false := by rw [he, h₁.known, h₂.known, Bool.or_self]
  exact hf a' b' n₂ N₂ (hs₁.trans hs₂) hp₂ (hs₂ ha') hb' h₁ h₂ hknown

include hp in
theorem gramian_yields {i j : NodeId} {op : UnaryOp α} {a b : Expr α}
    (he : binary i .matMul (unary j op a) b ∈ nodes) (hop : op.transposes = true)
    (hs : a.same b = true) (iha : a.Normalizes nodes) :
    let e := binary i .matMul (unary j op a) b
    e.normalize.Yields next nodes e.Unknown e.Normalized := by
  intro e
  have heq : Equal a b := same_iff_equal.1 hs
  have hf : e.hasForeign = a.hasForeign := by
    simp only [e, hasForeign, heq.hasForeign_eq, Bool.or_self]
  have hschema : a.schema = b.schema := heq.schema_eq hp (hp.input (hp.left he)) (hp.right he)
  have hleft : (unary j op a).schema = _ := UnaryOp.schema_of_transposes hop a.schema
  rw [normalize_gramian i j hop hs]
  refine (iha next nodes Set.Subset.rfl hp).bind (fun error h => ⟨hf.trans h.1, h.2⟩)
    fun a' next' nodes' _ hp' ha' h => ?_
  refine (ofUnary_yields hp' ha' rfl).imp ?_
  rintro _ ⟨k, rfl⟩
  refine ⟨hf.trans h.known, .gramian i j k hop hs h.normalForm, ?_, ?_, ?_⟩
  · exact h.alike.columns.trans (congrArg Schema.rows hleft).symm
  · exact h.alike.columns.trans (congrArg Schema.columns hschema : _ = b.schema.columns)
  · exact (congrArg Schema.keyType hleft).symm

include hp in
theorem timesTransposed_yields {i j : NodeId} {a b : Expr α}
    (he : binary i .matMul a (unary j .transpose b) ∈ nodes)
    (hg : a.isGramian (unary j .transpose b) = false) (iha : a.Normalizes nodes)
    (ihb : b.Normalizes nodes) :
    let e := binary i .matMul a (unary j .transpose b)
    e.normalize.Yields next nodes e.Unknown e.Normalized := by
  intro e
  rw [normalize_timesTransposed i j hg]
  refine operands_yield hp rfl iha ihb fun a' b' n N hs hp' ha' hb' h₁ h₂ hknown => ?_
  have hmul := BinaryOp.admits_matMul_iff.1 (hp.admitted _ he)
  have hint : b.schema.keyType.isInt = true :=
    UnaryOp.admits_transpose_iff.1 (hp.admitted _ (hp.right he))
  have hadm : BinaryOp.matMulTransB.admits a'.schema b'.schema = .ok () := by
    rw [BinaryOp.admits_matMulTransB_iff, h₁.alike.columns, h₂.alike.columns, h₂.alike.keyType]
    exact ⟨hmul, hint⟩
  refine (ofBinary_yields hp' ha' hb' hadm).imp ?_
  rintro _ ⟨k, rfl⟩
  exact ⟨hknown, .timesTransposed i j k hg h₁.normalForm h₂.normalForm, h₁.alike.rows,
    h₂.alike.rows, h₁.alike.keyType⟩

include hp in
theorem transposedTimes_yields {i j : NodeId} {op : UnaryOp α} {a b : Expr α}
    (he : binary i .matMul (unary j op a) b ∈ nodes) (hop : op.transposes = true)
    (hs : a.same b = false) (ht : b.isTransposed = false) (iha : a.Normalizes nodes)
    (ihb : b.Normalizes nodes) :
    let e := binary i .matMul (unary j op a) b
    e.normalize.Yields next nodes e.Unknown e.Normalized := by
  intro e
  rw [normalize_transposedTimes i j hop hs ht]
  refine operands_yield hp rfl iha ihb fun a' b' n N hs' hp' ha' hb' h₁ h₂ hknown => ?_
  have hmul := BinaryOp.admits_matMul_iff.1 (hp.admitted _ he)
  have hadm : BinaryOp.matMulTransA.admits a'.schema b'.schema = .ok () := by
    rw [BinaryOp.admits_matMulTransA_iff, h₁.alike.rows, h₂.alike.rows]
    simpa only [schema, UnaryOp.schema_of_transposes hop] using hmul
  refine (ofBinary_yields hp' ha' hb' hadm).imp ?_
  rintro _ ⟨k, rfl⟩
  refine ⟨hknown, .transposedTimes i j k hop hs ht h₁.normalForm h₂.normalForm, ?_,
    h₂.alike.columns, ?_⟩
  · simp only [e, schema, BinaryOp.schema, UnaryOp.schema_of_transposes hop, h₁.alike.columns]
  · simp only [e, schema, BinaryOp.schema, UnaryOp.schema_of_transposes hop]

include hp in
theorem times_yields {i : NodeId} {a b : Expr α} (he : binary i .matMul a b ∈ nodes)
    (hl : a.isAnyTransposed = false) (ht : b.isTransposed = false) (iha : a.Normalizes nodes)
    (ihb : b.Normalizes nodes) :
    let e := binary i .matMul a b
    e.normalize.Yields next nodes e.Unknown e.Normalized := by
  intro e
  rw [normalize_times i hl ht]
  refine operands_yield hp rfl iha ihb fun a' b' n N hs hp' ha' hb' h₁ h₂ hknown => ?_
  refine (transposed_yields hp' hb').bind (fun _ h => h) ?_
  rintro _ n' N' hs' hp'' hr ⟨j, rfl⟩
  rw [show b'.keyType = b.keyType from h₂.alike.keyType] at hr ⊢
  have hmul := BinaryOp.admits_matMul_iff.1 (hp.admitted _ he)
  have hflip := UnaryOp.schema_of_transposes (transposes_transposition (α := α) b.keyType)
    b'.schema
  have hadm : BinaryOp.matMulTransB.admits a'.schema
      (unary j (transposition b.keyType) b').schema = .ok () := by
    rw [BinaryOp.admits_matMulTransB_iff]
    simp only [schema, hflip, h₁.alike.columns, h₂.alike.rows]
    exact ⟨hmul, rfl⟩
  refine (ofBinary_yields hp'' (hs' ha') hr hadm).imp ?_
  rintro _ ⟨k, rfl⟩
  refine ⟨hknown, .times i j k hl ht h₁.normalForm h₂.normalForm, h₁.alike.rows, ?_,
    h₁.alike.keyType⟩
  simp only [e, schema, BinaryOp.schema, hflip, h₂.alike.columns]

include hp in
theorem leftMultiply_yields {i : NodeId} {m : Dense α} {a : Expr α}
    (he : unary i (.leftMultiply m) a ∈ nodes) (iha : a.Normalizes nodes) :
    let e := unary i (.leftMultiply m) a
    e.normalize.Yields next nodes e.Unknown e.Normalized := by
  intro e
  rw [normalize_leftMultiply]
  refine (iha next nodes Set.Subset.rfl hp).bind (fun error h => h)
    fun a' n₁ N₁ hs₁ hp₁ ha' h => ?_
  obtain ⟨hrows, hint⟩ := UnaryOp.admits_leftMultiply_iff.1 (hp.admitted _ he)
  have hint' : a'.keyType.isInt = true := (congrArg KeyType.isInt h.alike.keyType).trans hint
  refine (transposed_yields hp₁ ha').bind (fun _ h => h) ?_
  rintro _ n₂ N₂ hs₂ hp₂ hflip ⟨j, rfl⟩
  rw [transposition_of_isInt hint'] at hflip ⊢
  have hadm : (UnaryOp.rightMultiply m.transposed).admits
      (unary j .transpose a').schema = .ok () := by
    rw [UnaryOp.admits_rightMultiply_iff]
    simp only [schema, UnaryOp.schema, h.alike.rows]
    exact hrows
  refine (ofUnary_yields hp₂ hflip hadm).bind (fun _ h => h) ?_
  rintro _ n₃ N₃ hs₃ hp₃ hprod ⟨k, rfl⟩
  refine (ofUnary_yields hp₃ hprod (UnaryOp.admits_transpose_iff.2 rfl)).imp ?_
  rintro _ ⟨l, rfl⟩
  exact ⟨h.known, .leftMultiply i j k l m h.normalForm, rfl, h.alike.columns, rfl⟩

include hp in
theorem unary_yields {i : NodeId} {op : UnaryOp α} {a : Expr α} (he : unary i op a ∈ nodes)
    (hop : ∀ m, op ≠ .leftMultiply m) (iha : a.Normalizes nodes) :
    let e := unary i op a
    e.normalize.Yields next nodes e.Unknown e.Normalized := by
  intro e
  rw [normalize_unary i a hop]
  refine (iha next nodes Set.Subset.rfl hp).bind (fun error h => h)
    fun a' n₁ N₁ hs₁ hp₁ ha' h => ?_
  refine (withInput_yields hp₁ (hs₁ he) ha' h.alike.specializes).imp ?_
  rintro _ ⟨j, rfl⟩
  exact ⟨h.known, .unary i j hop h.normalForm, h.alike.unary op⟩

include hp in
theorem binary_yields {i : NodeId} {op : BinaryOp} {a b : Expr α} (he : binary i op a b ∈ nodes)
    (hop : op ≠ .matMul) (iha : a.Normalizes nodes) (ihb : b.Normalizes nodes) :
    let e := binary i op a b
    e.normalize.Yields next nodes e.Unknown e.Normalized := by
  intro e
  rw [normalize_binary i a b hop]
  refine operands_yield hp rfl iha ihb fun a' b' n N hs hp' ha' hb' h₁ h₂ hknown => ?_
  have hkeys : ∀ o, op = .elementwise o → a'.keyType = b'.keyType := by
    rintro o rfl
    have hadm := (BinaryOp.admits_elementwise_iff.1 (hp.admitted _ he)).2
    exact h₁.alike.keyType.trans (hadm.trans h₂.alike.keyType.symm)
  refine (withInputs_yields hp' (hs he) ha' hb' h₁.alike.specializes h₂.alike.specializes
    hkeys).imp ?_
  rintro _ ⟨j, rfl⟩
  exact ⟨hknown, .binary i j hop h₁.normalForm h₂.normalForm, h₁.alike.binary h₂.alike op⟩

end Rules

/-- **The first pass** fails only for an unknown operator, and otherwise yields a normal form that
agrees with the expression on its sides and the type of its keys. -/
theorem normalize_yields {next : NodeId} {nodes : Set (Expr α)} (hp : Population next nodes)
    {e : Expr α} (he : e ∈ nodes) : e.normalize.Yields next nodes e.Unknown e.Normalized := by
  induction hn : e.size using Nat.strong_induction_on generalizing e next nodes with
  | _ n ih =>
    subst hn
    have ih' : ∀ {a : Expr α}, a.size < e.size → a ∈ nodes → a.Normalizes nodes :=
      fun hlt ha next' nodes' hs hp' => ih _ hlt hp' (hs ha) rfl
    cases e with
    | checkpoint i c => exact .pure hp he ⟨rfl, .checkpoint i c, .refl _⟩
    | foreign i shape => exact .throw ⟨rfl, _, rfl⟩
    | unary i op a =>
      have iha := ih' (size_input_lt i op a) (hp.input he)
      by_cases hop : ∃ m, op = .leftMultiply m
      · obtain ⟨m, rfl⟩ := hop
        exact leftMultiply_yields hp he iha
      · exact unary_yields hp he (not_exists.1 hop) iha
    | binary i op a b =>
      have iha := ih' (size_left_lt i op a b) (hp.left he)
      have ihb := ih' (size_right_lt i op a b) (hp.right he)
      by_cases hop : op = .matMul
      · subst hop
        cases productRule a b with
        | @gramian j op x _ hop hs =>
          have hlt := (size_input_lt j op x).trans (size_left_lt i .matMul _ b)
          exact gramian_yields hp he hop hs (ih' hlt (hp.input (hp.left he)))
        | @timesTransposed j _ y hg =>
          have hlt := (size_input_lt j .transpose y).trans (size_right_lt i .matMul a _)
          exact timesTransposed_yields hp he hg iha (ih' hlt (hp.input (hp.right he)))
        | @transposedTimes j op x _ hop hs ht =>
          have hlt := (size_input_lt j op x).trans (size_left_lt i .matMul _ b)
          exact transposedTimes_yields hp he hop hs ht (ih' hlt (hp.input (hp.left he))) ihb
        | times hl ht => exact times_yields hp he hl ht iha ihb
      · exact binary_yields hp he hop iha ihb

end Expr

end RowAlgebra
