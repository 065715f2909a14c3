import RowAlgebra.Proofs.Plan.Optimized

/-!
# Which expressions have no plan

A transposition for any keys can be computed as part of a product only. It is *stranded* where it is
no left operand of a product that takes it in (`strandsInput`), and a product makes one of its own
where neither operand is transposed and the keys of the right one are not integers (`needsFlip`).
The normal form of an expression transposes such keys exactly if one of both occurs
(`hasAnyKey_normalForm`), and then the second pass refuses it (`optimize_fails_iff`).
-/

namespace RowAlgebra.Expr

variable {α : Type}

def isAnyKeyTransposed : Expr α → Bool
  | unary _ .transposeAnyKey _ => true
  | _ => false

theorem isAnyKeyTransposed_iff {e : Expr α} :
    e.isAnyKeyTransposed = true ↔ ∃ i a, e = unary i .transposeAnyKey a := by
  constructor
  · intro h
    unfold isAnyKeyTransposed at h
    split at h
    · exact ⟨_, _, rfl⟩
    · cases h
  · rintro ⟨i, a, rfl⟩
    rfl

theorem isAnyKeyTransposed_of_isAnyTransposed {e : Expr α} (h : e.isAnyTransposed = false) :
    e.isAnyKeyTransposed = false := by
  by_contra hk
  obtain ⟨i, a, rfl⟩ := isAnyKeyTransposed_iff.1 (Bool.not_eq_false _ ▸ hk)
  cases h

/-- Whether a node is a product whose left operand is not transposed and whose right operand cannot
be. -/
def needsFlip : Expr α → Bool
  | binary _ .matMul a b => !a.isAnyTransposed && !b.keyType.isInt
  | _ => false

theorem needsFlip_of_ne (i : NodeId) {op : BinaryOp} (a b : Expr α) (h : op ≠ .matMul) :
    (binary i op a b).needsFlip = false := by
  rw [needsFlip]
  rintro j x y hxy
  cases hxy
  exact h rfl

theorem needsFlip_transposedLeft (i j : NodeId) {op : UnaryOp α} (a b : Expr α)
    (hop : op.transposes = true) : (binary i .matMul (unary j op a) b).needsFlip = false := by
  simp [needsFlip, isAnyTransposed, hop]

theorem needsFlip_transposedRight (i j : NodeId) (a b : Expr α) :
    (binary i .matMul a (unary j .transpose b)).needsFlip = false := by
  simp [needsFlip, keyType, schema, UnaryOp.schema, KeyType.isInt]

theorem hasAnyKey_transposition (i : NodeId) (t : KeyType) (a : Expr α) :
    (unary i (transposition t) a).hasAnyKey = (!t.isInt || a.hasAnyKey) := by
  cases t <;> simp [transposition, KeyType.isInt, hasAnyKey]

variable [Cell α]

/-- Whether an operand of a node is a transposition for any keys that does not become part of a
product: only that on the left-hand side of a product does, if the right operand is what it
transposes or is not transposed itself. -/
def strandsInput : Expr α → Bool
  | binary _ .matMul (unary _ .transposeAnyKey a) b =>
    b.isAnyKeyTransposed || (!a.same b && b.isTransposed)
  | binary _ _ a b => a.isAnyKeyTransposed || b.isAnyKeyTransposed
  | unary _ _ a => a.isAnyKeyTransposed
  | checkpoint _ _ | foreign _ _ => false

/-- Whether some node strands a transposition or needs one that there is not. -/
def hasStranded (e : Expr α) : Bool :=
  e.walk.any fun x => x.strandsInput || x.needsFlip

def isStranded (e : Expr α) : Bool :=
  e.isAnyKeyTransposed || e.hasStranded

theorem hasStranded_unary (i : NodeId) (op : UnaryOp α) (a : Expr α) :
    (unary i op a).hasStranded = a.isStranded := by
  simp [hasStranded, isStranded, walk_unary, strandsInput, needsFlip]

theorem hasStranded_binary (i : NodeId) (op : BinaryOp) (a b : Expr α) :
    (binary i op a b).hasStranded =
      ((binary i op a b).strandsInput || (binary i op a b).needsFlip ||
        (a.hasStranded || b.hasStranded)) := by
  simp [hasStranded, walk_binary, Bool.or_assoc]

theorem isStranded_binary (i : NodeId) (op : BinaryOp) (a b : Expr α) :
    (binary i op a b).isStranded = (binary i op a b).hasStranded :=
  rfl

theorem strandsInput_binary (i : NodeId) {op : BinaryOp} {a b : Expr α}
    (h : op ≠ .matMul ∨ a.isAnyKeyTransposed = false) :
    (binary i op a b).strandsInput = (a.isAnyKeyTransposed || b.isAnyKeyTransposed) := by
  rw [strandsInput]
  rintro j x rfl rfl
  rcases h with h | h
  · exact h rfl
  · cases h

/-! ## Equal expressions -/

namespace Equal

theorem kinds_eq {a b : Expr α} (h : Equal a b) :
    a.isTransposed = b.isTransposed ∧ a.isAnyKeyTransposed = b.isAnyKeyTransposed ∧
      a.isAnyTransposed = b.isAnyTransposed := by
  cases h with
  | checkpoint => exact ⟨rfl, rfl, rfl⟩
  | foreign => exact ⟨rfl, rfl, rfl⟩
  | @unary i j op op' a a' hop _ =>
    cases op <;> cases op' <;> first | exact ⟨rfl, rfl, rfl⟩ | cases hop
  | binary => exact ⟨rfl, rfl, rfl⟩

theorem strandsInput_eq [LawfulSame α] {e f : Expr α} (h : Equal e f) :
    e.strandsInput = f.strandsInput := by
  cases h with
  | checkpoint => rfl
  | foreign => rfl
  | unary _ ha => exact ha.kinds_eq.2.1
  | @binary i j op a a' b b' ha hb =>
    by_cases h : op ≠ .matMul ∨ a.isAnyKeyTransposed = false
    · have h' : op ≠ .matMul ∨ a'.isAnyKeyTransposed = false := ha.kinds_eq.2.1 ▸ h
      rw [strandsInput_binary i h, strandsInput_binary j h', ha.kinds_eq.2.1, hb.kinds_eq.2.1]
    · obtain ⟨rfl, hk⟩ : op = .matMul ∧ a.isAnyKeyTransposed = true := by simpa using h
      obtain ⟨k, x, rfl⟩ := isAnyKeyTransposed_iff.1 hk
      obtain ⟨k', x', rfl⟩ := isAnyKeyTransposed_iff.1 (ha.kinds_eq.2.1 ▸ hk)
      cases ha with
      | unary _ hx =>
        simp only [strandsInput, hx.congr hb, hb.kinds_eq.1, hb.kinds_eq.2.1]

variable {next : NodeId} {nodes : Set (Expr α)} (hp : Population next nodes)

include hp in
theorem needsFlip_eq {e f : Expr α} (h : Equal e f) (he : e ∈ nodes) (hf : f ∈ nodes) :
    e.needsFlip = f.needsFlip := by
  cases h with
  | checkpoint => rfl
  | foreign => rfl
  | unary => rfl
  | @binary i j op a a' b b' ha hb =>
    have hk : b.keyType = b'.keyType :=
      congrArg Schema.keyType (hb.schema_eq hp (hp.right he) (hp.right hf))
    cases op <;> simp only [needsFlip, ha.kinds_eq.2.2, hk]

include hp in
/-- Equal expressions have a plan, or have none, together. -/
theorem hasStranded_eq [LawfulSame α] {e f : Expr α} (h : Equal e f) (he : e ∈ nodes)
    (hf : f ∈ nodes) : e.hasStranded = f.hasStranded := by
  induction h with
  | checkpoint => rfl
  | foreign => rfl
  | unary hop ha ih =>
    rw [hasStranded_unary, hasStranded_unary, isStranded, isStranded, ha.kinds_eq.2.1,
      ih (hp.input he) (hp.input hf)]
  | binary i j op ha hb iha ihb =>
    have h := Equal.binary i j op ha hb
    rw [hasStranded_binary, hasStranded_binary, h.strandsInput_eq, h.needsFlip_eq hp he hf,
      iha (hp.left he) (hp.left hf), ihb (hp.right he) (hp.right hf)]

end Equal

/-! ## Normal forms -/

theorem strandsInput_transposedLeft (i j : NodeId) {op : UnaryOp α} {a b : Expr α}
    (hop : op.transposes = true) (h : a.same b = true ∨ b.isTransposed = false) :
    (binary i .matMul (unary j op a) b).strandsInput = b.isAnyKeyTransposed := by
  rcases UnaryOp.transposes_iff.1 hop with rfl | rfl
  · rw [strandsInput_binary i (.inr rfl)]
    rfl
  · rcases h with h | h <;> simp [strandsInput, h]

theorem strandsInput_transposedRight (i j : NodeId) {a b : Expr α}
    (hg : a.isGramian (unary j .transpose b) = false) :
    (binary i .matMul a (unary j .transpose b)).strandsInput = a.isAnyKeyTransposed := by
  cases hk : a.isAnyKeyTransposed with
  | false =>
    rw [strandsInput_binary i (.inr hk), hk]
    rfl
  | true =>
    obtain ⟨l, x, rfl⟩ := isAnyKeyTransposed_iff.1 hk
    have hs : x.same (unary j .transpose b) = false := hg
    simp [strandsInput, hs, isTransposed]

/-- **Stranded transpositions** are what a normal form keeps of transpositions for any keys. -/
theorem hasAnyKey_normalForm [LawfulSame α] {next : NodeId} {nodes : Set (Expr α)}
    (hp : Population next nodes) {e e' : Expr α} (h : NormalForm e e') (he : e ∈ nodes) :
    e'.hasAnyKey = e.isStranded := by
  induction h with
  | checkpoint => rfl
  | @gramian i j k op a a' b hop hs ha ih =>
    have hab := same_iff_equal.1 hs
    have hb := hab.hasStranded_eq hp (hp.input (hp.left he)) (hp.right he)
    rw [hasAnyKey_unary k a' (by simp), ih (hp.input (hp.left he)), isStranded_binary,
      hasStranded_binary, strandsInput_transposedLeft i j hop (.inl hs),
      needsFlip_transposedLeft i j a b hop, hasStranded_unary, isStranded, ← hb, ← hab.kinds_eq.2.1]
    cases a.isAnyKeyTransposed <;> cases a.hasStranded <;> rfl
  | @timesTransposed i j k a a' b b' hg ha hb iha ihb =>
    rw [hasAnyKey, iha (hp.left he), ihb (hp.input (hp.right he)), isStranded_binary,
      hasStranded_binary, strandsInput_transposedRight i j hg, needsFlip_transposedRight,
      hasStranded_unary, isStranded]
    cases a.isAnyKeyTransposed <;> cases a.hasStranded <;> rfl
  | @transposedTimes i j k op a a' b b' hop hs ht ha hb iha ihb =>
    rw [hasAnyKey, iha (hp.input (hp.left he)), ihb (hp.right he), isStranded_binary,
      hasStranded_binary, strandsInput_transposedLeft i j hop (.inr ht),
      needsFlip_transposedLeft i j a b hop, hasStranded_unary]
    simp only [isStranded]
    cases a.isAnyKeyTransposed <;> cases a.hasStranded <;> cases b.isAnyKeyTransposed <;> rfl
  | @times i j k a a' b b' hl ht ha hb iha ihb =>
    have hk := isAnyKeyTransposed_of_isAnyTransposed hl
    have hflip : (binary i .matMul a b).needsFlip = !b.keyType.isInt := by
      simp [needsFlip, hl]
    rw [hasAnyKey, hasAnyKey_transposition, iha (hp.left he), ihb (hp.right he), isStranded_binary,
      hasStranded_binary, strandsInput_binary i (.inr hk), hflip, isStranded, isStranded, hk]
    cases a.hasStranded <;> cases b.isAnyKeyTransposed <;> cases b.keyType.isInt <;> rfl
  | leftMultiply i j k l m ha ih =>
    rw [hasAnyKey_unary _ _ (by simp), hasAnyKey_unary _ _ (by simp), hasAnyKey_unary _ _ (by simp),
      ih (hp.input he)]
    exact (hasStranded_unary i (.leftMultiply m) _).symm
  | @unary i j op a a' hop ha ih =>
    by_cases hk : op = .transposeAnyKey
    · subst hk
      rfl
    · have hroot : (Expr.unary i op a).isAnyKeyTransposed = false := by
        cases op <;> first | rfl | exact absurd rfl hk
      calc (Expr.unary j op a').hasAnyKey
        _ = a'.hasAnyKey := hasAnyKey_unary j a' hk
        _ = (Expr.unary i op a).hasStranded := (ih (hp.input he)).trans (hasStranded_unary i op a).symm
        _ = (Expr.unary i op a).isStranded := by rw [isStranded, hroot, Bool.false_or]
  | @binary i j op a a' b b' hop ha hb iha ihb =>
    rw [hasAnyKey, iha (hp.left he), ihb (hp.right he), isStranded_binary,
      hasStranded_binary, strandsInput_binary i (.inl hop), needsFlip_of_ne i a b hop, isStranded,
      isStranded]
    cases a.isAnyKeyTransposed <;> cases a.hasStranded <;> cases b.isAnyKeyTransposed <;> rfl

end RowAlgebra.Expr
