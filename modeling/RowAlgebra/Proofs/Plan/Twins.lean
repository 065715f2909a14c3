import RowAlgebra.Proofs.Plan.Metadata
import RowAlgebra.Proofs.Together

/-!
# Plans of one expression over different leaves

Two expressions are `Twins` if one operator corresponds to the other, down to the leaves, which are
related by some `R`. The planner reads little of a leaf: which one it is, and its schema. So it does
the same to twins if `R` keeps that (`Matching`): it refuses both, or makes twins of them
(`optimize_together`). Tags may differ, as long as equal ones of one side are equal on the other side.
-/

namespace RowAlgebra.Expr

variable {α : Type} {R : Expr α → Expr α → Prop}

/-- Expressions that differ in their leaves, and in the numbers of their nodes only. -/
inductive Twins (R : Expr α → Expr α → Prop) : Expr α → Expr α → Prop
  | checkpoint {i j : NodeId} {c d : Checkpoint α} (h : R (.checkpoint i c) (.checkpoint j d)) :
      Twins R (.checkpoint i c) (.checkpoint j d)
  | foreign (i j : NodeId) (shape : Shape) : Twins R (.foreign i shape) (.foreign j shape)
  | unary (i j : NodeId) (op : UnaryOp α) {a b : Expr α} (h : Twins R a b) :
      Twins R (.unary i op a) (.unary j op b)
  | binary (i j : NodeId) (op : BinaryOp) {a a' b b' : Expr α} (ha : Twins R a a')
      (hb : Twins R b b') : Twins R (.binary i op a b) (.binary j op a' b')

/-- A relation between leaves that have known tags and are alike, and of which equal ones correspond
to equal ones. -/
structure Matching (R : Expr α → Expr α → Prop) : Prop where
  identified : ∀ {i j i' j' c d c' d'}, R (checkpoint i c) (checkpoint j d) →
    R (checkpoint i' c') (checkpoint j' d') → (i = i' ↔ j = j')
  tagged : ∀ {i j i' j' c d c' d'}, R (checkpoint i c) (checkpoint j d) →
    R (checkpoint i' c') (checkpoint j' d') → (c.tag = c'.tag ↔ d.tag = d'.tag)
  known : ∀ {i j c d}, R (checkpoint i c) (checkpoint j d) → c.tag ≠ .unknown ∧ d.tag ≠ .unknown
  alike : ∀ {i j c d}, R (checkpoint i c) (checkpoint j d) → c.schema.Alike d.schema

theorem Matching.flip (hR : Matching R) : Matching fun x y => R y x :=
  ⟨fun h h' => (hR.identified h h').symm, fun h h' => (hR.tagged h h').symm,
    fun h => (hR.known h).symm, fun h => (hR.alike h).symm⟩

/-! ## Tags -/

/-- Tags that are both unknown, or those of leaves that correspond to each other. -/
def TagTwins (R : Expr α → Expr α → Prop) (s t : Tag) : Prop :=
  (s = .unknown ∧ t = .unknown) ∨
    ∃ i j c d, R (checkpoint i c) (checkpoint j d) ∧ c.tag = s ∧ d.tag = t

theorem TagTwins.unknown : TagTwins R .unknown .unknown :=
  .inl ⟨rfl, rfl⟩

/-- Tags are as evident as their twins. -/
theorem TagTwins.evident_eq (hR : Matching R) {s t s' t' : Tag} (h : TagTwins R s t)
    (h' : TagTwins R s' t') : Tag.evident s s' = Tag.evident t t' := by
  rw [Bool.eq_iff_iff, Handle.evident_iff, Handle.evident_iff]
  rcases h with ⟨rfl, rfl⟩ | ⟨i, j, c, d, h, rfl, rfl⟩
  · simp
  · obtain ⟨hc, hd⟩ := hR.known h
    rcases h' with ⟨rfl, rfl⟩ | ⟨i', j', c', d', h', rfl, rfl⟩
    · simp [hc, hd]
    · simp [hc, hd, hR.tagged h h']

/-! ## What twins have in common -/

namespace Twins

variable {e e' f f' : Expr α}

theorem flip (h : Twins R e e') : Twins (fun x y => R y x) e' e := by
  induction h with
  | checkpoint h => exact .checkpoint h
  | foreign i j shape => exact .foreign j i shape
  | unary i j op _ ih => exact .unary j i op ih
  | binary i j op _ _ iha ihb => exact .binary j i op iha ihb

theorem exists_leaf (h : Twins R e e') {i : NodeId} {c : Checkpoint α}
    (hc : .checkpoint i c ∈ e.walk) : ∃ j d, R (.checkpoint i c) (.checkpoint j d) := by
  induction h with
  | checkpoint h =>
    cases List.mem_singleton.1 hc
    exact ⟨_, _, h⟩
  | foreign => cases List.mem_singleton.1 hc
  | unary i j op _ ih => exact ih (leaf_mem_unary.1 hc)
  | binary i j op _ _ iha ihb => exact (leaf_mem_binary.1 hc).elim iha ihb

theorem size_eq (h : Twins R e e') : e.size = e'.size := by
  induction h with
  | checkpoint => rfl
  | foreign => rfl
  | unary i j op _ ih => rw [size, size, ih]
  | binary i j op _ _ iha ihb => rw [size, size, iha, ihb]

theorem hasForeign_eq (h : Twins R e e') : e.hasForeign = e'.hasForeign := by
  induction h with
  | checkpoint => rfl
  | foreign => rfl
  | unary i j op _ ih => exact ih
  | binary i j op _ _ iha ihb => exact congrArg₂ or iha ihb

theorem isTransposed_eq (h : Twins R e e') : e.isTransposed = e'.isTransposed := by
  cases h with
  | unary i j op _ => cases op <;> rfl
  | _ => rfl

theorem isAnyTransposed_eq (h : Twins R e e') : e.isAnyTransposed = e'.isAnyTransposed := by
  cases h <;> rfl

variable (hR : Matching R)

include hR

theorem alike (h : Twins R e e') : e.schema.Alike e'.schema := by
  induction h with
  | checkpoint h => exact hR.alike h
  | foreign => exact .refl _
  | unary i j op _ ih => exact ih.unary op
  | binary i j op _ _ iha ihb => exact iha.binary ihb op

/-- The second pass comes to the same type of keys for twins, or refuses both for one reason. -/
theorem cleanKeyType_eq (h : Twins R e e') : e.cleanKeyType = e'.cleanKeyType := by
  induction e using induction_on_cleanup generalizing e' with
  | checkpoint i c =>
    cases h with
    | checkpoint h => exact congrArg Except.ok (hR.alike h).keyType
  | foreign i shape =>
    cases h with
    | foreign => rfl
  | anyKey i a =>
    cases h with
    | unary _ j _ ha =>
      exact congrArg (fun t => Except.error (Error.survivingTransposition t)) (ha.alike hR).keyType
  | double i j a ih =>
    cases h with
    | unary _ _ _ h => cases h with
      | unary _ _ _ ha => rw [cleanKeyType_double, cleanKeyType_double, ih ha]
  | unary i op a hop ht ih =>
    cases h with
    | @unary _ j _ _ b ha =>
      rw [cleanKeyType_unary i hop ht, cleanKeyType_unary j hop (ha.isTransposed_eq ▸ ht), ih ha]
  | binary i op a b iha ihb =>
    cases h with
    | binary _ _ _ ha hb => rw [cleanKeyType_binary, cleanKeyType_binary, iha ha, ihb hb]

theorem tags (h : Twins R e e') : TagTwins R e.tag e'.tag := by
  induction h with
  | checkpoint h => exact .inr ⟨_, _, _, _, h, rfl, rfl⟩
  | foreign => exact .unknown
  | unary i j op _ ih =>
    cases op with
    | scalar | rightMultiply => exact ih
    | mapBlock fn ncol keepsKeys =>
      cases keepsKeys with
      | true => exact ih
      | false => exact .unknown
    | _ => exact .unknown
  | @binary i j op a a' b b' _ _ iha ihb =>
    cases op with
    | elementwise op =>
      change TagTwins R (if Tag.evident a.tag b.tag then a.tag else .unknown)
        (if Tag.evident a'.tag b'.tag then a'.tag else .unknown)
      rw [iha.evident_eq hR ihb]
      split
      · exact iha
      · exact .unknown
    | _ => exact .unknown

variable [Cell α]

/-- The planner cannot tell twins apart by comparing their parts. -/
theorem same_eq (he : Twins R e e') (hf : Twins R f f') : e.same f = e'.same f' := by
  induction he generalizing f f' with
  | checkpoint h =>
    cases hf with
    | checkpoint h' => simp only [same, Bool.beq_eq_decide_eq, hR.identified h h']
    | _ => rfl
  | foreign => cases hf <;> rfl
  | unary i j op _ ih =>
    cases hf with
    | unary i' j' op' h' => simp only [same, ih h']
    | _ => rfl
  | binary i j op _ _ iha ihb =>
    cases hf with
    | binary i' j' op' ha' hb' => simp only [same, iha ha', ihb hb']
    | _ => rfl

theorem isGramian_eq (he : Twins R e e') (hf : Twins R f f') :
    e.isGramian f = e'.isGramian f' := by
  cases he with
  | unary i j op h => rw [isGramian, isGramian, h.same_eq hR hf]
  | _ => rfl

end Twins

/-! ## Both passes -/

theorem CleanForm.twins {e m e' m' : Expr α} (h : CleanForm e m) (he : Twins R e e')
    (h' : CleanForm e' m') : Twins R m m' := by
  induction h generalizing e' m' with
  | checkpoint =>
    cases he with
    | checkpoint hc => cases h' with
      | checkpoint => exact .checkpoint hc
  | double i j ha ih =>
    cases he with
    | unary _ _ _ hx => cases hx with
      | unary _ _ _ hx => cases h' with
        | double _ _ ha' => exact ih hx ha'
        | unary _ _ _ ht => exact absurd rfl (ne_true_of_eq_false (ht rfl))
  | @unary i j op a m hop ht ha ih =>
    cases he with
    | unary _ _ _ hx => cases h' with
      | double => exact absurd rfl (ne_true_of_eq_false (hx.isTransposed_eq.symm.trans (ht rfl)))
      | unary _ _ _ _ ha' => exact .unary _ _ op (ih hx ha')
  | binary i j op ha hb iha ihb =>
    cases he with
    | binary _ _ _ hx hy => cases h' with
      | binary _ _ _ ha' hb' => exact .binary _ _ op (iha hx ha') (ihb hy hb')

section Rules

variable [Cell α] {i j : NodeId} {op : UnaryOp α} {a b m : Expr α}

theorem NormalForm.of_gramian (h : NormalForm (Expr.binary i .matMul (Expr.unary j op a) b) m)
    (hop : op.transposes = true) (hs : a.same b = true) :
    ∃ k a', m = Expr.unary k .selfGramian a' ∧ NormalForm a a' := by
  cases h with
  | gramian _ _ k _ _ ha => exact ⟨k, _, rfl, ha⟩
  | timesTransposed _ _ _ hg => simp [isGramian, hop, hs] at hg
  | transposedTimes _ _ _ _ hs' => exact absurd hs (ne_true_of_eq_false hs')
  | times _ _ _ hl => exact absurd hop (ne_true_of_eq_false hl)
  | binary _ _ hop' => exact absurd rfl hop'

theorem NormalForm.of_timesTransposed
    (h : NormalForm (Expr.binary i .matMul a (Expr.unary j .transpose b)) m)
    (hg : a.isGramian (Expr.unary j .transpose b) = false) :
    ∃ k a' b', m = Expr.binary k .matMulTransB a' b' ∧ NormalForm a a' ∧ NormalForm b b' := by
  cases h with
  | gramian _ _ _ hop hs => simp [isGramian, hop, hs] at hg
  | timesTransposed _ _ k _ ha hb => exact ⟨k, _, _, rfl, ha, hb⟩
  | transposedTimes _ _ _ _ _ ht => cases ht
  | times _ _ _ _ ht => cases ht
  | binary _ _ hop' => exact absurd rfl hop'

theorem NormalForm.of_transposedTimes (h : NormalForm (Expr.binary i .matMul (Expr.unary j op a) b) m)
    (hop : op.transposes = true) (hs : a.same b = false) (ht : b.isTransposed = false) :
    ∃ k a' b', m = Expr.binary k .matMulTransA a' b' ∧ NormalForm a a' ∧ NormalForm b b' := by
  cases h with
  | gramian _ _ _ _ hs' => exact absurd hs' (ne_true_of_eq_false hs)
  | timesTransposed => cases ht
  | transposedTimes _ _ k _ _ _ ha hb => exact ⟨k, _, _, rfl, ha, hb⟩
  | times _ _ _ hl => exact absurd hop (ne_true_of_eq_false hl)
  | binary _ _ hop' => exact absurd rfl hop'

theorem NormalForm.of_times (h : NormalForm (Expr.binary i .matMul a b) m)
    (hl : a.isAnyTransposed = false) (ht : b.isTransposed = false) :
    ∃ j k a' b', m = Expr.binary k .matMulTransB a' (Expr.unary j (transposition b.keyType) b') ∧
      NormalForm a a' ∧ NormalForm b b' := by
  cases h with
  | gramian _ _ _ hop => exact absurd hop (ne_true_of_eq_false hl)
  | timesTransposed => cases ht
  | transposedTimes _ _ _ hop => exact absurd hop (ne_true_of_eq_false hl)
  | times _ j k _ _ ha hb => exact ⟨j, k, _, _, rfl, ha, hb⟩
  | binary _ _ hop' => exact absurd rfl hop'

end Rules

variable [Cell α]

/-- The rule that fits an expression fits its twin, too. -/
theorem NormalForm.twins (hR : Matching R) {e m e' m' : Expr α} (h : NormalForm e m)
    (he : Twins R e e') (h' : NormalForm e' m') : Twins R m m' := by
  induction h generalizing e' m' with
  | checkpoint =>
    cases he with
    | checkpoint hc => cases h' with
      | checkpoint => exact .checkpoint hc
  | gramian i j k hop hs ha iha =>
    cases he with
    | binary _ _ _ hx hy => cases hx with
      | unary _ _ _ hx =>
        obtain ⟨k', a', rfl, ha'⟩ := h'.of_gramian hop (hx.same_eq hR hy ▸ hs)
        exact .unary k k' .selfGramian (iha hx ha')
  | timesTransposed i j k hg ha hb iha ihb =>
    cases he with
    | binary _ _ _ hx hy =>
      rw [hx.isGramian_eq hR hy] at hg
      cases hy with
      | unary _ _ _ hy =>
        obtain ⟨k', a', b', rfl, ha', hb'⟩ := h'.of_timesTransposed hg
        exact .binary k k' .matMulTransB (iha hx ha') (ihb hy hb')
  | transposedTimes i j k hop hs ht ha hb iha ihb =>
    cases he with
    | binary _ _ _ hx hy => cases hx with
      | unary _ _ _ hx =>
        obtain ⟨k', a', b', rfl, ha', hb'⟩ :=
          h'.of_transposedTimes hop (hx.same_eq hR hy ▸ hs) (hy.isTransposed_eq ▸ ht)
        exact .binary k k' .matMulTransA (iha hx ha') (ihb hy hb')
  | times i j k hl ht ha hb iha ihb =>
    cases he with
    | binary _ _ _ hx hy =>
      obtain ⟨j', k', a', b', rfl, ha', hb'⟩ :=
        h'.of_times (hx.isAnyTransposed_eq ▸ hl) (hy.isTransposed_eq ▸ ht)
      rw [keyType, (hy.alike hR).keyType]
      exact .binary k k' .matMulTransB (iha hx ha') (.unary j j' _ (ihb hy hb'))
  | leftMultiply i j k l m ha iha =>
    cases he with
    | unary _ _ _ hx => cases h' with
      | leftMultiply _ j' k' l' _ ha' =>
        exact .unary l l' .transpose (.unary k k' _ (.unary j j' .transpose (iha hx ha')))
      | unary _ _ hop => exact absurd rfl (hop m)
  | @unary i j op a a' hop ha iha =>
    cases he with
    | unary _ _ _ hx => cases h' with
      | leftMultiply _ _ _ _ m => exact absurd rfl (hop m)
      | unary _ j' _ ha' => exact .unary j j' op (iha hx ha')
  | @binary i j op a a' b b' hop ha hb iha ihb =>
    cases he with
    | binary _ _ _ hx hy => cases h' with
      | binary _ j' _ ha' hb' => exact .binary j j' op (iha hx ha') (ihb hy hb')
      | _ => exact absurd rfl hop

/-! ## Plans -/

/-- What is refused has no twin that has a plan. -/
theorem Refused.not_planned (hR : Matching R) {e e' plan : Expr α} {error : Error}
    (h : e.Refused error) (he : Twins R e e') : ¬ e'.Planned plan := by
  rintro ⟨middle', hm', hc⟩
  rcases h with ⟨hf, -⟩ | ⟨middle, hm, hk, -⟩
  · exact absurd (he.hasForeign_eq.symm.trans hf) (ne_true_of_eq_false hm'.known)
  · have htwins := hm.normalForm.twins hR he hm'.normalForm
    cases (htwins.cleanKeyType_eq hR).symm.trans hk |>.symm.trans hc.keyType

/-- **Twins have plans together**, and these are twins. -/
theorem optimize_together (hR : Matching R) {next next' : NodeId} {nodes nodes' : Set (Expr α)}
    (hp : Population next nodes) (hp' : Population next' nodes') {e e' : Expr α} (he : e ∈ nodes)
    (he' : e' ∈ nodes') (h : Twins R e e') :
    Together (e.optimize next) (e'.optimize next') fun p p' => Twins R p.1 p'.1 := by
  rcases optimize_yields hp he with ⟨error, hm, hbad⟩ | ⟨plan, n, _, hm, -, -, -, -, hplan⟩
  · rcases optimize_yields hp' he' with ⟨error', hm', -⟩ | ⟨plan', n', _, hm', -, -, -, -, hplan'⟩
    · rw [hm, hm']
      exact .error
    · exact absurd hplan' (hbad.not_planned hR h)
  · rcases optimize_yields hp' he' with ⟨error', hm', hbad'⟩ | ⟨plan', n', _, hm', -, -, -, -, hplan'⟩
    · exact absurd hplan (hbad'.not_planned hR.flip h.flip)
    · rw [hm, hm']
      obtain ⟨middle, hn, hc⟩ := hplan
      obtain ⟨middle', hn', hc'⟩ := hplan'
      exact .ok (hc.cleanForm.twins (hn.normalForm.twins hR h hn'.normalForm) hc'.cleanForm)

end RowAlgebra.Expr
