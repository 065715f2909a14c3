import RowAlgebra.Proofs.Plan.NormalForm

/-!
# What the second pass does

`CleanForm e e'` says that `e'` is `e` without its double transpositions. `cleanup` yields such an
expression, which agrees with `e` on its sides (`cleanup_yields`). No transposition is left directly
below another one (`CleanForm.isTransposed_eq`).

A transposed matrix has plain integer keys, so where a double transposition goes, keys may get back a
class of their own. `cleanKeyType` is the type of the keys that the second pass comes to, or the
error that it fails with: for an operator that it does not know, for a transposition of keys that are
not integers, or because the operands of an element-wise operator have got keys of different types.
The last one takes leaves with derived keys (`cleanKeyType_ends`).
-/

namespace RowAlgebra

variable {α : Type}

namespace Expr

def hasAnyKey : Expr α → Bool
  | checkpoint _ _ | foreign _ _ => false
  | unary _ .transposeAnyKey _ => true
  | unary _ _ a => a.hasAnyKey
  | binary _ _ a b => a.hasAnyKey || b.hasAnyKey

theorem hasAnyKey_unary (i : NodeId) {op : UnaryOp α} (a : Expr α) (hop : op ≠ .transposeAnyKey) :
    (unary i op a).hasAnyKey = a.hasAnyKey := by
  rw [hasAnyKey]
  exact hop

/-- The expressions without double transpositions. -/
inductive CleanForm : Expr α → Expr α → Prop
  | checkpoint (i : NodeId) (c : Checkpoint α) : CleanForm (checkpoint i c) (checkpoint i c)
  /-- `A''` -/
  | double (i j : NodeId) {a a' : Expr α} (ha : CleanForm a a') :
      CleanForm (unary i .transpose (unary j .transpose a)) a'
  | unary (i j : NodeId) {op : UnaryOp α} {a a' : Expr α} (hop : op ≠ .transposeAnyKey)
      (ht : op = .transpose → a.isTransposed = false) (ha : CleanForm a a') :
      CleanForm (unary i op a) (unary j op a')
  | binary (i j : NodeId) (op : BinaryOp) {a a' b b' : Expr α} (ha : CleanForm a a')
      (hb : CleanForm b b') : CleanForm (binary i op a b) (binary j op a' b')

/-! ## The second pass rule by rule -/

theorem cleanup_double (i j : NodeId) (a : Expr α) :
    (unary i .transpose (unary j .transpose a)).cleanup = a.cleanup := by
  rw [cleanup]

theorem cleanup_transposeAnyKey (i : NodeId) (a : Expr α) :
    (unary i .transposeAnyKey a).cleanup = throw (.survivingTransposition a.keyType) := by
  rw [cleanup]

theorem cleanup_unary (i : NodeId) {op : UnaryOp α} {a : Expr α} (hop : op ≠ .transposeAnyKey)
    (ht : op = .transpose → a.isTransposed = false) :
    (unary i op a).cleanup = (do withInput i op a (← a.cleanup)) := by
  by_cases h : op = .transpose
  · subst h
    rw [cleanup]
    exact ne_transpose (ht rfl)
  · rw [cleanup]
    · exact h
    · exact hop

theorem cleanup_binary (i : NodeId) (op : BinaryOp) (a b : Expr α) :
    (binary i op a b).cleanup = (do
      let l ← a.cleanup
      withInputs i op a b l (← b.cleanup)) := by
  rw [cleanup]

/-- Induction over the rules of the second pass: a double transposition goes as a whole. -/
@[elab_as_elim]
theorem induction_on_cleanup {P : Expr α → Prop} (e : Expr α)
    (checkpoint : ∀ i c, P (.checkpoint i c)) (foreign : ∀ i shape, P (.foreign i shape))
    (anyKey : ∀ i a, P (.unary i .transposeAnyKey a))
    (double : ∀ i j a, P a → P (.unary i .transpose (.unary j .transpose a)))
    (unary : ∀ i op a, op ≠ .transposeAnyKey → (op = .transpose → a.isTransposed = false) →
      P a → P (.unary i op a))
    (binary : ∀ i op a b, P a → P b → P (.binary i op a b)) : P e := by
  induction hn : e.size using Nat.strong_induction_on generalizing e with
  | _ n ih =>
    subst hn
    cases e with
    | checkpoint i c => exact checkpoint i c
    | foreign i shape => exact foreign i shape
    | unary i op a =>
      have hlt := size_input_lt i op a
      by_cases hop : op = .transposeAnyKey
      · exact hop ▸ anyKey i a
      by_cases ht : op = .transpose ∧ a.isTransposed = true
      · obtain ⟨rfl, ht⟩ := ht
        obtain ⟨j, b, rfl⟩ := isTransposed_iff.1 ht
        exact double i j b (ih _ ((size_input_lt j .transpose b).trans hlt) b rfl)
      · exact unary i op a hop (fun h => Bool.eq_false_iff.2 fun h' => ht ⟨h, h'⟩) (ih _ hlt a rfl)
    | binary i op a b =>
      exact binary i op a b (ih _ (size_left_lt i op a b) a rfl) (ih _ (size_right_lt i op a b) b rfl)

/-! ## Types of keys -/

end Expr

/-- The type of the keys of a result, for an input with keys of a given type. -/
def UnaryOp.cleanKeyType (t : KeyType) : UnaryOp α → KeyType
  | transpose | transposeAnyKey | selfGramian | leftMultiply _ => .int
  | scalar _ _ | rowRange _ _ | rightMultiply _ | mapBlock _ _ _ => t

theorem UnaryOp.keyType_schema (op : UnaryOp α) (s : Schema) :
    (op.schema s).keyType = op.cleanKeyType s.keyType := by
  cases op <;> rfl

theorem UnaryOp.cleanKeyType_specializes {t u : KeyType} (h : t.Specializes u) (op : UnaryOp α) :
    (op.cleanKeyType t).Specializes (op.cleanKeyType u) := by
  cases op <;> first | exact .refl .int | exact h

theorem UnaryOp.isDerived_of_cleanKeyType {t : KeyType} {op : UnaryOp α}
    (h : (op.cleanKeyType t).isDerived = true) : t.isDerived = true := by
  cases op <;> first | cases h | exact h

/-- The type of the keys of a result, for operands with keys of given types. -/
def BinaryOp.cleanKeyType (l r : KeyType) : BinaryOp → Except Error KeyType
  | matMul | matMulTransB => .ok l
  | matMulTransA => .ok .int
  | elementwise _ => if l = r then .ok l else .error .elementwiseKeys

theorem BinaryOp.keyType_schema (op : BinaryOp) :
    (∀ l r, (op.schema l r).keyType = .int) ∨ ∀ l r, (op.schema l r).keyType = l.keyType := by
  cases op <;> first | exact .inl fun _ _ => rfl | exact .inr fun _ _ => rfl

theorem BinaryOp.cleanKeyType_ends (op : BinaryOp) (l r : Schema) :
    Ends (op.cleanKeyType l.keyType r.keyType)
      (fun t => t = (op.schema l r).keyType ∧ ∀ o, op = .elementwise o → l.keyType = r.keyType)
      fun error => error = .elementwiseKeys ∧ (∃ o, op = .elementwise o) ∧ l.keyType ≠ r.keyType := by
  cases op with
  | elementwise o =>
    by_cases hk : l.keyType = r.keyType
    · rw [cleanKeyType, if_pos hk]
      exact Ends.ok ⟨rfl, fun _ _ => hk⟩
    · rw [cleanKeyType, if_neg hk]
      exact Ends.error ⟨rfl, ⟨o, rfl⟩, hk⟩
  | _ => exact Ends.ok ⟨rfl, nofun⟩

namespace Expr

/-- The type of the keys that are left when the second pass has gone over an expression, or why it
fails. -/
def cleanKeyType : Expr α → Except Error KeyType
  | checkpoint _ c => .ok c.keyType
  | foreign id shape => .error (.noCleanupRule (foreign (α := α) id shape).name)
  | unary _ op input =>
    match op with
    | .transpose =>
      match input with
      | unary _ .transpose a => a.cleanKeyType
      | input => do
        let _ ← input.cleanKeyType
        return .int
    | .transposeAnyKey => .error (.survivingTransposition input.keyType)
    | op => do return op.cleanKeyType (← input.cleanKeyType)
  | binary _ op left right => do
    let l ← left.cleanKeyType
    op.cleanKeyType l (← right.cleanKeyType)

/-- Whether the keys of some leaf are of a class that is derived from that of the integers. -/
def hasDerivedKeys : Expr α → Bool
  | checkpoint _ c => c.keyType.isDerived
  | foreign _ _ => false
  | unary _ _ a => a.hasDerivedKeys
  | binary _ _ a b => a.hasDerivedKeys || b.hasDerivedKeys

theorem cleanKeyType_double (i j : NodeId) (a : Expr α) :
    (unary i .transpose (unary j .transpose a)).cleanKeyType = a.cleanKeyType := by
  rw [cleanKeyType]

theorem cleanKeyType_unary (i : NodeId) {op : UnaryOp α} {a : Expr α} (hop : op ≠ .transposeAnyKey)
    (ht : op = .transpose → a.isTransposed = false) :
    (unary i op a).cleanKeyType = (do return op.cleanKeyType (← a.cleanKeyType)) := by
  by_cases h : op = .transpose
  · subst h
    rw [cleanKeyType]
    · rfl
    · exact ne_transpose (ht rfl)
  · rw [cleanKeyType]
    · exact h
    · exact hop

theorem cleanKeyType_binary (i : NodeId) (op : BinaryOp) (a b : Expr α) :
    (binary i op a b).cleanKeyType = (do
      let l ← a.cleanKeyType
      op.cleanKeyType l (← b.cleanKeyType)) := by
  rw [cleanKeyType]

/-- Keys of a derived class come from a leaf. -/
theorem hasDerivedKeys_of_isDerived {e : Expr α} (h : e.keyType.isDerived = true) :
    e.hasDerivedKeys = true := by
  induction e with
  | checkpoint i c => exact h
  | foreign i shape => cases h
  | unary i op a ih =>
    rw [keyType, schema, UnaryOp.keyType_schema] at h
    exact ih (UnaryOp.isDerived_of_cleanKeyType h)
  | binary i op a b iha _ =>
    rcases op.keyType_schema with hop | hop <;> rw [keyType, schema, hop] at h
    · cases h
    · simp [hasDerivedKeys, iha h]

theorem exists_leaf_of_hasDerivedKeys {e : Expr α} (h : e.hasDerivedKeys = true) :
    ∃ i c, checkpoint i c ∈ e.walk ∧ c.keyType.isDerived = true := by
  induction e with
  | checkpoint i c => exact ⟨i, c, mem_walk_self _, h⟩
  | foreign i shape => cases h
  | unary i op a ih =>
    obtain ⟨j, c, hc, hd⟩ := ih h
    exact ⟨j, c, by simp [walk_unary, hc], hd⟩
  | binary i op a b iha ihb =>
    rcases Bool.or_eq_true_iff.1 h with h | h
    · obtain ⟨j, c, hc, hd⟩ := iha h
      exact ⟨j, c, by simp [walk_binary, hc], hd⟩
    · obtain ⟨j, c, hc, hd⟩ := ihb h
      exact ⟨j, c, by simp [walk_binary, hc], hd⟩

theorem hasDerivedKeys_of_mem_walk {e x : Expr α} (hx : x ∈ e.walk)
    (h : x.hasDerivedKeys = true) : e.hasDerivedKeys = true := by
  induction e with
  | checkpoint | foreign => exact List.mem_singleton.1 hx ▸ h
  | unary i op a ih =>
    rw [walk_unary] at hx
    rcases List.mem_cons.1 hx with rfl | hx
    · exact h
    · exact ih hx
  | binary i op a b iha ihb =>
    rw [walk_binary] at hx
    rcases List.mem_cons.1 hx with rfl | hx
    · exact h
    · rcases List.mem_append.1 hx with hx | hx
      · simp [hasDerivedKeys, iha hx]
      · simp [hasDerivedKeys, ihb hx]

/-- What is known of the type of keys that the second pass comes to. -/
structure CleanKeys (e : Expr α) (t : KeyType) : Prop where
  specializes : t.Specializes e.keyType
  derived : t.isDerived = true → e.hasDerivedKeys = true

/-- How the second pass refuses an expression. -/
inductive Unclean (e : Expr α) : Error → Prop
  | foreign (h : e.hasForeign = true) (name : Text) : Unclean e (.noCleanupRule name)
  | anyKey (h : e.hasAnyKey = true) (type : KeyType) : Unclean e (.survivingTransposition type)
  | keys (h : e.hasDerivedKeys = true) : Unclean e .elementwiseKeys

theorem Unclean.unary {i : NodeId} {op : UnaryOp α} {a : Expr α} {error : Error}
    (hop : op ≠ .transposeAnyKey) (h : a.Unclean error) : (unary i op a).Unclean error := by
  cases h with
  | foreign h name => exact .foreign (show (Expr.unary i op a).hasForeign = true from h) name
  | anyKey h type => exact .anyKey ((hasAnyKey_unary i a hop).trans h) type
  | keys h => exact .keys (show (Expr.unary i op a).hasDerivedKeys = true from h)

theorem Unclean.binary {i : NodeId} {op : BinaryOp} {a b : Expr α} {error : Error}
    (h : a.Unclean error ∨ b.Unclean error) : (binary i op a b).Unclean error := by
  rcases h with h | h <;> cases h with
  | foreign h name => exact .foreign (by simp [hasForeign, h]) name
  | anyKey h type => exact .anyKey (by simp [hasAnyKey, h]) type
  | keys h => exact .keys (by simp [hasDerivedKeys, h])

/-- **The types of keys after the second pass**: where it comes to an end, keys are of the type that
they have been of, or of one derived from it; and only for derived keys it can refuse an element-wise
operator. -/
theorem cleanKeyType_ends {e : Expr α} (hadm : ∀ x ∈ e.walk, x.Admitted) :
    Ends e.cleanKeyType e.CleanKeys e.Unclean := by
  induction e using induction_on_cleanup with
  | checkpoint i c => exact Ends.ok ⟨.refl _, fun h => h⟩
  | foreign i shape => exact Ends.error (.foreign rfl _)
  | anyKey i a => exact Ends.error (.anyKey rfl _)
  | double i j a ih =>
    obtain ⟨-, hadm⟩ := forall_walk_unary.1 hadm
    obtain ⟨hinner, hadm⟩ := forall_walk_unary.1 hadm
    rw [cleanKeyType_double]
    refine ((ih hadm).mapBad fun error h => ?_).imp fun t ht => ⟨?_, ht.derived⟩
    · exact (h.unary (by simp)).unary (by simp)
    exact .int_of_isInt (ht.specializes.isInt_eq.trans (UnaryOp.admits_transpose_iff.1 hinner))
  | unary i op a hop ht ih =>
    obtain ⟨-, hadm⟩ := forall_walk_unary.1 hadm
    rw [cleanKeyType_unary i hop ht]
    refine ((ih hadm).mapBad fun _ h => h.unary hop).bind fun t ht => Ends.ok ⟨?_, fun hd => ?_⟩
    · rw [keyType, schema, UnaryOp.keyType_schema]
      exact op.cleanKeyType_specializes ht.specializes
    · exact ht.derived (UnaryOp.isDerived_of_cleanKeyType hd)
  | binary i op a b iha ihb =>
    obtain ⟨hroot, hleft, hright⟩ := forall_walk_binary.1 hadm
    rw [cleanKeyType_binary]
    refine ((iha hleft).mapBad fun _ h => .binary (.inl h)).bind fun l hl => ?_
    refine ((ihb hright).mapBad fun _ h => .binary (.inr h)).bind fun r hr => ?_
    have hends := op.cleanKeyType_ends { a.schema with keyType := l } { b.schema with keyType := r }
    refine (hends.imp ?_).mapBad ?_
    · rintro t ⟨rfl, -⟩
      rcases op.keyType_schema with h | h
      · exact ⟨.inl ((h _ _).trans (h _ _).symm), fun hd => by simp [h, KeyType.isDerived] at hd⟩
      · refine ⟨?_, fun hd => ?_⟩
        · rw [h, keyType, schema, h]
          exact hl.specializes
        · rw [h] at hd
          simp [hasDerivedKeys, hl.derived hd]
    · rintro error ⟨rfl, ⟨o, rfl⟩, hk⟩
      refine .keys ?_
      by_contra hplain
      obtain ⟨ha, hb⟩ : a.hasDerivedKeys = false ∧ b.hasDerivedKeys = false := by
        simpa [hasDerivedKeys] using hplain
      have hsame := (BinaryOp.admits_elementwise_iff.1 hroot).2
      have hla := hl.specializes.eq_of_not_isDerived (by simpa [ha] using mt hl.derived)
      have hrb := hr.specializes.eq_of_not_isDerived (by simpa [hb] using mt hr.derived)
      exact hk (hla.trans (hsame.trans hrb.symm))

/-! ## The outcome of the second pass -/

/-- What the second pass yields for an expression. -/
structure Cleaned (e e' : Expr α) : Prop where
  known : e.hasForeign = false
  noAnyKey : e.hasAnyKey = false
  keyType : e.cleanKeyType = .ok e'.keyType
  cleanForm : CleanForm e e'
  specializes : e'.schema.Specializes e.schema

/-- An element-wise operator refuses operands that have got keys of different types. -/
theorem withInputs_refused {next id : NodeId} {nodes : Set (Expr α)} (hp : Population next nodes)
    {o : CellOp} {a b newA newB : Expr α} (he : binary id (.elementwise o) a b ∈ nodes)
    (ha : newA ∈ nodes) (hb : newB ∈ nodes) (hsa : newA.schema.Specializes a.schema)
    (hsb : newB.schema.Specializes b.schema) (hk : newA.keyType ≠ newB.keyType) :
    withInputs id (.elementwise o) a b newA newB next = .error .elementwiseKeys := by
  obtain ⟨⟨shape, hl, hr⟩, hkeys⟩ := BinaryOp.admits_elementwise_iff.1 (hp.admitted _ he)
  unfold withInputs
  split
  · next hid =>
    obtain rfl := hp.identified _ ha _ (hp.left he) hid.1
    obtain rfl := hp.identified _ hb _ (hp.right he) hid.2
    exact absurd hkeys hk
  · refine ofBinary_of_refused ?_ next
    have hne : (newA.schema.keyType == newB.schema.keyType) = false := beq_eq_false_iff_ne.2 hk
    rw [BinaryOp.admits, hsa.shape, hsb.shape, hl, hr, hne]
    simp [Build.require, bind, Except.bind]

/-- **The second pass** fails as `cleanKeyType` does, and otherwise yields an expression without double
transpositions that agrees with its input on its sides, with keys of the type that is left. -/
theorem cleanup_yields {next : NodeId} {nodes : Set (Expr α)} (hp : Population next nodes)
    {e : Expr α} (he : e ∈ nodes) :
    e.cleanup.Yields next nodes (e.cleanKeyType = .error ·) e.Cleaned := by
  induction e using induction_on_cleanup generalizing next nodes with
  | checkpoint i c =>
    exact .pure hp he ⟨rfl, rfl, rfl, .checkpoint i c, (Schema.Alike.refl _).specializes⟩
  | foreign i shape => exact .throw rfl
  | anyKey i a =>
    rw [cleanup_transposeAnyKey]
    exact .throw rfl
  | double i j a ih =>
    have ha := hp.input (hp.input he)
    have hint : a.schema.keyType.isInt = true :=
      UnaryOp.admits_transpose_iff.1 (hp.admitted _ (hp.input he))
    rw [cleanup_double]
    refine ((ih hp ha).mapBad fun error h => (cleanKeyType_double i j a).trans h).imp fun a' h => ?_
    have hs := h.specializes
    exact ⟨h.known, h.noAnyKey, (cleanKeyType_double i j a).trans h.keyType, .double i j h.cleanForm,
      hs.rows, hs.columns, .int_of_isInt (hs.keyType.isInt_eq.trans hint)⟩
  | unary i op a hop ht ih =>
    rw [cleanup_unary i hop ht]
    refine (ih hp (hp.input he)).bind (fun error h => ?_) fun a' n₁ N₁ hs₁ hp₁ ha' h => ?_
    · rw [cleanKeyType_unary i hop ht, h]
      rfl
    refine (withInput_yields hp₁ (hs₁ he) ha' h.specializes).imp ?_
    rintro _ ⟨j, rfl⟩
    refine ⟨h.known, (hasAnyKey_unary i a hop).trans h.noAnyKey, ?_, .unary i j hop ht h.cleanForm,
      h.specializes.unary op⟩
    rw [cleanKeyType_unary i hop ht, h.keyType]
    exact congrArg Except.ok (op.keyType_schema a'.schema).symm
  | binary i op a b iha ihb =>
    rw [cleanup_binary]
    refine (iha hp (hp.left he)).bind (fun error h => ?_) fun a' n₁ N₁ hs₁ hp₁ ha' h₁ => ?_
    · rw [cleanKeyType_binary, h]
      rfl
    refine (ihb hp₁ (hs₁ (hp.right he))).bind (fun error h => ?_) fun b' n₂ N₂ hs₂ hp₂ hb' h₂ => ?_
    · rw [cleanKeyType_binary, h₁.keyType, h]
      rfl
    have htype : (Expr.binary i op a b).cleanKeyType = op.cleanKeyType a'.keyType b'.keyType := by
      rw [cleanKeyType_binary, h₁.keyType, h₂.keyType]
      rfl
    have hends := op.cleanKeyType_ends a'.schema b'.schema
    have he₂ := hs₂ (hs₁ he)
    cases hk : op.cleanKeyType a'.keyType b'.keyType with
    | error error =>
      obtain ⟨rfl, ⟨o, rfl⟩, hne⟩ := hends.of_error hk
      exact .inl ⟨_, withInputs_refused hp₂ he₂ (hs₂ ha') hb' h₁.specializes h₂.specializes hne,
        htype.trans hk⟩
    | ok t =>
      obtain ⟨rfl, hsame⟩ := hends.of_ok hk
      refine (withInputs_yields hp₂ he₂ (hs₂ ha') hb' h₁.specializes h₂.specializes hsame).imp ?_
      rintro _ ⟨j, rfl⟩
      exact ⟨by simp [hasForeign, h₁.known, h₂.known],
        by simp [hasAnyKey, h₁.noAnyKey, h₂.noAnyKey], htype.trans hk,
        .binary i j op h₁.cleanForm h₂.cleanForm, h₁.specializes.binary h₂.specializes op⟩

/-- Without its double transpositions an expression has the same sides, and the same type of keys or
one derived from it. -/
theorem CleanForm.specializes {e e' : Expr α} (h : CleanForm e e')
    (hadm : ∀ x ∈ e.walk, x.Admitted) : e'.schema.Specializes e.schema := by
  induction h with
  | checkpoint i c => exact (Schema.Alike.refl _).specializes
  | double i j ha ih =>
    simp only [forall_walk_unary] at hadm
    obtain ⟨-, hinner, hinput⟩ := hadm
    have hs := ih hinput
    have hint := hs.keyType.isInt_eq.trans (UnaryOp.admits_transpose_iff.1 hinner)
    exact ⟨hs.rows, hs.columns, .int_of_isInt hint⟩
  | unary i j hop ht ha ih => exact (ih (forall_walk_unary.1 hadm).2).unary _
  | binary i j op ha hb iha ihb =>
    obtain ⟨-, hleft, hright⟩ := forall_walk_binary.1 hadm
    exact (iha hleft).binary (ihb hright) op

theorem CleanForm.hasDerivedKeys_of {e e' : Expr α} (h : CleanForm e e')
    (hd : e'.hasDerivedKeys = true) : e.hasDerivedKeys = true := by
  induction h with
  | checkpoint => exact hd
  | double i j ha ih => exact ih hd
  | unary i j hop ht ha ih => exact ih hd
  | binary i j op ha hb iha ihb =>
    simp only [hasDerivedKeys, Bool.or_eq_true] at hd ⊢
    exact hd.imp iha ihb

/-- The root becomes a transposition only if it has been a single one. -/
theorem CleanForm.isTransposed_eq {e e' : Expr α} (h : CleanForm e e')
    (ht : e.isTransposed = false) : e'.isTransposed = false := by
  cases h with
  | checkpoint i c => exact ht
  | double i j ha => simp [isTransposed] at ht
  | @unary i j op a a' hop htop ha => cases op <;> simp_all [isTransposed]
  | binary i j op ha hb => rfl

/-! ### A row under a derived key -/

/-- A row of one cell, under an integer of a class of its own. -/
def derivedRow : Expr Float :=
  checkpoint 0 ⟨⟨⟨[[(.int 0, .plain [1.0])]], .derived ⟨0, "RowId"⟩⟩, 1⟩, 0, 1, 1,
    .known (Dense.mk 1 1 #v[#v[(1.0 : Float)]]).nonZeros, .memoryOnly, 7, .derived ⟨0, "RowId"⟩⟩

/-- Its transpose has a plain integer for a key, and so has the transpose of that. -/
def derivedRowTwice : Expr Float :=
  unary 2 .transpose (unary 1 .transpose derivedRow)

/-- The second pass brings the class of the key back. -/
example : derivedRowTwice.keyType = .int ∧
    derivedRowTwice.cleanKeyType = .ok (.derived ⟨0, "RowId"⟩) :=
  ⟨rfl, rfl⟩

end Expr

end RowAlgebra
