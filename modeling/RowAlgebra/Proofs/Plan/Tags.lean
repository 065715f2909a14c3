import RowAlgebra.Proofs.Exec.Layout
import RowAlgebra.Proofs.Plan.Optimized

/-!
# Tags of plans

A plan has the leaves of its expression and no others (`Planned.leaf_mem`), and the tag of its
expression, if that is known (`Planned.tag_eq`). The converse fails: removing a double transposition
can bring a tag to light. A known tag is always that of a leaf (`exists_leaf_of_tag`).
-/

namespace RowAlgebra.Expr

variable {α : Type}

/-! ## Leaves -/

theorem leaf_mem_unary {i j : NodeId} {op : UnaryOp α} {a : Expr α} {c : Checkpoint α} :
    checkpoint i c ∈ (unary j op a).walk ↔ checkpoint i c ∈ a.walk := by
  simp [walk_unary]

theorem leaf_mem_binary {i j : NodeId} {op : BinaryOp} {a b : Expr α} {c : Checkpoint α} :
    checkpoint i c ∈ (binary j op a b).walk ↔ checkpoint i c ∈ a.walk ∨ checkpoint i c ∈ b.walk := by
  simp [walk_binary]

theorem CleanForm.leaf_mem {e e' : Expr α} (h : CleanForm e e') {i : NodeId} {c : Checkpoint α}
    (hc : .checkpoint i c ∈ e'.walk) : .checkpoint i c ∈ e.walk := by
  induction h with
  | checkpoint => exact hc
  | double j k ha ih => exact leaf_mem_unary.2 (leaf_mem_unary.2 (ih hc))
  | unary j k hop ht ha ih => exact leaf_mem_unary.2 (ih (leaf_mem_unary.1 hc))
  | binary j k op ha hb iha ihb =>
    exact leaf_mem_binary.2 ((leaf_mem_binary.1 hc).imp iha ihb)

/-- A known tag is that of a leaf. -/
theorem exists_leaf_of_tag {e : Expr α} (h : e.tag ≠ .unknown) :
    ∃ i c, checkpoint i c ∈ e.walk ∧ c.tag = e.tag := by
  induction e with
  | checkpoint i c => exact ⟨i, c, mem_walk_self _, rfl⟩
  | foreign i shape => exact absurd rfl h
  | unary i op a ih =>
    have hkeep : (unary i op a).tag = a.tag := by
      cases op <;> first | rfl | exact absurd rfl h | skip
      case mapBlock fn ncol keepsKeys => cases keepsKeys <;> first | rfl | exact absurd rfl h
    obtain ⟨j, c, hc, ht⟩ := ih (hkeep ▸ h)
    exact ⟨j, c, leaf_mem_unary.2 hc, ht.trans hkeep.symm⟩
  | binary i op a b iha ihb =>
    have hkeep : (binary i op a b).tag = a.tag := by
      cases op <;> first | exact absurd rfl h | skip
      case elementwise op =>
        change (if Tag.evident a.tag b.tag then a.tag else .unknown) = _
        by_contra hne
        rw [ite_eq_left_iff] at hne
        refine h ?_
        change (if Tag.evident a.tag b.tag then a.tag else .unknown) = _
        rw [if_neg fun he => hne fun hn => absurd he hn]
    obtain ⟨j, c, hc, ht⟩ := iha (hkeep ▸ h)
    exact ⟨j, c, leaf_mem_binary.2 (.inl hc), ht.trans hkeep.symm⟩

/-! ## Operators that keep tags -/

theorem unary_tag_eq {i j : NodeId} {op : UnaryOp α} {a a' : Expr α}
    (h : a.tag ≠ .unknown → a'.tag = a.tag) (ht : (unary i op a).tag ≠ .unknown) :
    (unary j op a').tag = (unary i op a).tag := by
  cases op <;> first | exact absurd rfl ht | exact h ht | skip
  case mapBlock fn ncol keepsKeys => cases keepsKeys <;> first | exact absurd rfl ht | exact h ht

theorem binary_tag_eq {i j : NodeId} {op : BinaryOp} {a a' b b' : Expr α}
    (ha : a.tag ≠ .unknown → a'.tag = a.tag) (hb : b.tag ≠ .unknown → b'.tag = b.tag)
    (ht : (binary i op a b).tag ≠ .unknown) : (binary j op a' b').tag = (binary i op a b).tag := by
  cases op <;> first | exact absurd rfl ht | skip
  case elementwise op =>
    have hevident : Tag.evident a.tag b.tag = true := by
      by_contra hn
      exact ht (if_neg hn)
    obtain ⟨hne, hab⟩ := Handle.evident_iff.1 hevident
    change (if Tag.evident a'.tag b'.tag then a'.tag else .unknown) =
      if Tag.evident a.tag b.tag then a.tag else .unknown
    rw [ha hne, hb (hab ▸ hne)]

theorem CleanForm.tag_eq {e e' : Expr α} (h : CleanForm e e') (ht : e.tag ≠ .unknown) :
    e'.tag = e.tag := by
  induction h with
  | checkpoint => rfl
  | double => exact absurd rfl ht
  | unary i j hop htr ha ih => exact unary_tag_eq ih ht
  | binary i j op ha hb iha ihb => exact binary_tag_eq iha ihb ht

variable [Cell α]

theorem NormalForm.leaf_mem {e e' : Expr α} (h : NormalForm e e') {i : NodeId} {c : Checkpoint α}
    (hc : .checkpoint i c ∈ e'.walk) : .checkpoint i c ∈ e.walk := by
  induction h with
  | checkpoint => exact hc
  | gramian _ _ _ hop hs ha ih =>
    exact leaf_mem_binary.2 (.inl (leaf_mem_unary.2 (ih (leaf_mem_unary.1 hc))))
  | timesTransposed _ _ _ hg ha hb iha ihb =>
    exact leaf_mem_binary.2 ((leaf_mem_binary.1 hc).imp iha fun h => leaf_mem_unary.2 (ihb h))
  | transposedTimes _ _ _ hop hs ht ha hb iha ihb =>
    exact leaf_mem_binary.2 ((leaf_mem_binary.1 hc).imp (fun h => leaf_mem_unary.2 (iha h)) ihb)
  | times _ _ _ hl ht ha hb iha ihb =>
    exact leaf_mem_binary.2 ((leaf_mem_binary.1 hc).imp iha fun h => ihb (leaf_mem_unary.1 h))
  | leftMultiply _ _ _ _ m ha ih =>
    exact leaf_mem_unary.2
      (ih (leaf_mem_unary.1 (leaf_mem_unary.1 (leaf_mem_unary.1 hc))))
  | unary _ _ hop ha ih => exact leaf_mem_unary.2 (ih (leaf_mem_unary.1 hc))
  | binary _ _ hop ha hb iha ihb =>
    exact leaf_mem_binary.2 ((leaf_mem_binary.1 hc).imp iha ihb)

theorem NormalForm.tag_eq {e e' : Expr α} (h : NormalForm e e') (ht : e.tag ≠ .unknown) :
    e'.tag = e.tag := by
  induction h with
  | checkpoint => rfl
  | gramian => exact absurd rfl ht
  | timesTransposed => exact absurd rfl ht
  | transposedTimes => exact absurd rfl ht
  | times => exact absurd rfl ht
  | leftMultiply => exact absurd rfl ht
  | unary i j hop ha ih => exact unary_tag_eq ih ht
  | binary i j hop ha hb iha ihb => exact binary_tag_eq iha ihb ht

/-! ## Plans -/

theorem Planned.leaf_mem {e plan : Expr α} (h : e.Planned plan) {i : NodeId} {c : Checkpoint α}
    (hc : checkpoint i c ∈ plan.walk) : checkpoint i c ∈ e.walk := by
  obtain ⟨middle, hn, hclean⟩ := h
  exact hn.normalForm.leaf_mem (hclean.cleanForm.leaf_mem hc)

/-- A known tag survives the planner. -/
theorem Planned.tag_eq {e plan : Expr α} (h : e.Planned plan) (ht : e.tag ≠ .unknown) :
    plan.tag = e.tag := by
  obtain ⟨middle, hn, hclean⟩ := h
  have hm := hn.normalForm.tag_eq ht
  exact (hclean.cleanForm.tag_eq (hm ▸ ht)).trans hm

end RowAlgebra.Expr
