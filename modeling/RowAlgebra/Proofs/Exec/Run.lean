import RowAlgebra.Exec
import RowAlgebra.Proofs.Ending
import RowAlgebra.Proofs.Expr.Nodes

/-!
# Execution as an induction

An expression is executed bottom-up, one physical operator for each node that has one
(`Expr.isExecutable`). What the leaves come with and every operator carries from its inputs to its
result (`Expr.Keeps`) holds of the handle of an expression (`Expr.exec_ends`). All theorems on whole
executions come from this one.
-/

namespace RowAlgebra

variable {α : Type}

def UnaryOp.isPhysical : UnaryOp α → Bool
  | transposeAnyKey | leftMultiply _ => false
  | _ => true

def BinaryOp.isPhysical (op : BinaryOp) : Bool :=
  op != matMul

namespace Expr

/-- Whether a node has a physical counterpart. -/
def isExecutable : Expr α → Bool
  | checkpoint _ _ => true
  | foreign _ _ => false
  | unary _ op _ => op.isPhysical
  | binary _ op _ _ => op.isPhysical

end Expr

variable [Cell α]

theorem UnaryOp.kernel?_eq_none {blocks : BlockCatalogue α} {call : Nat} {out : Schema}
    {op : UnaryOp α} (h : op.kernel? blocks call out = none) : op.isPhysical = false := by
  cases op <;> first | rfl | cases h

theorem BinaryOp.kernel?_eq_none {out : Schema} {left right : Tag} {op : BinaryOp}
    (h : (op.kernel? out left right : Option (Kernel α (Handle α × Handle α))) = none) :
    op.isPhysical = false := by
  cases op <;> first | rfl | cases h

namespace Expr

section Nodes

variable {blocks : BlockCatalogue α} {call : Nat} {i : NodeId} {a b : Expr α}

/-- An operator with a physical counterpart is executed after its input. -/
theorem exec_unary_eq {op : UnaryOp α} {kernel : Kernel α (Handle α)}
    (h : op.kernel? blocks (call + a.size) (op.schema a.schema) = some kernel) :
    (unary i op a).exec blocks call = (do
      let g ← a.exec blocks call
      .invoke ⟨kernel.family, unary i op a, kernel.params⟩ (kernel.run g)) := by
  have hk : op.kernel? blocks (call + a.size) (unary i op a).schema = some kernel := h
  rw [exec, hk]

theorem exec_unary_refused {op : UnaryOp α}
    (h : op.kernel? blocks (call + a.size) (op.schema a.schema) = none) :
    (unary i op a).exec blocks call = .fail (unary i op a).refusal := by
  have hk : op.kernel? blocks (call + a.size) (unary i op a).schema = none := h
  rw [exec, hk]

theorem exec_binary_eq {op : BinaryOp} {kernel : Kernel α (Handle α × Handle α)}
    (h : op.kernel? (op.schema a.schema b.schema) a.tag b.tag = some kernel) :
    (binary i op a b).exec blocks call = (do
      let f ← a.exec blocks call
      let g ← b.exec blocks (call + a.size)
      .invoke ⟨kernel.family, binary i op a b, kernel.params⟩ (kernel.run (f, g))) := by
  have hk : op.kernel? (binary i op a b).schema a.tag b.tag = some kernel := h
  rw [exec, hk]

theorem exec_binary_refused {op : BinaryOp}
    (h : (op.kernel? (op.schema a.schema b.schema) a.tag b.tag :
      Option (Kernel α (Handle α × Handle α))) = none) :
    (binary i op a b).exec blocks call = .fail (binary i op a b).refusal := by
  have hk : (op.kernel? (binary i op a b).schema a.tag b.tag :
    Option (Kernel α (Handle α × Handle α))) = none := h
  rw [exec, hk]

theorem exec_unary {op : UnaryOp α} {kernel : Kernel α (Handle α)}
    (h : op.kernel? blocks (call + a.size) (op.schema a.schema) = some kernel) :
    ((unary i op a).exec blocks call).result = (a.exec blocks call).result >>= kernel.run := by
  rw [exec_unary_eq h]
  exact Traced.result_bind _ _

theorem exec_binary {op : BinaryOp} {kernel : Kernel α (Handle α × Handle α)}
    (h : op.kernel? (op.schema a.schema b.schema) a.tag b.tag = some kernel) :
    ((binary i op a b).exec blocks call).result = (do
      let f ← (a.exec blocks call).result
      let g ← (b.exec blocks (call + a.size)).result
      kernel.run (f, g)) := by
  rw [exec_binary_eq h]
  exact (Traced.result_bind _ _).trans (bind_congr fun f => Traced.result_bind _ _)

end Nodes

/-- What single nodes do to a relation `P` between nodes and their handles: leaves come with it, and
operators carry it from their inputs to their result, or fail with an error of the kind `Bad`. -/
structure Keeps (blocks : BlockCatalogue α) (P : Expr α → Handle α → Prop) (Bad : Error → Prop)
    (nodes : List (Expr α)) : Prop where
  refused : ∀ x ∈ nodes, x.isExecutable = false → Bad x.refusal
  leaf : ∀ i c, checkpoint i c ∈ nodes → P (checkpoint i c) c.rows
  unary : ∀ i op a, unary i op a ∈ nodes → ∀ call kernel,
    op.kernel? blocks call (unary i op a).schema = some kernel →
      ∀ h, P a h → Ends (kernel.run h) (P (unary i op a)) Bad
  binary : ∀ i op a b, binary i op a b ∈ nodes → ∀ kernel,
    op.kernel? (binary i op a b).schema a.tag b.tag = some kernel →
      ∀ g h, P a g → P b h → Ends (kernel.run (g, h)) (P (binary i op a b)) Bad

variable {blocks : BlockCatalogue α} {P : Expr α → Handle α → Prop} {Bad : Error → Prop}

theorem Keeps.mono {xs ys : List (Expr α)} (h : Keeps blocks P Bad ys) (hs : xs ⊆ ys) :
    Keeps blocks P Bad xs :=
  ⟨fun x hx => h.refused x (hs hx), fun i c hc => h.leaf i c (hs hc),
    fun i op a ha => h.unary i op a (hs ha), fun i op a b hb => h.binary i op a b (hs hb)⟩

/-- What single nodes keep holds of whole executions. -/
theorem exec_ends {e : Expr α} (he : Keeps blocks P Bad e.walk) (call : Nat) :
    Ends (e.exec blocks call).result (P e) Bad := by
  induction e generalizing call with
  | checkpoint i c => exact he.leaf i c (mem_walk_self _)
  | foreign i shape => exact he.refused _ (mem_walk_self _) rfl
  | unary i op a ih =>
    have hsub : a.walk ⊆ (Expr.unary i op a).walk := by
      rw [walk_unary]
      exact List.subset_cons_self _ _
    have ha := ih (he.mono hsub) call
    cases hk : op.kernel? blocks (call + a.size) (op.schema a.schema) with
    | none =>
      rw [exec_unary_refused hk]
      exact Ends.error (he.refused _ (mem_walk_self _) (UnaryOp.kernel?_eq_none hk))
    | some kernel =>
      rw [exec_unary hk]
      exact ha.bind fun h hh => he.unary i op a (mem_walk_self _) _ kernel hk h hh
  | binary i op a b iha ihb =>
    have hleft : a.walk ⊆ (Expr.binary i op a b).walk := by
      rw [walk_binary]
      exact List.subset_cons_of_subset _ (List.subset_append_left _ _)
    have hright : b.walk ⊆ (Expr.binary i op a b).walk := by
      rw [walk_binary]
      exact List.subset_cons_of_subset _ (List.subset_append_right _ _)
    have ha := iha (he.mono hleft) call
    have hb := ihb (he.mono hright) (call + a.size)
    cases hk : (op.kernel? (op.schema a.schema b.schema) a.tag b.tag :
        Option (Kernel α (Handle α × Handle α))) with
    | none =>
      rw [exec_binary_refused hk]
      exact Ends.error (he.refused _ (mem_walk_self _) (BinaryOp.kernel?_eq_none hk))
    | some kernel =>
      rw [exec_binary hk]
      exact ha.bind fun g hg =>
        hb.bind fun h hh => he.binary i op a b (mem_walk_self _) kernel hk g h hg hh

end Expr

end RowAlgebra
