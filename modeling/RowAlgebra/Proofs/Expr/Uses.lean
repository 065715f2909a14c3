import RowAlgebra.Expr.Algebra
import RowAlgebra.Proofs.Expr.Undefined

/-!
# Equal operands

A new node asks its operand for the schema only, and equal nodes have equal schemas. So whatever can
be built on an expression can be built on the expressions that are equal to it, and comes to equal
nodes, unless the operator itself holds an undefined number (`Use.agree`).
-/

namespace RowAlgebra

namespace Expr

variable {α : Type} [Cell α]

/-- Two attempts to build an expression come to equal ones, or fail for the same kind of reason. -/
def Agree : Except Error (Expr α × NodeId) → Except Error (Expr α × NodeId) → Prop
  | .ok (e, _), .ok (f, _) => e.same f = true
  | .error a, .error b => a.kind = b.kind
  | _, _ => False

namespace Agree

variable {n n' : NodeId}

/-- A check that both attempts make first. -/
theorem check {β : Type} (x : Except Error β) {f g : β → Build (Expr α)}
    (h : ∀ b, Agree (f b n) (g b n')) :
    Agree (((liftM x : Build β) >>= f) n) (((liftM x : Build β) >>= g) n') := by
  cases x with
  | error error => exact rfl
  | ok b => exact h b

theorem unary {op : UnaryOp α} {a b : Expr α} (hop : op.same op = true) (h : Equal a b)
    (hs : a.schema = b.schema) : Agree (ofUnary op a n) (ofUnary op b n') := by
  cases hadm : op.admits a.schema with
  | error error =>
    rw [ofUnary_of_refused hadm, ofUnary_of_refused (hs ▸ hadm)]
    exact rfl
  | ok _ =>
    rw [ofUnary_of_admits hadm, ofUnary_of_admits (hs ▸ hadm)]
    exact same_iff_equal.2 (.unary hop h)

theorem binary {op : BinaryOp} {a a' b b' : Expr α} (ha : Equal a a') (hb : Equal b b')
    (hsa : a.schema = a'.schema) (hsb : b.schema = b'.schema) :
    Agree (ofBinary op a b n) (ofBinary op a' b' n') := by
  cases hadm : op.admits a.schema b.schema with
  | error error =>
    rw [ofBinary_of_refused hadm, ofBinary_of_refused (hsa ▸ hsb ▸ hadm)]
    exact rfl
  | ok _ =>
    rw [ofBinary_of_admits hadm, ofBinary_of_admits (hsa ▸ hsb ▸ hadm)]
    exact same_iff_equal.2 (.binary n n' op ha hb)

theorem ofRange {a b : Expr α} (r : IndexRange) (h : Equal a b) (hs : a.schema = b.schema) :
    Agree (ofRange a r n) (ofRange b r n') := by
  have hkeys : a.keyType = b.keyType := congrArg Schema.keyType hs
  rw [Expr.ofRange, Expr.ofRange, hkeys]
  refine check _ fun _ => check _ fun _ => unary ?_ h hs
  refine UnaryOp.sameRange_iff.2 ?_
  by_cases hempty : r.stop ≤ r.start
  · exact .inl ⟨hempty, hempty⟩
  · exact .inr ⟨Int.not_le.1 hempty, rfl, rfl⟩

end Agree

end Expr

/-- A way to build a node on an operand. -/
inductive Use (α : Type) where
  | unary (op : UnaryOp α)
  | transposed
  | ofRange (r : IndexRange)
  | slice (start stop step : Option Int)
  | mapBlock (fn : BlockName) (ncol : Option Int) (keepsKeys : Bool)
  /-- The operand is the left one of two. -/
  | left (op : BinaryOp) (other : Expr α)
  /-- The operand is the right one of two. -/
  | right (op : BinaryOp) (other : Expr α)
  /-- The operand is used on both sides. -/
  | both (op : BinaryOp)

namespace Use

variable {α : Type}

def build (e : Expr α) : Use α → Build (Expr α)
  | unary op => Expr.ofUnary op e
  | transposed => e.transposed
  | ofRange r => e.ofRange r
  | slice start stop step => e.slice start stop step
  | mapBlock fn ncol keepsKeys => e.mapBlock fn ncol keepsKeys
  | left op other => Expr.ofBinary op e other
  | right op other => Expr.ofBinary op other e
  | both op => Expr.ofBinary op e e

variable [Cell α] [ComparedCell α]

/-- Whether an undefined number comes with the use itself. -/
def hasUndefined : Use α → Bool
  | unary op => op.hasUndefined
  | left _ other | right _ other => other.hasUndefined
  | transposed | ofRange _ | slice _ _ _ | mapBlock _ _ _ | both _ => false

/-- Equal operands come to equal nodes, or are refused for the same kind of reason. -/
theorem agree {u : Use α} (hu : u.hasUndefined = false) {a b : Expr α} (h : Expr.Equal a b)
    (hs : a.schema = b.schema) (n n' : NodeId) : Expr.Agree (u.build a n) (u.build b n') := by
  have hkeys : a.keyType = b.keyType := congrArg Schema.keyType hs
  cases u with
  | unary op => exact .unary (UnaryOp.same_self_iff.2 hu) h hs
  | transposed =>
    rw [build, build, Expr.transposed, Expr.transposed, hkeys]
    refine .unary ?_ h hs
    split <;> rfl
  | ofRange r => exact .ofRange r h hs
  | slice start stop step =>
    rw [build, build, Expr.slice, Expr.slice, hs]
    exact .check _ fun nrow => .check _ fun r => .ofRange r h hs
  | mapBlock fn ncol keepsKeys =>
    have hself (ncol : Int) : (UnaryOp.mapBlock fn ncol keepsKeys : UnaryOp α).same
        (.mapBlock fn ncol keepsKeys) = true := UnaryOp.same_self_iff.2 rfl
    cases ncol with
    | some ncol => exact .unary (hself ncol) h hs
    | none =>
      rw [build, build, Expr.mapBlock.eq_def, Expr.mapBlock.eq_def, hs]
      exact .check _ fun ncol => .unary (hself ncol) h hs
  | left op other =>
    exact .binary h (Expr.same_iff_equal.1 (Expr.same_self_iff.2 hu)) hs rfl
  | right op other =>
    exact .binary (Expr.same_iff_equal.1 (Expr.same_self_iff.2 hu)) h rfl hs
  | both op => exact .binary h h hs hs

end Use

end RowAlgebra
