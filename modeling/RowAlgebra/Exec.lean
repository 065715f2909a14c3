import RowAlgebra.Exec.Trace
import RowAlgebra.Handle.Elementwise
import RowAlgebra.Handle.Products

/-!
# Execution

`Expr.exec` computes a plan bottom-up. Each operator with a physical counterpart is computed by one
call on the handles of its inputs (`UnaryOp.kernel?`, `BinaryOp.kernel?`); an operator without one
is refused before its inputs are computed. Calls are numbered in the order in which they are made,
so a node comes after everything below it, and the left input before the right one.
-/

namespace RowAlgebra

variable {α : Type}

/-- A physical operator that is ready to be applied to inputs of the type `ι`. -/
structure Kernel (α ι : Type) where
  family : Family
  params : CallParams
  run : ι → Except Error (Handle α)

namespace Checkpoint

/-- The rows of a checkpoint. They are shared, their storage is not. -/
def rows (c : Checkpoint α) : Handle α :=
  ⟨c.handle.collection, c.ncol⟩

end Checkpoint

/-- Why an operator without a physical counterpart is not computed. -/
def Expr.refusal (e : Expr α) : Error :=
  .about .noExecPolicy e.text

variable [Cell α]

/-- The physical counterpart of an operator with the schema `out`, as the call with a number. -/
def UnaryOp.kernel? (blocks : BlockCatalogue α) (call : Nat) (out : Schema) :
    UnaryOp α → Option (Kernel α (Handle α))
  | .transpose => some ⟨.transpose, .nothing, fun a => do a.transposed (← out.columns.count)⟩
  | .selfGramian => some ⟨.gramian, .nothing, fun a => do a.gramian (← out.shape)⟩
  | .scalar op s => some ⟨.scalar op, .scalar s, Handle.withScalar op s⟩
  | .rowRange start stop => some ⟨.rowRange, .nothing, fun a => .ok (a.rowRange start stop call)⟩
  | .rightMultiply m => some ⟨.rightMultiply, .nothing, fun a => a.timesDense m⟩
  | .mapBlock fn ncol keepsKeys =>
    some ⟨.mapBlock, .nothing, Handle.mapBlock (blocks fn) ⟨fn, ncol, keepsKeys⟩ call⟩
  | .transposeAnyKey | .leftMultiply _ => none

/-- The physical counterpart of an operator on inputs with the tags `left` and `right`. -/
def BinaryOp.kernel? (out : Schema) (left right : Tag) :
    BinaryOp → Option (Kernel α (Handle α × Handle α))
  | .matMulTransB =>
    some ⟨.timesTransposed, .nothing, fun (a, b) => do a.timesTransposed b (← out.columns.count)⟩
  | .matMulTransA =>
    let zippable := Tag.evident left right
    some ⟨.transposedTimes, .zippable zippable,
      fun (a, b) => do a.transposedTimes b (← out.shape) zippable⟩
  | .elementwise op =>
    some ⟨.elementwise op, .nothing, fun (a, b) => do a.combine op b (← out.columns.count)⟩
  | .matMul => none

namespace Expr

/-- Computes a plan, whose first call has the number `call`. -/
def exec (blocks : BlockCatalogue α) (call : Nat) : Expr α → Traced α (Handle α)
  | checkpoint id c => .invoke ⟨.checkpoint, checkpoint id c, .nothing⟩ (.ok c.rows)
  | foreign id shape => .fail (foreign (α := α) id shape).refusal
  | e@(unary _ op input) =>
    match op.kernel? blocks (call + input.size) e.schema with
    | none => .fail e.refusal
    | some kernel => do
      let a ← input.exec blocks call
      .invoke ⟨kernel.family, e, kernel.params⟩ (kernel.run a)
  | e@(binary _ op left right) =>
    match op.kernel? e.schema left.tag right.tag with
    | none => .fail e.refusal
    | some kernel => do
      let a ← left.exec blocks call
      let b ← right.exec blocks (call + left.size)
      .invoke ⟨kernel.family, e, kernel.params⟩ (kernel.run (a, b))

end Expr

end RowAlgebra
