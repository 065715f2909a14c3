import RowAlgebra.Exec

/-!
# Results and their storage

Every physical operator makes a collection of its own for its result. That holds also of the one
that reads a checkpoint: it shares the rows, but not the storage. `Expr.execPlaced` computes a plan
as `Expr.exec` does, and keeps track of the slots that the collections get on the way. None of them
is cached yet.
-/

namespace RowAlgebra

variable {α : Type}

/-- A matrix together with the slot of its collection. -/
structure Placed (α : Type) where
  handle : Handle α
  slot : Slot

/-- Makes a collection of its own for some rows. -/
def Storage.place (storage : Storage) (handle : Handle α) : Placed α × Storage :=
  (⟨handle, storage.nextSlot⟩, storage.allocate .none)

namespace Checkpoint

/-- The matrix of a checkpoint in the collection that is its own. -/
def placed (c : Checkpoint α) : Placed α :=
  ⟨c.handle, c.slot⟩

/-- The matrix of a checkpoint in a copy of its collection. -/
def copy (c : Checkpoint α) (storage : Storage) : Placed α × Storage :=
  storage.place ⟨c.placed.handle.collection, c.ncol⟩

end Checkpoint

namespace Expr

variable [Cell α]

/-- Computes a plan and places all results, the last one among them. -/
def execPlaced (blocks : BlockCatalogue α) (call : Nat) :
    Expr α → Storage → Traced α (Placed α × Storage)
  | checkpoint id c, storage =>
    .invoke ⟨.checkpoint, checkpoint id c, .nothing⟩ (.ok (c.copy storage))
  | foreign id shape, _ => .fail (foreign (α := α) id shape).refusal
  | e@(unary _ op input), storage =>
    match op.kernel? blocks (call + input.size) e.schema with
    | none => .fail e.refusal
    | some kernel => do
      let (a, storage) ← input.execPlaced blocks call storage
      let result ← .invoke ⟨kernel.family, e, kernel.params⟩ (kernel.run a.handle)
      return storage.place result
  | e@(binary _ op left right), storage =>
    match op.kernel? e.schema left.tag right.tag with
    | none => .fail e.refusal
    | some kernel => do
      let (a, storage) ← left.execPlaced blocks call storage
      let (b, storage) ← right.execPlaced blocks (call + left.size) storage
      let result ← .invoke ⟨kernel.family, e, kernel.params⟩ (kernel.run (a.handle, b.handle))
      return storage.place result

end Expr

end RowAlgebra
