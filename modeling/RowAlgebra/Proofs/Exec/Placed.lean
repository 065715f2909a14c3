import RowAlgebra.Exec.Placed
import RowAlgebra.Proofs.Exec.Run

/-!
# Where results are placed

A plan that is executed with its collections is executed like any other, by the same calls and with
the same result. Each of its nodes takes a slot, and the root takes the last one
(`Expr.execPlaced_eq`). So the collection of a result is a new one, whatever the plan is: also if it
is nothing but a checkpoint.
-/

namespace RowAlgebra

variable {α : Type}

namespace Storage

/-- Some more slots, with nothing in them. -/
def reserve (s : Storage) (n : Nat) : Storage :=
  ⟨s.levels ++ List.replicate n .none⟩

theorem reserve_add (s : Storage) (m n : Nat) : (s.reserve m).reserve n = s.reserve (m + n) := by
  simp [reserve]

theorem nextSlot_reserve (s : Storage) (n : Nat) : (s.reserve n).nextSlot = s.nextSlot + n := by
  simp [nextSlot, reserve]

theorem allocate_none (s : Storage) : s.allocate .none = s.reserve 1 :=
  rfl

theorem place_reserve (s : Storage) (n : Nat) (h : Handle α) :
    (s.reserve n).place h = (⟨h, s.nextSlot + n⟩, s.reserve (n + 1)) := by
  rw [place, nextSlot_reserve, allocate_none, reserve_add]

/-- The level of the last slot is set where it is handed out. -/
theorem set_reserve (s : Storage) (n : Nat) (level : StorageLevel) :
    (s.reserve (n + 1)).set (s.nextSlot + n) level = (s.reserve n).allocate level := by
  have hlast : s.nextSlot + n = (s.levels ++ List.replicate n StorageLevel.none).length := by
    simp [nextSlot]
  rw [set, reserve, reserve, allocate, List.replicate_succ', ← List.append_assoc, hlast,
    List.set_append_right _ _ (Nat.le_refl _), Nat.sub_self]
  rfl

end Storage

namespace Traced

variable {β γ δ : Type}

theorem pure_bind (v : β) (f : β → Traced α γ) : pure v >>= f = f v :=
  rfl

theorem bind_assoc (x : Traced α β) (f : β → Traced α γ) (g : γ → Traced α δ) :
    x >>= f >>= g = x >>= fun v => f v >>= g := by
  obtain ⟨calls, _ | v⟩ := x
  · rfl
  · change Traced.mk (calls ++ (f v).calls) (f v).result >>= g = ⟨calls ++ (f v >>= g).calls, _⟩
    cases hf : (f v).result with
    | error e =>
      rw [calls_bind_error hf, result_bind, hf]
      rfl
    | ok w =>
      rw [calls_bind_ok hf, result_bind, hf, ← List.append_assoc]
      rfl

end Traced

namespace Expr

variable [Cell α] {blocks : BlockCatalogue α}

/-- Each node of a plan takes a slot, and the root takes the last one. -/
theorem execPlaced_eq (e : Expr α) (call : Nat) (storage : Storage) :
    e.execPlaced blocks call storage = (do
      let h ← e.exec blocks call
      return (⟨h, storage.nextSlot + (e.size - 1)⟩, storage.reserve e.size)) := by
  induction e generalizing call storage with
  | checkpoint i c => rfl
  | foreign i shape => rfl
  | unary i op a ih =>
    cases hk : op.kernel? blocks (call + a.size) (op.schema a.schema) with
    | none =>
      have hk' : op.kernel? blocks (call + a.size) (unary i op a).schema = none := hk
      rw [exec_unary_refused hk, execPlaced, hk']
      rfl
    | some kernel =>
      have hk' : op.kernel? blocks (call + a.size) (unary i op a).schema = some kernel := hk
      rw [exec_unary_eq hk, execPlaced, hk']
      simp only [ih, Traced.bind_assoc, Traced.pure_bind, Storage.place_reserve, size,
        Nat.add_sub_cancel]
  | binary i op a b iha ihb =>
    cases hk : (op.kernel? (op.schema a.schema b.schema) a.tag b.tag :
        Option (Kernel α (Handle α × Handle α))) with
    | none =>
      have hk' : (op.kernel? (binary i op a b).schema a.tag b.tag :
        Option (Kernel α (Handle α × Handle α))) = none := hk
      rw [exec_binary_refused hk, execPlaced, hk']
      rfl
    | some kernel =>
      have hk' : op.kernel? (binary i op a b).schema a.tag b.tag = some kernel := hk
      rw [exec_binary_eq hk, execPlaced, hk']
      simp only [iha, ihb, Traced.bind_assoc, Traced.pure_bind, Storage.reserve_add,
        Storage.place_reserve, Storage.nextSlot_reserve, Nat.add_assoc storage.nextSlot, size,
        Nat.add_sub_cancel]
      rfl

omit [Cell α] in
/-- The collection of the root is cached as the last one. -/
theorem set_placed (e : Expr α) (storage : Storage) (level : StorageLevel) :
    (storage.reserve e.size).set (storage.nextSlot + (e.size - 1)) level =
      (storage.reserve (e.size - 1)).allocate level := by
  have hsize : e.size - 1 + 1 = e.size := by cases e <;> rfl
  rw [← storage.set_reserve (e.size - 1) level, hsize]

theorem execPlaced_calls (e : Expr α) (call : Nat) (storage : Storage) :
    (e.execPlaced blocks call storage).calls = (e.exec blocks call).calls := by
  rw [execPlaced_eq]
  cases h : (e.exec blocks call).result with
  | error err => exact Traced.calls_bind_error h _
  | ok handle => exact (Traced.calls_bind_ok h _).trans (List.append_nil _)

/-- A plan that is executed with its collections comes to what it comes to without them. -/
theorem execPlaced_result (e : Expr α) (call : Nat) (storage : Storage) :
    (e.execPlaced blocks call storage).result = (e.exec blocks call).result.map fun h =>
      (⟨h, storage.nextSlot + (e.size - 1)⟩, storage.reserve e.size) := by
  rw [execPlaced_eq, Traced.result_bind]
  cases (e.exec blocks call).result <;> rfl

end Expr

end RowAlgebra
