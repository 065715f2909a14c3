import RowAlgebra.Proofs.Exec.Run
import RowAlgebra.Proofs.Expr.Admission
import RowAlgebra.Proofs.Keyed.Blocks

/-!
# What schemas tell of keyed matrices

A schema `Describes` a keyed matrix if it tells the number of its columns and, where keys are
integers, if these are the positions of its rows. Operators that admit their inputs carry this from
them to their result (`Describes.unary`, `Describes.binary`).
-/

namespace RowAlgebra

variable {α : Type}

/-! ## Schemas and matrices -/

structure Schema.Describes (s : Schema) (A : KeyedMatrix α) : Prop where
  columns : s.columns = .ofLength A.ncol
  indexed : s.keyType.isInt = true → ∃ n : ℕ, s.rows = .ofLength n ∧ A.Indexed n

theorem Schema.Describes.ncol_eq {β : Type} {s t : Schema} {A : KeyedMatrix α} {B : KeyedMatrix β}
    (hs : s.Describes A) (ht : t.Describes B) (h : s.columns = t.columns) : A.ncol = B.ncol :=
  Side.ofLength_natCast_inj (hs.columns.symm.trans (h.trans ht.columns))

/-! ## Operators -/

variable [Cell α] [Field α]

/-- What an operator on inputs with the schema `s` has to come with: real scalars, ranges that can be
counted, and block functions that work row by row. -/
def UnaryOp.Ready (blocks : BlockCatalogue α) (rowFn : BlockName → Key → Row α → Row α) (s : Schema) :
    UnaryOp α → Prop
  | scalar _ x => x.isReal = true ∧ ∃ y : α, Cell.ofScalar x = .ok y
  | rowRange start stop => stop - start < 2 ^ 63
  | mapBlock fn ncol _ => 0 ≤ ncol ∧ (blocks fn).RowWise (rowFn fn) s.ncol.toNat ncol.toNat
  | _ => True

variable {blocks : BlockCatalogue α} {rowFn : BlockName → Key → Row α → Row α}

namespace Schema

theorem Describes.unary {op : UnaryOp α} {s : Schema} {A : KeyedMatrix α} (hs : s.Describes A)
    (hop : op.isPhysical = true) (hadm : op.admits s = .ok ()) (hready : op.Ready blocks rowFn s) :
    (op.schema s).Describes (op.onMatrix rowFn s A) := by
  cases op <;> simp only [UnaryOp.isPhysical, Bool.false_eq_true] at hop
  case transpose =>
    obtain ⟨n, hrows, -⟩ := hs.indexed (UnaryOp.admits_transpose_iff.1 hadm)
    refine ⟨?_, fun _ => ⟨A.ncol, hs.columns, KeyedMatrix.indexed_transposed _ _⟩⟩
    change s.rows = .ofLength s.nrow.toNat
    rw [toNat_nrow hrows, hrows]
  case selfGramian =>
    exact ⟨hs.columns, fun _ => ⟨A.ncol, hs.columns, KeyedMatrix.indexed_transposedTimes _ _⟩⟩
  case scalar op x =>
    refine ⟨hs.columns, fun h => ?_⟩
    obtain ⟨n, hrows, hA⟩ := hs.indexed h
    exact ⟨n, hrows, hA.withCells _ _⟩
  case rowRange start stop =>
    obtain ⟨hkeys, hstart, hle, m, hm, hstop⟩ := UnaryOp.admits_rowRange_iff.1 hadm
    obtain ⟨n, hrows, hA⟩ := hs.indexed hkeys
    obtain rfl : m = n := congrArg Side.length (hm.symm.trans hrows)
    refine ⟨hs.columns, fun _ => ⟨(stop - start).toNat, ?_, hA.rowRange hstart hstop⟩⟩
    have hcounted : stop - start < 2 ^ 63 := hready
    change Side.mk (stop - start) (decide (stop - start < 2 ^ 63)) = .mk _ true
    rw [decide_eq_true hcounted, Int.toNat_of_nonneg (by omega)]
  case rightMultiply m =>
    refine ⟨rfl, fun h => ?_⟩
    obtain ⟨n, hrows, hA⟩ := hs.indexed h
    exact ⟨n, hrows, hA.withCells _ _⟩
  case mapBlock fn ncol keepsKeys =>
    refine ⟨?_, fun h => ?_⟩
    · change Side.ofLength ncol = .ofLength ncol.toNat
      rw [Int.toNat_of_nonneg hready.1]
    · obtain ⟨n, hrows, hA⟩ := hs.indexed h
      exact ⟨n, hrows, hA.withCells _ _⟩

theorem Describes.binary {op : BinaryOp} {l r : Schema} {A B : KeyedMatrix α}
    (hl : l.Describes A) (hr : r.Describes B) (hop : op.isPhysical = true)
    (hadm : op.admits l r = .ok ()) : (op.schema l r).Describes (op.onMatrices r A B) := by
  cases op with
  | matMul => cases hop
  | matMulTransA =>
    exact ⟨hr.columns, fun _ => ⟨A.ncol, hl.columns, KeyedMatrix.indexed_transposedTimes _ _⟩⟩
  | matMulTransB =>
    obtain ⟨-, hkeys⟩ := BinaryOp.admits_matMulTransB_iff.1 hadm
    obtain ⟨n, hrows, -⟩ := hr.indexed hkeys
    refine ⟨?_, fun h => ?_⟩
    · change r.rows = .ofLength r.nrow.toNat
      rw [toNat_nrow hrows, hrows]
    · obtain ⟨m, hrows, hA⟩ := hl.indexed h
      exact ⟨m, hrows, hA.withCells _ _⟩
  | elementwise op =>
    obtain ⟨⟨shape, hleft, hright⟩, hkeys⟩ := BinaryOp.admits_elementwise_iff.1 hadm
    have hrows : l.rows = r.rows := (shape_eq_ok_iff.1 hleft).1.trans (shape_eq_ok_iff.1 hright).1.symm
    refine ⟨hl.columns, fun h => ?_⟩
    obtain ⟨m, hm, hA⟩ := hl.indexed h
    obtain ⟨n, hn, hB⟩ := hr.indexed (hkeys ▸ h)
    obtain rfl : m = n := Side.ofLength_natCast_inj (hm.symm.trans (hrows.trans hn))
    exact ⟨m, hm, hA.zipWith hB _⟩

end Schema

end RowAlgebra
