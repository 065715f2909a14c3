import RowAlgebra.Expr.Build
import RowAlgebra.Proofs.Ending
import RowAlgebra.Proofs.Expr.Nodes

/-!
# What operators ask of their inputs

An operator admits its inputs under one condition on their schemas, which a lemma states for each
operator that asks for anything (`UnaryOp.admits_transpose_iff`, `BinaryOp.admits_matMul_iff` and so
on). A length that is asked for has to be told, so sides that fit are both known.
-/

namespace RowAlgebra

/-! ## Sides and shapes -/

namespace Side

theorem count_eq_ok_iff {s : Side} {n : Int} : s.count = .ok n ↔ s = .ofLength n := by
  obtain ⟨length, isCounted⟩ := s
  cases isCounted <;> simp [count, ofLength]

theorem count_ensures (s : Side) : Ensures s.count (· = s.length) := by
  unfold count
  split
  · exact Ends.ok rfl
  · exact Ends.error trivial

theorem ofLength_natCast_inj {m n : ℕ} (h : ofLength m = ofLength n) : m = n :=
  Int.ofNat.inj (congrArg length h)

end Side

namespace Schema

theorem shape_eq_ok_iff {s : Schema} {shape : Shape} :
    s.shape = .ok shape ↔ s.rows = .ofLength shape.nrow ∧ s.columns = .ofLength shape.ncol := by
  rw [← Side.count_eq_ok_iff, ← Side.count_eq_ok_iff]
  constructor
  · intro h
    obtain ⟨m, hm, h⟩ := bind_eq_ok_iff.1 h
    obtain ⟨n, hn, h⟩ := bind_eq_ok_iff.1 h
    cases h
    exact ⟨hm, hn⟩
  · rintro ⟨hm, hn⟩
    exact bind_eq_ok_iff.2 ⟨_, hm, bind_eq_ok_iff.2 ⟨_, hn, rfl⟩⟩

theorem shape_ensures (s : Schema) : Ensures s.shape (· = ⟨s.nrow, s.ncol⟩) := by
  refine s.rows.count_ensures.bind fun m hm => ?_
  refine s.columns.count_ensures.bind fun n hn => Ends.ok ?_
  rw [hm, hn]
  rfl

theorem toNat_nrow {s : Schema} {n : ℕ} (h : s.rows = .ofLength n) : s.nrow.toNat = n := by
  rw [nrow, h]
  rfl

theorem toNat_ncol {s : Schema} {n : ℕ} (h : s.columns = .ofLength n) : s.ncol.toNat = n := by
  rw [ncol, h]
  rfl

end Schema

/-! ## Checks -/

namespace Build

theorem require_eq_ok_iff {condition : Bool} {error : Error} :
    require condition error = .ok () ↔ condition = true := by
  cases condition <;> simp [require]

theorem seq_eq_ok_iff {x y : Except Error Unit} :
    (x >>= fun _ => y) = .ok () ↔ x = .ok () ∧ y = .ok () := by
  rw [bind_eq_ok_iff]
  exact ⟨fun ⟨_, hx, hy⟩ => ⟨hx, hy⟩, fun ⟨hx, hy⟩ => ⟨_, hx, hy⟩⟩

/-- Two sides fit if both are known to have the same length. -/
theorem requireFit_eq_ok_iff {a b : Side} {left right : Except Error Shape}
    {refuse : Shape → Shape → Error} :
    requireFit a b left right refuse = .ok () ↔ ∃ n, a = .ofLength n ∧ b = .ofLength n := by
  simp only [← Side.count_eq_ok_iff]
  constructor
  · intro h
    obtain ⟨m, hm, h⟩ := bind_eq_ok_iff.1 h
    obtain ⟨n, hn, h⟩ := bind_eq_ok_iff.1 h
    by_cases hmn : m = n
    · exact ⟨n, hmn ▸ hm, hn⟩
    · -- The refusal tells the shapes of both operands, if they can be told.
      rw [if_neg hmn] at h
      obtain ⟨_, -, h⟩ := bind_eq_ok_iff.1 h
      obtain ⟨_, -, h⟩ := bind_eq_ok_iff.1 h
      cases h
  · rintro ⟨n, ha, hb⟩
    exact bind_eq_ok_iff.2 ⟨n, ha, bind_eq_ok_iff.2 ⟨n, hb, if_pos rfl⟩⟩

end Build

/-! ## Operators -/

open Build

namespace UnaryOp

variable {α : Type} {s : Schema}

theorem admits_transpose_iff :
    (transpose : UnaryOp α).admits s = .ok () ↔ s.keyType.isInt = true :=
  require_eq_ok_iff

theorem admits_rowRange_iff {start stop : Int} :
    (rowRange start stop : UnaryOp α).admits s = .ok () ↔
      s.keyType.isInt = true ∧ 0 ≤ start ∧ start ≤ stop ∧
        ∃ n, s.rows = .ofLength n ∧ stop ≤ n := by
  rw [admits, seq_eq_ok_iff, require_eq_ok_iff]
  simp only [bind_eq_ok_iff, require_eq_ok_iff, Side.count_eq_ok_iff, decide_eq_true_eq]
  constructor
  · rintro ⟨hkeys, n, hn, hstart, hle, hstop⟩
    exact ⟨hkeys, hstart, hle, n, hn, hstop⟩
  · rintro ⟨hkeys, hstart, hle, n, hn, hstop⟩
    exact ⟨hkeys, n, hn, hstart, hle, hstop⟩

theorem admits_leftMultiply_iff {m : Dense α} :
    (leftMultiply m).admits s = .ok () ↔ s.rows = .ofLength m.ncol ∧ s.keyType.isInt = true := by
  simp only [admits, seq_eq_ok_iff, requireFit_eq_ok_iff, require_eq_ok_iff]
  refine and_congr_left fun _ => ⟨?_, fun h => ⟨_, rfl, h⟩⟩
  rintro ⟨n, hm, hn⟩
  exact hn.trans hm.symm

theorem admits_rightMultiply_iff {m : Dense α} :
    (rightMultiply m).admits s = .ok () ↔ s.columns = .ofLength m.nrow := by
  simp only [admits, requireFit_eq_ok_iff]
  refine ⟨?_, fun h => ⟨_, h, rfl⟩⟩
  rintro ⟨n, hn, hm⟩
  exact hn.trans hm.symm

end UnaryOp

namespace BinaryOp

variable {l r : Schema}

theorem admits_matMul_iff :
    matMul.admits l r = .ok () ↔ ∃ n, l.columns = .ofLength n ∧ r.rows = .ofLength n :=
  requireFit_eq_ok_iff

theorem admits_matMulTransA_iff :
    matMulTransA.admits l r = .ok () ↔ ∃ n, l.rows = .ofLength n ∧ r.rows = .ofLength n :=
  requireFit_eq_ok_iff

theorem admits_matMulTransB_iff :
    matMulTransB.admits l r = .ok () ↔
      (∃ n, l.columns = .ofLength n ∧ r.columns = .ofLength n) ∧ r.keyType.isInt = true := by
  simp only [admits, seq_eq_ok_iff, requireFit_eq_ok_iff, require_eq_ok_iff]

theorem admits_elementwise_iff {op : CellOp} :
    (elementwise op).admits l r = .ok () ↔
      (∃ shape, l.shape = .ok shape ∧ r.shape = .ok shape) ∧ l.keyType = r.keyType := by
  constructor
  · intro h
    obtain ⟨left, hl, h⟩ := bind_eq_ok_iff.1 h
    obtain ⟨right, hr, h⟩ := bind_eq_ok_iff.1 h
    obtain ⟨hshape, hkeys⟩ := seq_eq_ok_iff.1 h
    obtain rfl : left = right := eq_of_beq (require_eq_ok_iff.1 hshape)
    exact ⟨⟨left, hl, hr⟩, eq_of_beq (require_eq_ok_iff.1 hkeys)⟩
  · rintro ⟨⟨shape, hl, hr⟩, hkeys⟩
    refine bind_eq_ok_iff.2 ⟨shape, hl, bind_eq_ok_iff.2 ⟨shape, hr, seq_eq_ok_iff.2 ⟨?_, ?_⟩⟩⟩
    · exact require_eq_ok_iff.2 (beq_self_eq_true shape)
    · exact require_eq_ok_iff.2 (beq_iff_eq.2 hkeys)

end BinaryOp

/-! ## Expressions whose sides can be counted -/

namespace Expr

variable {α : Type}

/-- Only ranges can have more rows than can be counted. -/
theorem shape_of_ranges {e : Expr α} (h : ∀ i start stop a,
    .unary i (.rowRange start stop) a ∈ e.walk → stop - start < 2 ^ 63) :
    e.shape = .ok ⟨e.nrow, e.ncol⟩ := by
  refine Schema.shape_eq_ok_iff.2 ?_
  induction e with
  | checkpoint id c => exact ⟨rfl, rfl⟩
  | foreign id shape => exact ⟨rfl, rfl⟩
  | unary id op a ih =>
    rw [walk_unary] at h
    obtain ⟨hrows, hcolumns⟩ := ih fun i start stop b hb =>
      h i start stop b (List.mem_cons_of_mem _ hb)
    cases op with
    | transpose | transposeAnyKey => exact ⟨hcolumns, hrows⟩
    | selfGramian => exact ⟨hcolumns, hcolumns⟩
    | scalar op x => exact ⟨hrows, hcolumns⟩
    | rowRange start stop =>
      have hcounted := h id start stop a List.mem_cons_self
      refine ⟨?_, hcolumns⟩
      change Side.mk (stop - start) (decide (stop - start < 2 ^ 63)) = .ofLength (stop - start)
      rw [decide_eq_true hcounted]
      rfl
    | leftMultiply m => exact ⟨rfl, hcolumns⟩
    | rightMultiply m => exact ⟨hrows, rfl⟩
    | mapBlock fn ncol keepsKeys => exact ⟨hrows, rfl⟩
  | binary id op a b iha ihb =>
    rw [walk_binary] at h
    obtain ⟨hrows, hcolumns⟩ := iha fun i start stop x hx =>
      h i start stop x (List.mem_cons_of_mem _ (List.mem_append_left _ hx))
    obtain ⟨hrows', hcolumns'⟩ := ihb fun i start stop x hx =>
      h i start stop x (List.mem_cons_of_mem _ (List.mem_append_right _ hx))
    cases op with
    | matMul => exact ⟨hrows, hcolumns'⟩
    | matMulTransA => exact ⟨hcolumns, hcolumns'⟩
    | matMulTransB => exact ⟨hrows, hrows'⟩
    | elementwise op => exact ⟨hrows, hcolumns⟩

theorem shape_of_longRange {i : NodeId} {start stop : Int} {a : Expr α}
    (h : 2 ^ 63 ≤ stop - start) :
    (unary i (.rowRange start stop) a).shape = .error (.fault .overflow) := by
  have hrows : (Side.ofRange start stop).count = .error (.fault .overflow) := by
    rw [Side.ofRange, decide_eq_false (Int.not_lt.2 h)]
    rfl
  change ((Side.ofRange start stop).count >>= fun _ => _) = _
  rw [hrows]
  rfl

/-- Sides that cannot be counted are all that can be wrong with a shape. -/
theorem shape_eq_error {e : Expr α} {error : Error} (h : e.shape = .error error) :
    error = .fault .overflow := by
  have hcount (s : Side) : Fails s.count (· = .fault .overflow) := by
    unfold Side.count
    split
    · exact .ok _
    · exact Ends.error rfl
  have hshape : Fails e.shape (· = .fault .overflow) :=
    (hcount _).bind fun _ => (hcount _).bind fun _ => .ok _
  exact hshape.of_error h

end Expr

end RowAlgebra
