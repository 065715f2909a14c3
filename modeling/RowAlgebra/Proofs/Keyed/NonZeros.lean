import Mathlib.Algebra.BigOperators.Group.Finset.Sigma
import RowAlgebra.Expr.NonZeros
import RowAlgebra.Proofs.Exec.PlainRows
import RowAlgebra.Proofs.Exec.Positions
import RowAlgebra.Proofs.Keyed.Elementwise
import RowAlgebra.Proofs.Keyed.Products

/-!
# Counting cells that are not zero

A handle that is `Counted` has a certain number of cells that are not zero, in plain rows of one
width, and has its rows at positions where its keys are integers. The operators through which counts
are derived carry this from their input to their result (`UnaryOp.kernel_counted`): a scalar that is
not zero leaves each zero and each other cell what it is, and a transposition moves every cell to
another place, since it finds each row under its position. So **derived counts are right** for
whatever is executed over counted leaves (`Expr.exec_counted`).
-/

namespace RowAlgebra

variable {α : Type}

/-! ## What is counted -/

section Counting

variable [Cell α]

def Cells.nonZeros : Cells α → Nat
  | plain row => row.countP fun a => !Cell.isZero a
  | mixed row => row.countP fun s => !s.isZero

/-- The number of cells of a collection that are not zero. -/
def Collection.nonZeros (c : Collection α) : Nat :=
  (c.rows.map fun entry => entry.2.nonZeros).sum

/-- A row-wise function that keeps the count of each row keeps that of a collection. -/
theorem Collection.mapRows_nonZeros {f : Cells α → Except Error (Cells α)} (c : Collection α)
    (hf : ∀ entry ∈ c.rows, Ensures (f entry.2) fun r => r.nonZeros = entry.2.nonZeros) :
    Ensures (c.mapRows f) fun d => d.nonZeros = c.nonZeros := by
  let R (entry new : KeyedRow α) : Prop := new.2.nonZeros = entry.2.nonZeros
  have hrow (entry : KeyedRow α) (he : entry ∈ c.rows) :
      Ensures (do return (entry.1, ← f entry.2) : Except Error (KeyedRow α)) (R entry) :=
    (hf entry he).bind fun r hr => Ends.ok hr
  have hparts : Ensures (c.partitions.mapM fun p => p.mapM fun entry => do
      return (entry.1, ← f entry.2)) (List.Forall₂ (List.Forall₂ R) c.partitions) :=
    Ends.mapM fun p hp => Ends.mapM fun entry he => hrow entry (mem_rows_of_mem hp he)
  refine hparts.bind fun ps hps => Ends.ok ?_
  have hrows : List.Forall₂ R c.rows ps.flatten := List.rel_flatten hps
  change (ps.flatten.map _).sum = _
  rw [nonZeros]
  generalize c.rows = rows at hrows ⊢
  generalize ps.flatten = news at hrows ⊢
  induction hrows with
  | nil => rfl
  | cons h _ ih => rw [List.map_cons, List.map_cons, List.sum_cons, List.sum_cons, h, ih]

/-- The rows of a matrix have its count, whatever their keys are. -/
theorem Dense.sum_nonZeros (m : Dense α) (keys : List Key) (h : keys.length = m.nrow) :
    ((keys.zip (m.rows.map Cells.plain)).map fun entry => entry.2.nonZeros).sum = m.nonZeros := by
  have hcells : (keys.zip (m.rows.map Cells.plain)).map Prod.snd = m.rows.map Cells.plain :=
    List.map_snd_zip (by rw [List.length_map, m.length_rows, h])
  calc ((keys.zip (m.rows.map Cells.plain)).map fun entry => entry.2.nonZeros).sum
      = (((keys.zip (m.rows.map Cells.plain)).map Prod.snd).map Cells.nonZeros).sum := by
        rw [List.map_map]
        rfl
    _ = m.nonZeros := by
        rw [hcells, List.map_map]
        rfl

end Counting

/-! ## Cells of a keyed matrix -/

section Held

variable [Cell α] [Field α] [ExactCell α]

omit [Field α] [ExactCell α] in
theorem Cells.nonZeros_range (n : ℕ) (f : ℕ → α) :
    (plain ((List.range n).map f)).nonZeros =
      ∑ j ∈ Finset.range n, if Cell.isZero (f j) then 0 else 1 := by
  rw [nonZeros, List.countP_map]
  induction n with
  | zero => rfl
  | succ n ih =>
    rw [List.range_succ, List.countP_append, ih, Finset.sum_range_succ, List.countP_singleton]
    cases h : Cell.isZero (f n) <;> simp [h]

variable {h : Handle α} {A : KeyedMatrix α}

omit [Field α] [ExactCell α] in
theorem Handle.Holds.nonZeros_eq (hh : h.Holds A) : h.collection.nonZeros =
    ∑ v ∈ A.keys, ∑ j ∈ Finset.range A.ncol, if Cell.isZero (A.cell v j) then 0 else 1 := by
  obtain ⟨vs, hvs, hrows⟩ := hh.rows
  rw [Collection.nonZeros, hrows, List.map_map, ← hvs.toFinset, List.sum_toFinset _ hvs.nodup]
  refine congrArg List.sum (List.map_congr_left fun v _ => ?_)
  exact Cells.nonZeros_range A.ncol (A.cell v)

omit [Cell α] [Field α] [ExactCell α] in
theorem KeyedMatrix.Indexed.sum_keys {n : ℕ} (hA : A.Indexed n) (f : KeyValue → ℕ) :
    ∑ v ∈ A.keys, f v = ∑ i ∈ Finset.range n, f (.ofNat i) := by
  rw [hA.keys_eq, Finset.sum_image fun i _ j _ hij => KeyValue.ofNat_injective hij]

/-- A transposed matrix has the cells of the matrix at other places. -/
theorem Handle.transposed_nonZeros (hh : h.Holds A) {n : ℕ} (hA : A.Indexed n)
    (htype : h.collection.keyType.isInt = true) :
    Ensures (h.transposed n) fun g => g.collection.nonZeros = h.collection.nonZeros := by
  refine ((Handle.transposed_makes hh hA.within htype).mapBad fun _ _ => trivial).imp fun g hg => ?_
  have hcell : ∀ i ∈ Finset.range A.ncol, ∀ j ∈ Finset.range n,
      (A.transposed n).cell (.ofNat i) j = A.cell (.ofNat j) i := by
    intro i _ j hj
    change A.read (.ofNat j) (KeyValue.ofNat i).index = _
    rw [KeyValue.index_ofNat, KeyedMatrix.read_of_mem (hA.complete j (Finset.mem_range.1 hj))]
  calc g.collection.nonZeros
      = ∑ i ∈ Finset.range A.ncol, ∑ j ∈ Finset.range n,
          if Cell.isZero ((A.transposed n).cell (.ofNat i) j) then 0 else 1 := by
        rw [hg.1.nonZeros_eq, (KeyedMatrix.indexed_transposed n A).sum_keys]
        rfl
    _ = ∑ i ∈ Finset.range A.ncol, ∑ j ∈ Finset.range n,
          if Cell.isZero (A.cell (.ofNat j) i) then 0 else 1 :=
        Finset.sum_congr rfl fun i hi => Finset.sum_congr rfl fun j hj => by rw [hcell i hi j hj]
    _ = h.collection.nonZeros := by
        rw [Finset.sum_comm, hh.nonZeros_eq, hA.sum_keys]

end Held

/-! ## Scalars -/

/-- Scalars that stand for zero are those that are zero. -/
class ExactScalars (α : Type) [Field α] [Cell α] : Prop where
  eq_zero_iff {s : Scalar} {x : α} (h : Cell.ofScalar s = .ok x) : x = 0 ↔ s.isZero = true

instance : ExactScalars ℚ where
  eq_zero_iff {s x} h := by
    change (match s.rational? with
      | some q => Except.ok q
      | none => Except.error (Error.fault .type)) = _ at h
    cases hq : s.rational? with
    | none =>
      rw [hq] at h
      cases h
    | some q =>
      rw [hq] at h
      cases h
      unfold Scalar.rational? at hq
      unfold Scalar.isZero
      split at hq
      · next hs =>
        cases hq
        rw [hs]
        simp
      · cases hq

theorem UnaryOp.keepsNonZeros_scalar {op : ScalarOp} {s : Scalar}
    (h : (scalar op s : UnaryOp α).keepsNonZeros = .ok true) :
    (op = .times ∨ op = .divide) ∧ s.isZero = false ∧ s.isFinite = .ok true := by
  have hfactor (h : (if s.isZero then .ok false else s.isFinite : Except Error Bool) = .ok true) :
      s.isZero = false ∧ s.isFinite = .ok true := by
    cases hs : s.isZero with
    | true =>
      rw [hs] at h
      cases h
    | false =>
      rw [hs] at h
      exact ⟨rfl, h⟩
  cases op with
  | times => exact ⟨.inl rfl, hfactor h⟩
  | divide => exact ⟨.inr rfl, hfactor h⟩
  | plus | minus | minusReversed | divideReversed => cases h

theorem Scalar.isReal_of_isFinite {s : Scalar} {b : Bool} (h : s.isFinite = .ok b) :
    s.isReal = true := by
  cases s with
  | int | bool | float => rfl
  | absent | text => cases h

section Scaling

variable [Cell α] [Field α] [ExactCell α]

/-- Neither multiplication nor division by another number than zero turns a cell into a zero, or a
zero into another cell. -/
theorem ScalarOp.isZero_apply {op : ScalarOp} (hop : op = .times ∨ op = .divide) {x : α}
    (hx : x ≠ 0) (a : α) : Cell.isZero (op.apply a x) = Cell.isZero a := by
  rw [Bool.eq_iff_iff, ExactCell.isZero_iff, ExactCell.isZero_iff]
  rcases hop with rfl | rfl
  · change Cell.mul a x = 0 ↔ a = 0
    rw [ExactCell.mul_eq, mul_eq_zero, or_iff_left hx]
  · change Cell.div a x = 0 ↔ a = 0
    rw [ExactCell.div_eq a x hx, div_eq_zero_iff, or_iff_left hx]

variable [ExactScalars α]

theorem Cells.withScalar_nonZeros {op : ScalarOp} {s : Scalar}
    (h : (UnaryOp.scalar op s : UnaryOp α).keepsNonZeros = .ok true) {cells : Cells α}
    (hplain : cells.IsPlain) :
    Ensures (withScalar op s cells) fun r => r.nonZeros = cells.nonZeros := by
  obtain ⟨hop, hzero, hfinite⟩ := UnaryOp.keepsNonZeros_scalar h
  obtain ⟨row, rfl⟩ := hplain.exists_eq
  cases hx : (Cell.ofScalar s : Except Error α) with
  | error error =>
    have hreal := Scalar.isReal_of_isFinite hfinite
    cases s <;> simp only [Scalar.isReal, Bool.false_eq_true] at hreal <;>
      simp only [withScalar, hx] <;> exact Ends.error trivial
  | ok x =>
    have hne : x ≠ 0 := by
      rw [ne_eq, ExactScalars.eq_zero_iff hx, hzero]
      exact Bool.false_ne_true
    rw [withScalar_plain op (Scalar.isReal_of_isFinite hfinite) hx]
    refine Ends.ok ?_
    rw [nonZeros, nonZeros, List.countP_map]
    refine List.countP_congr fun a _ => ?_
    simp [ScalarOp.isZero_apply hop hne]

end Scaling

/-! ## Counted handles -/

section Counted

variable [Cell α]

/-- A handle of the shape of a schema with `v` cells that are not zero, which can be transposed if
its keys are integers. -/
structure Handle.Counted (h : Handle α) (s : Schema) (v : Nat) : Prop where
  shaped : h.Shaped s
  ncol : 0 ≤ s.ncol
  plain : h.Plain
  numbered : s.keyType.isInt = true → h.collection.Numbered s.nrow
  nonZeros : h.collection.nonZeros = v

namespace Handle.Counted

variable {h : Handle α} {s : Schema} {v : Nat} (hh : h.Counted s v)

include hh

theorem congr {t : Schema} (hnrow : s.nrow = t.nrow) (hncol : s.ncol = t.ncol)
    (htype : s.keyType.Specializes t.keyType) : h.Counted t v := by
  refine ⟨⟨?_, fun entry he => ?_, ?_, hh.shaped.partitions⟩, hncol ▸ hh.ncol, hh.plain, ?_,
    hh.nonZeros⟩
  · exact hh.shaped.ncol.trans hncol
  · exact (hh.shaped.width entry he).trans hncol
  · exact hh.shaped.keyType.trans htype
  · intro hint
    exact (hh.numbered (htype.isInt_eq.trans hint)).congr hnrow

theorem wellFormed (hint : s.keyType.isInt = true) : h.WellFormed :=
  hh.shaped.wellFormed hh.ncol hh.plain (hh.numbered hint)

variable [Field α] [ExactCell α]

/-- A transposition keeps the count of a handle that is keyed by its positions. -/
theorem transposed (hint : s.keyType.isInt = true) : Ensures (h.transposed s.nrow) fun g =>
    g.collection.nonZeros = v := by
  have hnumbered := hh.numbered hint
  have hformed := hh.wellFormed hint
  have hindexed := hformed.indexed hnumbered.keys
  have hcount := Handle.transposed_nonZeros hformed.holds_matrix hindexed
    (hh.shaped.keyType.isInt_eq.trans hint)
  rw [Int.toNat_of_nonneg hnumbered.nonneg] at hcount
  exact hcount.imp fun g hg => hg.trans hh.nonZeros

end Handle.Counted

end Counted

/-! ## Operators and executions -/

variable [Cell α] [Field α] [ExactCell α] [ExactScalars α]

/-- An operator that keeps counts keeps them exact. -/
theorem UnaryOp.kernel_counted {blocks : BlockCatalogue α} {call : Nat} {s : Schema}
    {op : UnaryOp α} (hkeeps : op.keepsNonZeros = .ok true) (hadm : op.admits s = .ok ())
    {kernel : Kernel α (Handle α)} (hk : op.kernel? blocks call (op.schema s) = some kernel)
    {h : Handle α} {v : Nat} (hh : h.Counted s v) :
    Ensures (kernel.run h) fun g => g.Counted (op.schema s) v := by
  have hshaped := UnaryOp.kernel_shaped hk hh.shaped
  have hplain := UnaryOp.kernel_plain (fun op' hop => by subst hop; cases op' <;> cases hkeeps) hk
    hh.plain
  have hnumbered (hint : s.keyType.isInt = true) := UnaryOp.kernel_numbered hadm
    (fun fn ncol keeps hop => by subst hop; cases hkeeps) hk hh.shaped (hh.numbered hint)
  cases op with
  | transpose =>
    cases hk
    have hint := admits_transpose_iff.1 hadm
    have hcount : Ensures (do h.transposed (← s.rows.count)) fun g => g.collection.nonZeros = v :=
      (Side.count_ensures _).bind fun n hn => hn ▸ hh.transposed hint
    exact (((hshaped.and hplain).and (hnumbered hint)).and hcount).imp
      fun g ⟨⟨⟨hg, hp⟩, hn⟩, hc⟩ => ⟨hg, (hh.numbered hint).nonneg, hp, fun _ => hn, hc⟩
  | scalar op x =>
    cases hk
    have hcount : Ensures (h.withScalar op x) fun g => g.collection.nonZeros = v :=
      (h.collection.mapRows_nonZeros fun entry he =>
        Cells.withScalar_nonZeros hkeeps (hh.plain entry he)).bind fun c hc =>
          Ends.ok (hc.trans hh.nonZeros)
    by_cases hint : s.keyType.isInt = true
    · exact (((hshaped.and hplain).and (hnumbered hint)).and hcount).imp
        fun g ⟨⟨⟨hg, hp⟩, hn⟩, hc⟩ => ⟨hg, hh.ncol, hp, fun _ => hn, hc⟩
    · exact ((hshaped.and hplain).and hcount).imp
        fun g ⟨⟨hg, hp⟩, hc⟩ => ⟨hg, hh.ncol, hp, fun h => absurd h hint, hc⟩
  | transposeAnyKey | leftMultiply => cases hk
  | selfGramian | rowRange | rightMultiply | mapBlock => cases hkeeps

namespace Expr

omit [Cell α] [Field α] [ExactCell α] [ExactScalars α] in
theorem nonZeroCount_unary {i : NodeId} {op : UnaryOp α} {a : Expr α} {count : NonZeroCount} :
    (unary i op a).nonZeroCount = .ok count ↔
      op.keepsNonZeros = .ok true ∧ a.nonZeroCount = .ok count := by
  rw [nonZeroCount]
  cases hkeeps : op.keepsNonZeros with
  | error error => exact ⟨nofun, nofun⟩
  | ok keeps =>
    cases keeps with
    | false => exact ⟨nofun, nofun⟩
    | true => exact ⟨fun h => ⟨rfl, h⟩, fun h => h.2⟩

/-- **Derived counts are right**: whatever is executed over counted leaves has as many cells that are
not zero as can be derived of it. -/
theorem exec_counted {blocks : BlockCatalogue α} {e : Expr α} (hadm : ∀ x ∈ e.walk, x.Admitted)
    (hleaves : ∀ i c v, checkpoint i c ∈ e.walk → c.nonZeros = .known v →
      c.rows.Counted c.schema v) {v : Nat} (hv : e.nonZeroCount = .ok (.known v)) (call : Nat) :
    Ensures (e.exec blocks call).result fun h => h.Counted e.schema v := by
  have hkeeps : Keeps blocks (fun x h => ∀ v, x.nonZeroCount = .ok (.known v) → h.Counted x.schema v)
      (fun _ => True) e.walk := by
    refine ⟨fun _ _ _ => trivial, fun i c hc v hv => ?_, ?_, ?_⟩
    · exact hleaves i c v hc (Except.ok.inj hv)
    · intro i op a hx call kernel hk h ha
      by_cases hcount : ∃ v, (Expr.unary i op a).nonZeroCount = .ok (.known v)
      · obtain ⟨v, hv⟩ := hcount
        obtain ⟨hop, hinput⟩ := nonZeroCount_unary.1 hv
        refine (UnaryOp.kernel_counted hop (hadm _ hx) hk (ha v hinput)).imp fun g hg w hw => ?_
        cases hv.symm.trans hw
        exact hg
      · exact (Ends.any _).imp fun g _ v hv => absurd ⟨v, hv⟩ hcount
    · intro i op a b hx kernel hk g h ha hb
      exact (Ends.any _).imp fun _ _ v hv => nomatch hv
  exact (exec_ends hkeeps call).imp fun h hh => hh v hv

end Expr

end RowAlgebra
