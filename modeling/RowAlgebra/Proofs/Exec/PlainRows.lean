import RowAlgebra.Proofs.Exec.Shapes

/-!
# Where mixed rows come from

Leaves have plain rows, and every operator but one makes plain rows of plain ones: only an absent
scalar, in a row without cells, makes a mixed row (`UnaryOp.kernel_plain`, `BinaryOp.kernel_plain`).
So each row that is met in an execution is plain, or there is an absent scalar in the expression
(`Expr.exec_meets`).
-/

namespace RowAlgebra

variable {α : Type}

/-! ## Single rows -/

namespace Cells

def IsPlain : Cells α → Prop
  | plain _ => True
  | mixed _ => False

theorem IsPlain.exists_eq {cells : Cells α} (h : cells.IsPlain) : ∃ row, cells = plain row := by
  cases cells with
  | plain row => exact ⟨row, rfl⟩
  | mixed row => cases h

variable [Cell α]

theorem withScalar_isPlain (op : ScalarOp) {s : Scalar} (hs : s ≠ .absent) {cells : Cells α}
    (h : cells.IsPlain) : Ensures (withScalar op s cells) IsPlain := by
  obtain ⟨row, rfl⟩ := h.exists_eq
  cases s with
  | absent => exact absurd rfl hs
  | text t => exact Ends.error trivial
  | int | bool | float => exact (Ends.any _).bind fun _ _ => Ends.ok trivial

theorem combine_isPlain (op : CellOp) {a b : Cells α} (ha : a.IsPlain) (hb : b.IsPlain) :
    Ensures (combine op a b) IsPlain := by
  obtain ⟨x, rfl⟩ := ha.exists_eq
  obtain ⟨y, rfl⟩ := hb.exists_eq
  exact (Ends.any _).bind fun _ _ => Ends.ok trivial

theorem againstRows_isPlain (m : Dense α) {cells : Cells α} (h : cells.IsPlain) :
    Ensures (againstRows m cells) IsPlain := by
  obtain ⟨row, rfl⟩ := h.exists_eq
  unfold againstRows
  split
  · exact Ends.error trivial
  · exact Ends.ok trivial

end Cells

/-! ## Operators -/

namespace Handle

/-- Whether all rows are plain. -/
def Plain (h : Handle α) : Prop :=
  ∀ entry ∈ h.collection.rows, entry.2.IsPlain

theorem IsSmall.plain {shape : Shape} {h : Handle α} (hs : IsSmall shape h) : h.Plain := by
  obtain ⟨m, k, -, rfl⟩ := hs
  intro entry he
  have hk : 0 < max 1 (min k m.nrow) := by omega
  have hmem : entry ∈ numbered 0 m.rows := Collection.rows_spread (numbered 0 m.rows) hk .int ▸ he
  exact numbered_cells (P := Cells.IsPlain) (fun _ _ => trivial) entry hmem

theorem Plain.rowRange {a : Handle α} (ha : a.Plain) (start stop : Int) (call : Nat) :
    (a.rowRange start stop call).Plain := by
  refine Collection.settle_cells (P := Cells.IsPlain) call fun entry he => ?_
  rw [selected_rows] at he
  obtain ⟨old, hold, rfl⟩ := List.mem_map.1 he
  exact ha old (List.mem_of_mem_filter hold)

variable [Cell α] {a b : Handle α}

theorem withScalar_plain (ha : a.Plain) (op : ScalarOp) {s : Scalar} (hs : s ≠ .absent) :
    Ensures (a.withScalar op s) Plain :=
  (a.collection.mapRows_cells (P := Cells.IsPlain) fun entry he =>
    Cells.withScalar_isPlain op hs (ha entry he)).bind fun _ hc => Ends.ok hc.2.2

theorem timesDense_plain (ha : a.Plain) (m : Dense α) : Ensures (a.timesDense m) Plain :=
  (a.collection.mapRows_cells (P := Cells.IsPlain) fun entry he =>
    Cells.againstRows_isPlain _ (ha entry he)).bind fun _ hc => Ends.ok hc.2.2

theorem timesTransposed_plain (ha : a.Plain) (b : Handle α) (n : Int) :
    Ensures (a.timesTransposed b n) Plain :=
  (Ends.any _).bind fun m _ => (a.collection.mapRows_cells (P := Cells.IsPlain) fun entry he =>
    Cells.againstRows_isPlain m (ha entry he)).bind fun _ hc => Ends.ok hc.2.2

theorem combine_plain (ha : a.Plain) (hb : b.Plain) (op : CellOp) (ncol : Int) :
    Ensures (a.combine op b ncol) Plain :=
  (combine_cells (P := Cells.IsPlain) (Q := Cells.IsPlain) (T := Cells.IsPlain) op ha hb
    (fun _ _ => ⟨trivial, trivial⟩) fun _ _ => Cells.combine_isPlain op).imp
      fun _ hg => hg.2.2.2

/-- Whatever a block function does, its rows are turned into plain ones. -/
theorem mapBlock_plain (f : BlockFunction α) (contract : BlockContract) (call : Nat)
    (a : Handle α) : Ensures (mapBlock f contract call a) Plain := by
  have happly (p : List (KeyedRow α)) :
      Ensures (applyBlock f contract p) fun q => ∀ entry ∈ q, entry.2.IsPlain := by
    unfold applyBlock
    split
    · exact Ends.ok nofun
    · refine (Ends.any _).bind fun block _ => (Ends.any _).bind fun result _ =>
        (Ends.any _).bind fun m _ => ?_
      unfold BlockContract.enforce
      dsimp only
      split
      · exact Ends.error trivial
      · split
        · exact Ends.error trivial
        · refine Ends.ok fun entry he => ?_
          obtain ⟨row, -, hrow⟩ := List.mem_map.1 (List.of_mem_zip he).2
          exact hrow ▸ trivial
  exact (a.collection.mapPartitions_cells (P := Cells.IsPlain) fun p _ => happly p).bind
    fun c hc => Ends.ok (Collection.settle_cells (P := Cells.IsPlain) call hc.2.2)

end Handle

variable [Cell α]

theorem UnaryOp.kernel_plain {blocks : BlockCatalogue α} {call : Nat} {out : Schema}
    {op : UnaryOp α} (hop : ∀ op', op ≠ .scalar op' .absent) {kernel : Kernel α (Handle α)}
    (h : op.kernel? blocks call out = some kernel) {a : Handle α} (ha : a.Plain) :
    Ensures (kernel.run a) Handle.Plain := by
  cases op <;> cases h
  case transpose =>
    exact (Ends.any _).bind fun n _ => (a.transposed_isSmall n).imp fun _ hs => hs.plain
  case selfGramian =>
    exact (Ends.any _).bind fun shape _ => (a.gramian_isSmall shape).imp fun _ hs => hs.plain
  case scalar op' s =>
    refine Handle.withScalar_plain ha op' ?_
    rintro rfl
    exact hop op' rfl
  case rowRange start stop => exact Ends.ok (ha.rowRange start stop call)
  case rightMultiply m => exact Handle.timesDense_plain ha m
  case mapBlock fn ncol keepsKeys => exact Handle.mapBlock_plain (blocks fn) _ call a

theorem BinaryOp.kernel_plain {out : Schema} {left right : Tag} {op : BinaryOp}
    {kernel : Kernel α (Handle α × Handle α)} (h : op.kernel? out left right = some kernel)
    {a b : Handle α} (ha : a.Plain) (hb : b.Plain) :
    Ensures (kernel.run (a, b)) Handle.Plain := by
  cases op <;> cases h
  case matMulTransA =>
    exact (Ends.any _).bind fun shape _ =>
      (a.transposedTimes_isSmall b shape _).imp fun _ hs => hs.plain
  case matMulTransB => exact (Ends.any _).bind fun n _ => Handle.timesTransposed_plain ha b n
  case elementwise op => exact (Ends.any _).bind fun n _ => Handle.combine_plain ha hb op n

namespace Expr

/-- The rows that may be met in an expression over plain leaves: mixed ones are among them only if
there is an absent scalar. -/
def Meets (e : Expr α) (cells : Cells α) : Prop :=
  cells.IsPlain ∨ ∃ op, .scalar op .absent ∈ e.unaries

omit [Cell α] in
theorem Meets.mono {e e' : Expr α} {cells : Cells α} (h : e.Meets cells)
    (hs : ∀ op, .scalar op .absent ∈ e.unaries → .scalar op .absent ∈ e'.unaries) :
    e'.Meets cells :=
  h.imp_right fun ⟨op, hop⟩ => ⟨op, hs op hop⟩

theorem exec_meets {blocks : BlockCatalogue α} {e : Expr α}
    (hleaves : ∀ i c, checkpoint i c ∈ e.walk → c.rows.Plain) (call : Nat) :
    Ensures (e.exec blocks call).result fun h => ∀ entry ∈ h.collection.rows, e.Meets entry.2 := by
  by_cases habsent : ∃ op, .scalar op .absent ∈ e.unaries
  · exact (Ends.any _).imp fun h _ entry _ => .inr habsent
  · have hkeeps : Keeps blocks (fun _ h => h.Plain) (fun _ => True) e.walk := by
      refine ⟨fun _ _ _ => trivial, hleaves, fun i op a hx call kernel hk h ha => ?_,
        fun _ _ _ _ _ kernel hk g h hg hh => BinaryOp.kernel_plain hk hg hh⟩
      refine UnaryOp.kernel_plain (fun op' hop => habsent ⟨op', ?_⟩) hk ha
      exact hop ▸ mem_unaries_of_mem_walk hx
    exact (exec_ends hkeeps call).imp fun h hh entry he => .inl (hh entry he)

end Expr

end RowAlgebra
