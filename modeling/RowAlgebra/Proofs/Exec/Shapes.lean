import RowAlgebra.Proofs.Exec.Layout
import RowAlgebra.Proofs.Exec.Rows
import RowAlgebra.Proofs.Expr.Admission

/-!
# Shapes of handles

A handle is `Shaped` as a schema says if it has its columns and its type of keys, or one derived
from it, each row has one cell for each column, and there is at least one partition. Every operator
that admits its inputs carries this from them to its result, whatever the keys are and whatever
block functions do (`UnaryOp.kernel_shaped`, `BinaryOp.kernel_shaped`), so it holds of all that is
executed (`Expr.exec_shaped`). Derived types come from leaves only (`Expr.exec_plainKeys`).
-/

namespace RowAlgebra

variable {α : Type}

/-- A handle with the columns and the type of keys of a schema, and at least one partition. -/
structure Handle.Shaped (h : Handle α) (s : Schema) : Prop where
  ncol : h.ncol = s.ncol
  width : ∀ entry ∈ h.collection.rows, (entry.2.length : Int) = s.ncol
  keyType : h.collection.keyType.Specializes s.keyType
  partitions : h.collection.partitions ≠ []

/-- The rows of a shaped handle may become those of a schema with the same type of keys. -/
theorem Handle.Shaped.withColumns {h : Handle α} {s t : Schema} (hs : h.Shaped s)
    (ht : t.keyType = s.keyType) {c : Collection α} (htype : c.keyType = h.collection.keyType)
    (hpartitions : c.partitions.length = h.collection.partitions.length) {n : Int} (hn : n = t.ncol)
    (hwidth : ∀ entry ∈ c.rows, (entry.2.length : Int) = n) : Shaped ⟨c, n⟩ t := by
  refine ⟨hn, fun entry he => (hwidth entry he).trans hn, ?_, ?_⟩
  · rw [htype, ht]
    exact hs.keyType
  · rw [← List.length_pos_iff, hpartitions, List.length_pos_iff]
    exact hs.partitions

/-! ## Single rows -/

theorem mapM_length {β γ : Type} (f : β → Except Error γ) (l : List β) :
    Ensures (l.mapM f) fun l' => l'.length = l.length :=
  (Ends.mapM fun b _ => Ends.any (f b)).imp fun _ h => h.length_eq.symm

namespace Cells

variable [Cell α]

theorem withScalar_length (op : ScalarOp) (s : Scalar) (cells : Cells α) :
    Ensures (withScalar op s cells) fun r => r.length = cells.length := by
  unfold withScalar
  split
  · exact (mapM_length _ _).bind fun _ h => Ends.ok h
  · exact Ends.error trivial
  · exact Ends.ok rfl
  · exact (Ends.any _).bind fun _ _ => Ends.ok (List.length_map _)

/-- Rows of equal length meet cell by cell. -/
theorem combine_length (op : CellOp) {a b : Cells α} (h : a.length = b.length) :
    Ensures (combine op a b) fun r => r.length = a.length := by
  unfold combine
  split
  · rw [Row.combine, Row.paired_ok h]
    refine Ends.ok ?_
    simpa [length] using h.le
  · have hscalars : a.toScalars.length = b.toScalars.length := by
      rw [length_toScalars, length_toScalars, h]
    rw [Row.paired_ok hscalars]
    refine (mapM_length _ _).bind fun row hrow => Ends.ok ?_
    change row.length = _
    rw [hrow, List.length_zip, ← hscalars, Nat.min_self, length_toScalars]

theorem againstRows_length (m : Dense α) (cells : Cells α) :
    Ensures (againstRows m cells) fun r => r.length = m.nrow := by
  unfold againstRows
  split
  · exact Ends.error trivial
  · split
    · exact Ends.ok ((List.length_map _).trans m.length_rows)
    · exact (mapM_length _ _).bind fun _ h => Ends.ok (h.trans m.length_rows)

end Cells

/-! ## Rows of collections -/

namespace Collection

theorem exists_of_find? {c : Collection α} {k : Key} {cells : Cells α} (h : c.find? k = some cells) :
    ∃ entry ∈ c.rows, entry.2 = cells := by
  unfold find? at h
  generalize c.rows = rows at h
  induction rows with
  | nil => cases h
  | cons entry rows ih =>
    rw [findIn?] at h
    split at h
    · next found hfound =>
      obtain ⟨other, ho, hcells⟩ := ih (hfound.trans h)
      exact ⟨other, List.mem_cons_of_mem _ ho, hcells⟩
    · split at h
      · exact ⟨entry, List.mem_cons_self, Option.some.inj h⟩
      · cases h

section Kinds

variable {P : Cells α → Prop}

/-- What computes partitions with rows of one kind makes a collection of such rows. -/
theorem mapPartitions_cells {f : List (KeyedRow α) → Except Error (List (KeyedRow α))}
    (c : Collection α)
    (hf : ∀ p ∈ c.partitions, Ensures (f p) fun q => ∀ entry ∈ q, P entry.2) :
    Ensures (c.mapPartitions f) fun d => d.keyType = c.keyType ∧
      d.partitions.length = c.partitions.length ∧ ∀ entry ∈ d.rows, P entry.2 := by
  refine (Ends.mapM hf).bind fun ps hps => Ends.ok ⟨rfl, hps.length_eq.symm, fun entry he => ?_⟩
  obtain ⟨q, hq, he⟩ := List.mem_flatten.1 he
  obtain ⟨i, hi, rfl⟩ := List.getElem_of_mem hq
  exact hps.get (hps.length_eq.symm ▸ hi) hi entry he

theorem mapM_rows_cells {f : KeyedRow α → Except Error (Cells α)} {p : List (KeyedRow α)}
    (hf : ∀ entry ∈ p, Ensures (f entry) P) :
    Ensures (p.mapM fun entry => do return (entry.1, ← f entry)) fun q =>
      ∀ entry ∈ q, P entry.2 := by
  have hrow : ∀ entry ∈ p, Ensures (do return (entry.1, ← f entry) : Except Error (KeyedRow α))
      fun new => P new.2 :=
    fun entry he => (hf entry he).bind fun cells hcells => Ends.ok hcells
  refine (Ends.mapM hrow).imp fun q hq entry he => ?_
  obtain ⟨i, hi, rfl⟩ := List.getElem_of_mem he
  exact hq.get (hq.length_eq.symm ▸ hi) hi

theorem mapRows_cells {f : Cells α → Except Error (Cells α)} (c : Collection α)
    (hf : ∀ entry ∈ c.rows, Ensures (f entry.2) P) :
    Ensures (c.mapRows f) fun d => d.keyType = c.keyType ∧
      d.partitions.length = c.partitions.length ∧ ∀ entry ∈ d.rows, P entry.2 :=
  c.mapPartitions_cells fun _ hp =>
    mapM_rows_cells fun entry he => hf entry (mem_rows_of_mem hp he)

theorem settleFrom_length (call position : Nat) (ps : List (List (KeyedRow α))) :
    (settleFrom call position ps).length = ps.length := by
  induction ps generalizing position with
  | nil => rfl
  | cons p ps ih => rw [settleFrom, List.length_cons, List.length_cons, ih]

/-- Settling keys leaves the cells alone. -/
theorem settleFrom_cells (call position : Nat) (ps : List (List (KeyedRow α))) :
    (settleFrom call position ps).flatten.map Prod.snd = ps.flatten.map Prod.snd := by
  induction ps generalizing position with
  | nil => rfl
  | cons p ps ih =>
    rw [settleFrom, List.flatten_cons, List.flatten_cons, List.map_append, List.map_append, ih,
      List.map_map]
    congr 1
    refine List.ext_getElem (by simp) fun i h₁ h₂ => ?_
    simp

theorem settle_cells {c : Collection α} (call : Nat) (h : ∀ entry ∈ c.rows, P entry.2) :
    ∀ entry ∈ (c.settle call).rows, P entry.2 := by
  intro entry he
  have hmem : entry.2 ∈ c.rows.map Prod.snd :=
    settleFrom_cells call 0 c.partitions ▸ List.mem_map_of_mem (f := Prod.snd) he
  obtain ⟨old, hold, hcells⟩ := List.mem_map.1 hmem
  rw [← hcells]
  exact h old hold

end Kinds

end Collection

/-! ## Operators -/

namespace Handle

theorem numbered_cells {P : Cells α → Prop} {first : Nat} {rows : List (Row α)}
    (h : ∀ row ∈ rows, P (.plain row)) : ∀ entry ∈ numbered first rows, P entry.2 := by
  induction rows generalizing first with
  | nil => nofun
  | cons row rows ih =>
    obtain ⟨hrow, hrows⟩ := List.forall_mem_cons.1 h
    exact List.forall_mem_cons.2 ⟨hrow, ih hrows⟩

/-- A small result has the columns of its matrix, and its rows are keyed by integers. -/
theorem IsSmall.shaped {shape : Shape} {h : Handle α} (hs : IsSmall shape h) {s : Schema}
    (hncol : shape.ncol = s.ncol) (htype : .int = s.keyType) : h.Shaped s := by
  obtain ⟨m, k, rfl, rfl⟩ := hs
  have hk : 0 < max 1 (min k m.nrow) := by omega
  refine ⟨hncol, fun entry he => ?_, .inl htype, Collection.partitions_spread_ne_nil _ hk _⟩
  have hmem : entry ∈ numbered 0 m.rows := Collection.rows_spread (numbered 0 m.rows) hk .int ▸ he
  have hwidth := numbered_cells (P := fun cells => cells.length = m.ncol)
    (fun row => Dense.length_of_mem_rows) entry hmem
  exact (congrArg Int.ofNat hwidth).trans hncol

variable [Cell α] {a b : Handle α} {l r s : Schema}

theorem withScalar_shaped (ha : a.Shaped s) (op : ScalarOp) (x : Scalar) :
    Ensures (a.withScalar op x) (Shaped · s) := by
  refine (a.collection.mapRows_cells (P := fun cells => (cells.length : Int) = a.ncol)
    fun entry he => ?_).bind fun c hc => Ends.ok (ha.withColumns rfl hc.1 hc.2.1 ha.ncol hc.2.2)
  refine (Cells.withScalar_length op x entry.2).imp fun r hr => ?_
  rw [hr, ha.width entry he, ha.ncol]

theorem timesDense_shaped (ha : a.Shaped s) (m : Dense α) {t : Schema} (ht : t.keyType = s.keyType)
    (hncol : (m.ncol : Int) = t.ncol) : Ensures (a.timesDense m) (Shaped · t) := by
  refine (a.collection.mapRows_cells (P := fun cells => (cells.length : Int) = m.ncol)
    fun entry _ => ?_).bind fun c hc => Ends.ok (ha.withColumns ht hc.1 hc.2.1 hncol hc.2.2)
  exact (Cells.againstRows_length _ entry.2).imp fun r hr => congrArg Int.ofNat hr

theorem timesTransposed_shaped (ha : a.Shaped s) (b : Handle α) {n : Int} {t : Schema}
    (ht : t.keyType = s.keyType) (hn : n = t.ncol) :
    Ensures (a.timesTransposed b n) (Shaped · t) := by
  refine (b.collect_shape n).bind fun m hm => ?_
  refine (a.collection.mapRows_cells (P := fun cells => (cells.length : Int) = n)
    fun entry _ => ?_).bind fun c hc => Ends.ok (ha.withColumns ht hc.1 hc.2.1 hn hc.2.2)
  refine (Cells.againstRows_length m entry.2).imp fun r hr => ?_
  rw [hr]
  exact congrArg Shape.nrow hm

omit [Cell α] in
theorem rowRange_shaped (ha : a.Shaped s) (start stop : Int) (call : Nat) {t : Schema}
    (ht : t.keyType = s.keyType) (hncol : s.ncol = t.ncol) :
    (a.rowRange start stop call).Shaped t := by
  refine ha.withColumns (c := (selected a.collection start stop).settle call) ht rfl ?_
    (ha.ncol.trans hncol)
    (Collection.settle_cells (P := fun cells => (cells.length : Int) = a.ncol) call fun entry he => ?_)
  · exact (Collection.settleFrom_length ..).trans (List.length_map _)
  · rw [selected_rows] at he
    obtain ⟨old, hold, rfl⟩ := List.mem_map.1 he
    rw [ha.width old (List.mem_of_mem_filter hold), ha.ncol]

omit [Cell α] in
theorem enforce_width {contract : BlockContract} (result : BlockResult (Dense α)) :
    Ensures (contract.enforce result) fun q =>
      ∀ entry ∈ q, (entry.2.length : Int) = contract.ncol := by
  unfold BlockContract.enforce
  dsimp only
  split
  · exact Ends.error trivial
  · next hshape =>
    split
    · exact Ends.error trivial
    · refine Ends.ok fun entry he => ?_
      have hncol : (result.block.ncol : Int) = contract.ncol :=
        congrArg Shape.ncol (not_not.1 (not_or.1 hshape).1)
      obtain ⟨row, hrow, hcells⟩ := List.mem_map.1 (List.of_mem_zip he).2
      rw [← hcells, ← hncol]
      exact congrArg Int.ofNat (Dense.length_of_mem_rows hrow)

theorem applyBlock_width (f : BlockFunction α) (contract : BlockContract) (p : List (KeyedRow α)) :
    Ensures (applyBlock f contract p) fun q =>
      ∀ entry ∈ q, (entry.2.length : Int) = contract.ncol := by
  unfold applyBlock
  split
  · exact Ends.ok nofun
  · exact (Ends.any _).bind fun block _ => (Ends.any _).bind fun result _ =>
      (Ends.any _).bind fun m _ => enforce_width ⟨result.keys, m, result.handed⟩

/-- Whatever a block function does, its rows are as wide as it has promised. -/
theorem mapBlock_shaped (ha : a.Shaped s) (f : BlockFunction α) (contract : BlockContract)
    (call : Nat) {t : Schema} (ht : t.keyType = s.keyType) (hncol : contract.ncol = t.ncol) :
    Ensures (mapBlock f contract call a) (Shaped · t) := by
  let P : Cells α → Prop := fun cells => (cells.length : Int) = contract.ncol
  refine (a.collection.mapPartitions_cells (P := P) fun p _ => applyBlock_width f contract p).bind
    fun c hc => Ends.ok (ha.withColumns (c := c.settle call) ht hc.1 ?_ hncol
      (Collection.settle_cells (P := P) call hc.2.2))
  exact (Collection.settleFrom_length ..).trans hc.2.1

/-- Each row of the left operand, and each one that only the right operand has, meets a row of the
other side or zeros. -/
theorem combine_cells {P Q T : Cells α → Prop} (op : CellOp) {ncol : Int}
    (ha : ∀ entry ∈ a.collection.rows, P entry.2) (hb : ∀ entry ∈ b.collection.rows, Q entry.2)
    (hzero : ∀ n : Nat, (n : Int) = ncol →
      P (.plain (List.replicate n Cell.zero)) ∧ Q (.plain (List.replicate n Cell.zero)))
    (hmeet : ∀ x y, P x → Q y → Ensures (Cells.combine op x y) T) :
    Ensures (a.combine op b ncol) fun g => g.ncol = ncol ∧
      g.collection.keyType = a.collection.keyType ∧
      (a.collection.partitions ≠ [] → g.collection.partitions ≠ []) ∧
      ∀ entry ∈ g.collection.rows, T entry.2 := by
  unfold combine
  refine (Dense.sides_ensures 1 ncol).bind fun sides hsides => ?_
  obtain ⟨hleft, hright⟩ := hzero sides.2 hsides.2
  let zeroRow : Cells α := .plain (List.replicate sides.2 Cell.zero)
  have hfound : ∀ k, Q ((b.collection.index.find? k).getD zeroRow) := by
    intro k
    rw [Collection.find?_index]
    cases hf : b.collection.find? k with
    | none => exact hright
    | some cells =>
      obtain ⟨entry, he, rfl⟩ := Collection.exists_of_find? hf
      exact hb entry he
  refine Ends.bind (a.collection.mapPartitions_cells (P := T) fun p hp =>
    Collection.mapM_rows_cells fun entry he => hmeet _ _
      (ha entry (Collection.mem_rows_of_mem hp he)) (hfound entry.1)) fun merged hmerged => ?_
  refine Ends.bind (Collection.mapM_rows_cells (P := T) fun entry he => hmeet _ _ hleft
    (hb entry (List.mem_of_mem_filter he))) fun missing hmissing => ?_
  have hpartitions (h : a.collection.partitions ≠ []) : merged.partitions ≠ [] := by
    rwa [← List.length_pos_iff, hmerged.2.1, List.length_pos_iff]
  split
  · exact Ends.ok ⟨rfl, hmerged.1, hpartitions, hmerged.2.2⟩
  · have happend := (appendToLast_ends missing merged.partitions).mapBad fun _ _ => trivial
    refine happend.bind fun ps hps => Ends.ok ⟨rfl, hmerged.1, fun _ => hps.1, fun entry he => ?_⟩
    have hmem : entry ∈ merged.rows ++ missing := hps.2 ▸ (he : entry ∈ ps.flatten)
    exact (List.mem_append.1 hmem).elim (hmerged.2.2 entry) (hmissing entry)

/-- Rows of both operands are equally wide, and so is a row of zeros. -/
theorem combine_shaped (ha : a.Shaped l) (hb : b.Shaped r) (hfit : l.ncol = r.ncol) (op : CellOp)
    {t : Schema} (ht : t.keyType = l.keyType) (hncol : l.ncol = t.ncol) :
    Ensures (a.combine op b l.ncol) (Shaped · t) := by
  let P : Cells α → Prop := fun cells => (cells.length : Int) = l.ncol
  have hzero (n : Nat) (hn : (n : Int) = l.ncol) : P (.plain (List.replicate n Cell.zero)) :=
    (congrArg Int.ofNat List.length_replicate).trans hn
  have hrows := combine_cells (P := P) (Q := P) (T := P) op ha.width
    (fun entry he => (hb.width entry he).trans hfit.symm) (fun n hn => ⟨hzero n hn, hzero n hn⟩)
    fun x y hx hy => (Cells.combine_length op (Int.ofNat.inj (hx.trans hy.symm))).imp
      fun cells hcells => (congrArg Int.ofNat hcells).trans hx
  refine hrows.imp fun g hg => ⟨hg.1.trans hncol, fun entry he => ?_, ?_, hg.2.2.1 ha.partitions⟩
  · exact (hg.2.2.2 entry he).trans hncol
  · rw [hg.2.1, ht]
    exact ha.keyType

end Handle

/-! ## Whole executions -/

variable [Cell α]

theorem UnaryOp.kernel_shaped {blocks : BlockCatalogue α} {call : Nat} {s : Schema}
    {op : UnaryOp α} {kernel : Kernel α (Handle α)}
    (h : op.kernel? blocks call (op.schema s) = some kernel) {a : Handle α} (ha : a.Shaped s) :
    Ensures (kernel.run a) (Handle.Shaped · (op.schema s)) := by
  cases op <;> cases h
  case transpose => exact (Side.count_ensures _).bind fun n hn =>
      (a.transposed_isSmall n).imp fun _ hs => hs.shaped hn rfl
  case selfGramian =>
    exact (Schema.shape_ensures _).bind fun shape hshape =>
      (a.gramian_isSmall shape).imp fun _ hs => hs.shaped (congrArg Shape.ncol hshape) rfl
  case scalar op x => exact Handle.withScalar_shaped ha op x
  case rowRange start stop => exact Ends.ok (Handle.rowRange_shaped ha start stop _ rfl rfl)
  case rightMultiply m => exact Handle.timesDense_shaped ha m rfl rfl
  case mapBlock fn ncol keepsKeys => exact Handle.mapBlock_shaped ha (blocks fn) _ call rfl rfl

theorem BinaryOp.kernel_shaped {l r : Schema} {op : BinaryOp} (hadm : op.admits l r = .ok ())
    {kernel : Kernel α (Handle α × Handle α)}
    (h : op.kernel? (op.schema l r) l.tag r.tag = some kernel) {a b : Handle α} (ha : a.Shaped l)
    (hb : b.Shaped r) : Ensures (kernel.run (a, b)) (Handle.Shaped · (op.schema l r)) := by
  cases op <;> cases h
  case matMulTransA =>
    exact (Schema.shape_ensures _).bind fun shape hshape =>
      (a.transposedTimes_isSmall b shape _).imp fun _ hs => hs.shaped (congrArg Shape.ncol hshape) rfl
  case matMulTransB =>
    exact (Side.count_ensures _).bind fun n hn => Handle.timesTransposed_shaped ha b rfl hn
  case elementwise op =>
    obtain ⟨⟨shape, hl, hr⟩, -⟩ := admits_elementwise_iff.1 hadm
    have hfit : l.columns = r.columns :=
      (Schema.shape_eq_ok_iff.1 hl).2.trans (Schema.shape_eq_ok_iff.1 hr).2.symm
    refine (Side.count_ensures _).bind fun n hn => ?_
    subst hn
    exact Handle.combine_shaped ha hb (congrArg Side.length hfit) op rfl rfl

/-- Whatever is executed is shaped as its schema says, if its leaves are. -/
theorem Expr.exec_shaped {blocks : BlockCatalogue α} {e : Expr α}
    (hadm : ∀ x ∈ e.walk, x.Admitted)
    (hleaves : ∀ i c, checkpoint i c ∈ e.walk → c.rows.Shaped c.schema) (call : Nat) :
    Ensures (e.exec blocks call).result (Handle.Shaped · e.schema) := by
  have hkeeps : Keeps blocks (fun e h => h.Shaped e.schema) (fun _ => True) e.walk :=
    ⟨fun _ _ _ => trivial, hleaves, fun _ _ _ _ _ _ hk _ ha => UnaryOp.kernel_shaped hk ha,
      fun _ _ _ _ hx _ hk _ _ ha hb => BinaryOp.kernel_shaped (hadm _ hx) hk ha hb⟩
  exact exec_ends hkeeps call

/-! ## Types of keys -/

namespace Handle

/-- Where keys have come through an operator: they are those of its input, or positions. -/
def KeysFrom (a g : Handle α) : Prop :=
  g.collection.keyType = .int ∨ g.collection.keyType = a.collection.keyType

omit [Cell α] in
theorem IsSmall.keysFrom {shape : Shape} {a g : Handle α} (hg : IsSmall shape g) : a.KeysFrom g := by
  obtain ⟨m, k, -, rfl⟩ := hg
  exact .inl rfl

omit [Cell α] in
theorem keysFrom_mapRows (a : Handle α) (f : Cells α → Except Error (Cells α)) (n : Int) :
    Ensures (do return ⟨← a.collection.mapRows f, n⟩) a.KeysFrom :=
  (a.collection.mapRows_cells (P := fun _ => True) fun _ _ => Ends.any _).bind
    fun _ hc => Ends.ok (.inr hc.1)

end Handle

theorem UnaryOp.kernel_keysFrom {blocks : BlockCatalogue α} {call : Nat} {out : Schema}
    {op : UnaryOp α} {kernel : Kernel α (Handle α)} (h : op.kernel? blocks call out = some kernel)
    (a : Handle α) : Ensures (kernel.run a) a.KeysFrom := by
  cases op <;> cases h
  case transpose =>
    exact (Ends.any _).bind fun n _ => (a.transposed_isSmall n).imp fun _ hs => hs.keysFrom
  case selfGramian =>
    exact (Ends.any _).bind fun shape _ => (a.gramian_isSmall shape).imp fun _ hs => hs.keysFrom
  case scalar op x => exact a.keysFrom_mapRows _ a.ncol
  case rowRange start stop => exact Ends.ok (.inr rfl)
  case rightMultiply m => exact a.keysFrom_mapRows _ m.ncol
  case mapBlock fn ncol keepsKeys =>
    exact (a.collection.mapPartitions_cells (P := fun _ => True)
      fun _ _ => (Ends.any _).imp fun _ _ _ _ => trivial).bind fun _ hc => Ends.ok (.inr hc.1)

theorem BinaryOp.kernel_keysFrom {out : Schema} {left right : Tag} {op : BinaryOp}
    {kernel : Kernel α (Handle α × Handle α)} (h : op.kernel? out left right = some kernel)
    (a b : Handle α) : Ensures (kernel.run (a, b)) a.KeysFrom := by
  cases op <;> cases h
  case matMulTransA =>
    exact (Ends.any _).bind fun shape _ =>
      (a.transposedTimes_isSmall b shape _).imp fun _ hs => hs.keysFrom
  case matMulTransB =>
    exact (Ends.any _).bind fun n _ => (Ends.any _).bind fun m _ => a.keysFrom_mapRows _ n
  case elementwise op =>
    exact (Ends.any _).bind fun n _ => (Handle.combine_cells (P := fun _ => True)
      (Q := fun _ => True) (T := fun _ => True) op (fun _ _ => trivial) (fun _ _ => trivial)
      (fun _ _ => ⟨trivial, trivial⟩) fun _ _ _ _ => Ends.any _).imp fun _ hg => .inr hg.2.1

/-- No keys are of a class of their own unless those of a leaf are. -/
theorem Expr.exec_plainKeys {blocks : BlockCatalogue α} {e : Expr α}
    (hleaves : ∀ i c, checkpoint i c ∈ e.walk → c.rows.collection.keyType.isDerived = false)
    (call : Nat) :
    Ensures (e.exec blocks call).result fun g => g.collection.keyType.isDerived = false := by
  have hfrom {a g : Handle α} (ha : a.collection.keyType.isDerived = false) (hg : a.KeysFrom g) :
      g.collection.keyType.isDerived = false := by
    rcases hg with h | h
    · rw [h]
      rfl
    · rw [h]
      exact ha
  have hkeeps : Keeps blocks (fun _ g => g.collection.keyType.isDerived = false) (fun _ => True)
      e.walk :=
    ⟨fun _ _ _ => trivial, hleaves,
      fun _ _ _ _ _ _ hk h ha => (UnaryOp.kernel_keysFrom hk h).imp fun _ hg => hfrom ha hg,
      fun _ _ _ _ _ _ hk g h hg _ => (BinaryOp.kernel_keysFrom hk g h).imp fun _ h => hfrom hg h⟩
  exact exec_ends hkeeps call

end RowAlgebra
