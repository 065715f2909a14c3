import RowAlgebra.Exec
import RowAlgebra.Proofs.Ending

/-!
# How physical operators fail

No physical operator complains of an operator that it does not know: whatever it fails with is
`Error.Ordinary`, unless a block function has come up with it. The lemmas follow the text of the
operators; `UnaryOp.kernel_fails` and `BinaryOp.kernel_fails` put them together.
-/

namespace RowAlgebra

/-- A failure of the arithmetic underneath. -/
def Error.IsFault (e : Error) : Prop :=
  ∃ k, k ≠ .unsupportedOperator ∧ e = .fault k

/-- An error that is not about an unknown operator. -/
def Error.Ordinary (e : Error) : Prop :=
  e.kind ≠ .unsupportedOperator

/-- A computation whose only errors are faults. -/
abbrev Faults {β : Type} (x : Except Error β) : Prop :=
  Fails x Error.IsFault

theorem Fails.fault {β : Type} {k : ErrorKind} (h : k ≠ .unsupportedOperator) :
    Faults (.error (.fault k) : Except Error β) :=
  ⟨k, h, rfl⟩

theorem Faults.ordinary {β : Type} {x : Except Error β} (h : Faults x) :
    Fails x Error.Ordinary := by
  refine h.mapBad ?_
  rintro _ ⟨k, hk, rfl⟩
  exact hk

/-- Cells that have no unknown operators either. -/
class OrdinaryCell (α : Type) [Cell α] : Prop where
  ofScalar (s : Scalar) : Faults (Cell.ofScalar s : Except Error α)
  tooLarge {r c : Nat} {k : ErrorKind} (h : @Cell.tooLarge? α _ r c = some k) :
    k ≠ .unsupportedOperator

/-! ## Scalars -/

theorem Capacity.length_fails (n : Int) : Faults (Capacity.length n) := by
  unfold Capacity.length
  split
  · exact .ok ()
  · exact .fault nofun

theorem Capacity.sequence_fails (n : Int) : Faults (Capacity.sequence n) := by
  refine (Capacity.length_fails n).bind fun _ => ?_
  split
  · exact .fault nofun
  · exact .ok ()

theorem Decimal.floatOfText_fails (s : String) : Faults (Decimal.floatOfText s) := by
  unfold Decimal.floatOfText
  split
  · split
    · exact .ok _
    · exact .fault nofun
  · exact .fault nofun

namespace Scalar

theorem toFloat_fails (s : Scalar) : Faults s.toFloat := by
  unfold toFloat
  split
  · split
    · exact .ok _
    · exact .fault nofun
  · exact .ok _
  · exact .ok _
  · exact Decimal.floatOfText_fails _
  · exact .fault nofun

theorem compute_fails (f : Int → Int → Int) (g : Float → Float → Float) (a b : Scalar) :
    Faults (compute f g a b) := by
  unfold compute
  split
  · exact .ok _
  · split
    · exact a.toFloat_fails.bind fun _ => b.toFloat_fails.bind fun _ => .ok _
    · exact .fault nofun

theorem add_fails (a b : Scalar) : Faults (a.add b) := by
  unfold add
  split
  · exact .ok _
  · exact compute_fails ..

theorem sub_fails (a b : Scalar) : Faults (a.sub b) :=
  compute_fails ..

theorem repeated_fails (s : Text) (n : Option Int) : Faults (repeated s n) := by
  unfold repeated
  split
  · exact (Capacity.length_fails _).bind fun _ => (Capacity.sequence_fails _).bind fun _ => .ok _
  · exact .fault nofun

theorem mul_fails (a b : Scalar) : Faults (a.mul b) := by
  unfold mul
  split
  · exact repeated_fails ..
  · exact repeated_fails ..
  · exact compute_fails ..

theorem quotient_fails (m n : Int) : Faults (quotient m n) := by
  unfold quotient
  split
  · exact .fault nofun
  · split
    · exact .ok _
    · exact .fault nofun

theorem div_fails (a b : Scalar) : Faults (a.div b) := by
  unfold div
  split
  · exact quotient_fails ..
  · split
    · refine a.toFloat_fails.bind fun x => b.toFloat_fails.bind fun y => ?_
      split
      · exact .fault nofun
      · exact .ok _
    · exact .fault nofun

theorem dot_fails (l : List (Scalar × Scalar)) : Faults (dot l) := by
  cases l with
  | nil => exact .ok _
  | cons p l =>
    exact (p.1.mul_fails p.2).bind fun init =>
      .foldlM (fun sum q => (q.1.mul_fails q.2).bind fun _ => sum.add_fails _) l init

end Scalar

theorem CellOp.onScalars_fails (op : CellOp) (a b : Scalar) :
    Faults (op.onScalars a b) := by
  cases op with
  | plus => exact a.add_fails b
  | minus => exact a.sub_fails b
  | hadamard => exact a.mul_fails b
  | divide => exact a.div_fails b

theorem ScalarOp.onScalars_fails (op : ScalarOp) (a s : Scalar) :
    Faults (op.onScalars a s) := by
  cases op with
  | plus => exact a.add_fails s
  | minus => exact a.sub_fails s
  | minusReversed => exact s.sub_fails a
  | times => exact a.mul_fails s
  | divide => exact a.div_fails s
  | divideReversed => exact s.div_fails a

theorem Capacity.tableFault_ordinary {r c : Nat} {k : ErrorKind}
    (h : Capacity.tableFault? r c = some k) : k ≠ .unsupportedOperator := by
  unfold Capacity.tableFault? at h
  split at h
  · cases h
    nofun
  · split at h <;> cases h
    nofun

instance : OrdinaryCell Float where
  ofScalar := Scalar.toFloat_fails
  tooLarge := Capacity.tableFault_ordinary

/-! ## Rows -/

section Rows

variable {α β γ : Type}

theorem Row.stretch_fails (n : Nat) (row : Row β) : Faults (Row.stretch n row) := by
  unfold Row.stretch
  split
  · exact .ok _
  · split
    · exact .ok _
    · exact .fault nofun

theorem Row.paired_fails (a : Row β) (b : Row γ) : Faults (Row.paired a b) := by
  unfold Row.paired
  split
  · exact .ok _
  · split
    · exact .ok _
    · exact .ok _
    · exact .fault nofun

theorem Dense.extent_fails (n : Int) : Faults (Dense.extent n) := by
  unfold Dense.extent
  split
  · exact .fault nofun
  · exact .ok _

variable [Cell α]

theorem Dense.sides_fails [OrdinaryCell α] (r c : Int) : Faults (Dense.sides α r c) := by
  refine (Dense.extent_fails r).bind fun r => (Dense.extent_fails c).bind fun c => ?_
  split
  · exact .ok _
  · next k h => exact .fault (OrdinaryCell.tooLarge h)

namespace Cells

theorem stretch_fails [OrdinaryCell α] (n : Nat) (row : Cells α) : Faults (row.stretch n) := by
  cases row with
  | plain row => exact Row.stretch_fails n row
  | mixed row =>
    have hcells := Fails.mapM (γ := α) OrdinaryCell.ofScalar row
    rw [stretch]
    split
    · exact hcells.bind fun _ => Row.stretch_fails ..
    · exact .fault nofun

theorem combine_fails (op : CellOp) (a b : Cells α) : Faults (combine op a b) := by
  unfold combine
  split
  · exact ((Row.paired_fails ..).bind fun _ => .ok _).bind fun _ => .ok _
  · refine (Row.paired_fails ..).bind fun _ => ?_
    exact (Fails.mapM (fun (p : Scalar × Scalar) => op.onScalars_fails p.1 p.2) _).bind
      fun _ => .ok _

theorem withScalar_fails [OrdinaryCell α] (op : ScalarOp) (s : Scalar) (row : Cells α) :
    Faults (withScalar op s row) := by
  unfold withScalar
  split
  · exact (Fails.mapM (fun x => op.onScalars_fails x s) _).bind fun _ => .ok _
  · cases op <;> exact .fault nofun
  · exact .ok _
  · exact Ends.bind (OrdinaryCell.ofScalar _) fun _ _ => Ends.ok trivial

theorem againstRows_fails (m : Dense α) (row : Cells α) : Faults (againstRows m row) := by
  unfold againstRows
  split
  · exact .fault nofun
  · split
    · exact .ok _
    · exact (Fails.mapM (fun _ => Scalar.dot_fails _) _).bind fun _ => .ok _

theorem outerRefusal_isFault (a b : Cells α) : (outerRefusal a b).IsFault := by
  unfold outerRefusal
  dsimp only
  split
  · next e h =>
    exact (Fails.mapM (fun (p : Scalar × Scalar) => p.1.mul_fails p.2) _).of_error h
  · exact ⟨.elementType, nofun, rfl⟩

theorem addOuter_fails {r c : Nat} (grid : Grid α r c) (a b : Cells α) :
    Faults (addOuter grid a b) := by
  unfold addOuter
  split
  · exact (Row.stretch_fails ..).bind fun _ => (Row.stretch_fails ..).bind fun _ => .ok _
  · exact outerRefusal_isFault a b

end Cells

end Rows

/-! ## Collections -/

section Collections

variable {α : Type}

theorem Collection.mapPartitions_fails {Bad : Error → Prop}
    {f : List (KeyedRow α) → Except Error (List (KeyedRow α))} (c : Collection α)
    (hf : ∀ p ∈ c.partitions, Fails (f p) Bad) : Fails (c.mapPartitions f) Bad :=
  (Ends.mapM hf).bind fun _ _ => trivial

theorem Collection.mapRows_fails {f : Cells α → Except Error (Cells α)}
    (hf : ∀ row, Faults (f row)) (c : Collection α) : Faults (c.mapRows f) :=
  c.mapPartitions_fails fun p _ =>
    Fails.mapM (fun entry => (hf entry.2).bind fun _ => .ok _) p

namespace Handle

theorem appendToLast_fails (extra : List (KeyedRow α)) (ps : List (List (KeyedRow α))) :
    Faults (appendToLast extra ps) := by
  induction ps with
  | nil => exact .fault nofun
  | cons p ps ih =>
    cases ps with
    | nil => exact .ok _
    | cons q ps => exact Fails.bind ih fun _ => .ok _

theorem positionFault_ordinary (k : Int) : positionFault k ≠ .unsupportedOperator := by
  unfold positionFault
  split <;> nofun

variable [Cell α] [OrdinaryCell α]

theorem place_fails {r c : Nat} (grid : Grid α r c) (entry : KeyedRow α) :
    Faults (place grid entry) := by
  unfold place
  split
  · split
    · exact (Cells.stretch_fails ..).bind fun _ => .ok _
    · split
      · exact (Cells.stretch_fails ..).bind fun _ => .ok _
      · exact .fault (positionFault_ordinary _)
  · exact (Cells.stretch_fails ..).bind fun _ => .ok _
  · exact .fault nofun

theorem openExtent_fails (keys : List Key) : Faults (openExtent keys) := by
  have hnext (k : Key) : Faults k.next := by
    cases k <;> first | exact .ok _ | exact .fault nofun
  refine (Fails.mapM hnext keys).bind fun l => ?_
  split
  · exact .ok _
  · unfold Key.extent
    split
    · exact .ok _
    · exact .fault nofun

theorem collect_fails (a : Handle α) (nrow : Option Int) :
    Fails (a.collect nrow) Error.Ordinary := by
  have hrows (n : Int) : Faults (do
      let sides ← Dense.sides α n a.ncol
      let cells ← a.collection.rows.foldlM place (Dense.zeros sides.1 sides.2)
      return (⟨sides.1, sides.2, cells⟩ : Dense α)) :=
    (Dense.sides_fails n a.ncol).bind fun _ =>
      (Fails.foldlM place_fails _ _).bind fun _ => .ok _
  unfold collect
  dsimp only
  split
  · exact Ends.error nofun
  · cases nrow with
    | some n => exact (hrows n).ordinary
    | none => exact Faults.ordinary ((openExtent_fails _).bind hrows)

theorem transposed_fails (a : Handle α) (nrow : Int) :
    Fails (a.transposed nrow) Error.Ordinary :=
  (a.collect_fails _).bind fun _ => .ok _

theorem timesTransposed_fails (a b : Handle α) (ncol : Int) :
    Fails (a.timesTransposed b ncol) Error.Ordinary :=
  (b.collect_fails _).bind fun m =>
    Faults.ordinary ((Collection.mapRows_fails (Cells.againstRows_fails m) _).bind fun _ => .ok _)

omit [OrdinaryCell α] in
theorem timesDense_fails (a : Handle α) (m : Dense α) : Faults (a.timesDense m) :=
  (Collection.mapRows_fails (Cells.againstRows_fails m.transposed) _).bind fun _ => .ok _

omit [OrdinaryCell α] in
theorem addZipped_fails {r c : Nat} (grid : Grid α r c) (p q : List (KeyedRow α)) :
    Faults (addZipped grid p q) := by
  induction p generalizing grid q with
  | nil => exact .ok _
  | cons a p ih =>
    cases q with
    | nil => exact .ok _
    | cons b q => exact (Cells.addOuter_fails ..).bind fun grid' => ih grid' q

omit [OrdinaryCell α] in
theorem addZippedPartitions_fails {r c : Nat} (grid : Grid α r c)
    (ps qs : List (List (KeyedRow α))) : Faults (addZippedPartitions grid ps qs) := by
  induction ps generalizing grid qs with
  | nil => exact .ok _
  | cons p ps ih =>
    cases qs with
    | nil => exact .ok _
    | cons q qs => exact (addZipped_fails ..).bind fun grid' => ih grid' qs

omit [OrdinaryCell α] in
theorem addJoined_fails {r c : Nat} (b : RowIndex α) (grid : Grid α r c) (entry : KeyedRow α) :
    Faults (addJoined b grid entry) := by
  unfold addJoined
  split
  · exact Cells.addOuter_fails ..
  · exact .ok _

theorem transposedTimes_fails_joined (a b : Handle α) (shape : Shape) :
    Faults (a.transposedTimes b shape false) :=
  (Dense.sides_fails ..).bind fun (_, _) =>
    (Fails.foldlM (addJoined_fails _) _ _).bind fun _ => .ok _

theorem transposedTimes_fails_zipped {a b : Handle α}
    (h : a.collection.samePartitionKeys b.collection = true) (shape : Shape) :
    Faults (a.transposedTimes b shape true) := by
  refine (Dense.sides_fails ..).bind fun (r, c) => ?_
  dsimp only
  rw [if_pos rfl, if_pos h]
  exact (addZippedPartitions_fails ..).bind fun _ => .ok _

theorem transposedTimes_fails (a b : Handle α) (shape : Shape) (zippable : Bool) :
    Fails (a.transposedTimes b shape zippable) Error.Ordinary := by
  cases zippable with
  | false => exact (a.transposedTimes_fails_joined b shape).ordinary
  | true =>
    cases h : a.collection.samePartitionKeys b.collection with
    | true => exact (transposedTimes_fails_zipped h shape).ordinary
    | false =>
      refine (Dense.sides_fails ..).ordinary.bind fun (r, c) => ?_
      dsimp only
      rw [if_pos rfl, if_neg (by simp [h])]
      exact Ends.error nofun

theorem gramian_fails (a : Handle α) (shape : Shape) : Faults (a.gramian shape) :=
  (Dense.sides_fails ..).bind fun _ =>
    (Fails.foldlM
      (fun grid (entry : KeyedRow α) => Cells.addOuter_fails grid entry.2 entry.2) _ _).bind
      fun _ => .ok _

theorem withScalar_fails (op : ScalarOp) (s : Scalar) (a : Handle α) :
    Faults (a.withScalar op s) :=
  (Collection.mapRows_fails (Cells.withScalar_fails op s) _).bind fun _ => .ok _

theorem combine_fails (op : CellOp) (a b : Handle α) (ncol : Int) :
    Faults (a.combine op b ncol) := by
  refine (Dense.sides_fails ..).bind fun sides => Fails.bind ?_ fun merged =>
    Fails.bind ?_ fun missing => ?_
  · exact Collection.mapPartitions_fails _ fun p _ =>
      Fails.mapM (fun entry => (Cells.combine_fails ..).bind fun _ => .ok _) p
  · exact Fails.mapM (fun entry => (Cells.combine_fails ..).bind fun _ => .ok _) _
  · split
    · exact .ok _
    · exact (appendToLast_fails ..).bind fun _ => .ok _

/-! ## Block functions -/

/-- An error that is ordinary, or comes from a block function. -/
def BlockFailure (f : BlockFunction α) (e : Error) : Prop :=
  e.Ordinary ∨ ∃ keys block, f keys block = .error e

omit [OrdinaryCell α] in
theorem stacked_fails (rows : List (Cells α)) : Faults (stacked rows) := by
  unfold stacked
  split
  all_goals
    dsimp only
    split
    · exact .ok _
    · exact .fault nofun

theorem toDense_fails (block : Block α) : Faults block.toDense := by
  cases block with
  | plain m => exact .ok _
  | mixed m =>
    exact (Fails.mapM_vector
      (fun row => Fails.mapM_vector OrdinaryCell.ofScalar row) _).bind fun _ => .ok _

omit [Cell α] [OrdinaryCell α] in
theorem enforce_fails (contract : BlockContract) (result : BlockResult (Dense α)) :
    Fails (contract.enforce result) Error.Ordinary := by
  unfold BlockContract.enforce
  dsimp only
  split
  · exact Ends.error nofun
  · split
    · exact Ends.error nofun
    · exact .ok _

theorem applyBlock_fails (f : BlockFunction α) (contract : BlockContract)
    (p : List (KeyedRow α)) :
    Fails (applyBlock f contract p) (BlockFailure f) := by
  unfold applyBlock
  split
  · exact Ends.ok trivial
  · have hf (keys : List Key) (block : Block α) :
        Fails (f keys block) (BlockFailure f) := by
      cases h : f keys block with
      | ok v => exact Ends.ok trivial
      | error e => exact Ends.error (.inr ⟨_, _, h⟩)
    refine ((stacked_fails _).ordinary.mapBad fun e he => .inl he).bind fun block _ => ?_
    refine (hf _ _).bind fun result => ?_
    exact ((toDense_fails _).ordinary.bind fun _ => enforce_fails ..).mapBad fun e he => .inl he

theorem mapBlock_fails (f : BlockFunction α) (contract : BlockContract) (call : Nat)
    (a : Handle α) :
    Fails (mapBlock f contract call a) (BlockFailure f) :=
  (Collection.mapPartitions_fails _ fun p _ => applyBlock_fails f contract p).bind fun _ => .ok _

end Handle

end Collections

/-! ## Whole operators -/

theorem Side.count_fails (s : Side) : Faults s.count := by
  unfold Side.count
  split
  · exact .ok _
  · exact .fault nofun

theorem Schema.shape_fails (s : Schema) : Faults s.shape :=
  s.rows.count_fails.bind fun _ => s.columns.count_fails.bind fun _ => .ok _

/-- An error that is ordinary, or comes from some block function. -/
def PlanFailure {α : Type} (blocks : BlockCatalogue α) (e : Error) : Prop :=
  e.Ordinary ∨ ∃ fn keys block, blocks fn keys block = .error e

variable {α : Type} [Cell α] [OrdinaryCell α]

theorem UnaryOp.kernel_fails (blocks : BlockCatalogue α) (call : Nat) (out : Schema)
    {op : UnaryOp α} {kernel : Kernel α (Handle α)}
    (h : op.kernel? blocks call out = some kernel) (a : Handle α) :
    Fails (kernel.run a) (PlanFailure blocks) := by
  have ordinary {x : Except Error (Handle α)} (hx : Fails x Error.Ordinary) :
      Fails x (PlanFailure blocks) := hx.mapBad fun _ he => .inl he
  cases op <;> cases h
  case transpose =>
    exact ordinary (out.columns.count_fails.ordinary.bind fun _ => a.transposed_fails _)
  case selfGramian => exact ordinary (Faults.ordinary (out.shape_fails.bind fun _ => a.gramian_fails _))
  case scalar op s => exact ordinary (a.withScalar_fails op s).ordinary
  case rowRange start stop => exact Ends.ok trivial
  case rightMultiply m => exact ordinary (a.timesDense_fails m).ordinary
  case mapBlock fn ncol keepsKeys =>
    refine (Handle.mapBlock_fails (blocks fn) _ call a).mapBad ?_
    rintro e (he | ⟨keys, block, he⟩)
    · exact .inl he
    · exact .inr ⟨fn, keys, block, he⟩

theorem BinaryOp.kernel_fails (out : Schema) (left right : Tag) {op : BinaryOp}
    {kernel : Kernel α (Handle α × Handle α)} (h : op.kernel? out left right = some kernel)
    (a b : Handle α) : Fails (kernel.run (a, b)) Error.Ordinary := by
  cases op <;> cases h
  case matMulTransA =>
    exact out.shape_fails.ordinary.bind fun _ => a.transposedTimes_fails b _ _
  case matMulTransB =>
    exact out.columns.count_fails.ordinary.bind fun _ => a.timesTransposed_fails b _
  case elementwise op =>
    exact Faults.ordinary (out.columns.count_fails.bind fun _ => a.combine_fails op b _)

end RowAlgebra
