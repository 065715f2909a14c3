import RowAlgebra.Exec
import RowAlgebra.Proofs.Cell.Exact
import RowAlgebra.Proofs.Keyed.Rows

/-!
# Gathering and spreading

Small matrices are computed in a grid. `gridOf f` is the grid with the cell `f i j` at each position,
so what is done to grids is said by functions of positions: writing a row changes one of them
(`Handle.place_gridOf`). A handle whose keys are positions is gathered into the grid of its cells
(`Handle.Holds.collect_of_sides`), and a grid that is spread over partitions is a handle of its matrix
(`Handle.ofDense_holds`). A transposition does the one and then the other
(`Handle.Holds.transposed_of_sides`).
-/

namespace RowAlgebra

variable {α : Type}

/-- The grid with the cell `f i j` in row `i` and column `j`. -/
def gridOf (r c : ℕ) (f : ℕ → ℕ → α) : Grid α r c :=
  Vector.ofFn fun i => Vector.ofFn fun j => f i j

theorem gridOf_congr {r c : ℕ} {f g : ℕ → ℕ → α} (h : ∀ i < r, ∀ j < c, f i j = g i j) :
    gridOf r c f = gridOf r c g := by
  ext i hi j hj
  simpa [gridOf] using h i hi j hj

namespace Dense

theorem rows_gridOf (r c : ℕ) (f : ℕ → ℕ → α) :
    (⟨r, c, gridOf r c f⟩ : Dense α).rows = (List.range r).map fun i => (List.range c).map (f i) := by
  refine List.ext_getElem (by simp [rows]) fun i h₁ h₂ => ?_
  refine List.ext_getElem (by simp [rows, gridOf]) fun j h₃ h₄ => ?_
  simp [rows, gridOf]

theorem transposed_gridOf (r c : ℕ) (f : ℕ → ℕ → α) :
    (⟨r, c, gridOf r c f⟩ : Dense α).transposed = ⟨c, r, gridOf c r fun i j => f j i⟩ := by
  unfold transposed ofFn
  congr 1
  ext i hi j hj
  simp [gridOf]

theorem zeros_eq [Cell α] (r c : ℕ) : (zeros r c : Grid α r c) = gridOf r c fun _ _ => Cell.zero := by
  ext i hi j hj
  simp [zeros, gridOf]

end Dense

theorem Row.stretch_range (n : ℕ) (f : ℕ → α) :
    Row.stretch n ((List.range n).map f) = .ok (Vector.ofFn fun i => f i) := by
  have hlength : ((List.range n).map f).length = n := by simp
  unfold stretch Dense.exactly?
  rw [dif_pos hlength]
  refine congrArg Except.ok ?_
  ext i hi
  simp

/-! ## Spreading -/

namespace Handle

/-- A grid that is spread holds the matrix of its cells. -/
theorem ofDense_holds (r c : ℕ) (f : ℕ → ℕ → α) (partitions : ℕ) :
    (ofDense ⟨r, c, gridOf r c f⟩ partitions).Holds (.ofFn r c f) := by
  have hk : 0 < max 1 (min partitions r) := by omega
  refine ⟨rfl, Collection.partitions_spread_ne_nil _ hk _, _, KeyedMatrix.enumerates_ofFn r c f, ?_⟩
  rw [ofDense, Collection.rows_spread _ hk, numbered_eq, Dense.rows_gridOf]
  refine List.ext_getElem (by simp) fun i h₁ h₂ => ?_
  simp [KeyedMatrix.entry, KeyedMatrix.row, KeyedMatrix.ofFn, KeyedMatrix.atPositions,
    KeyValue.index_ofNat]

/-! ## Gathering -/

variable [Cell α]

theorem place_gridOf {n c : ℕ} (f : ℕ → ℕ → α) {i : ℕ} (hi : i < n) (g : ℕ → α) :
    place (gridOf n c f) (.int i, .plain ((List.range c).map g)) =
      .ok (gridOf n c fun i' j => if i' = i then g j else f i' j) := by
  have hrange : (0 : Int) ≤ i ∧ (i : Int) < n := by omega
  simp only [place, if_pos hrange, Cells.stretch, Row.stretch_range]
  change Except.ok _ = _
  congr 1
  ext i' hi' j hj
  simp only [gridOf, Int.toNat_natCast, Vector.getElem_setIfInBounds, Vector.getElem_ofFn]
  by_cases h : i = i'
  · simp [h]
  · simp [h, Ne.symm h]

theorem foldlM_place {A : KeyedMatrix α} {n : ℕ} {vs : List KeyValue}
    (hvs : ∀ v ∈ vs, ∃ i < n, v = .ofNat i ∧ A.key v = .int i) (f : ℕ → ℕ → α) :
    (vs.map A.entry).foldlM place (gridOf n A.ncol f) =
      .ok (gridOf n A.ncol fun i j => if .ofNat i ∈ vs then A.cell (.ofNat i) j else f i j) := by
  induction vs generalizing f with
  | nil => simp only [List.not_mem_nil, if_false]; rfl
  | cons v vs ih =>
    obtain ⟨⟨i, hi, rfl, hkey⟩, hrest⟩ := List.forall_mem_cons.1 hvs
    rw [List.map_cons, List.foldlM_cons, KeyedMatrix.entry, hkey, KeyedMatrix.row, place_gridOf f hi]
    refine (ih hrest _).trans (congrArg Except.ok (gridOf_congr fun i' _ j _ => ?_))
    simp only [List.mem_cons, KeyValue.ofNat_injective.eq_iff]
    by_cases hmem : KeyValue.ofNat i' ∈ vs
    · simp [hmem]
    · by_cases heq : i' = i
      · simp [heq]
      · simp [hmem, heq]

/-- A handle whose keys are positions is gathered row by row, if the matrix can be held; missing rows
are zero. -/
theorem Holds.collect_of_sides {h : Handle α} {A : KeyedMatrix α} (hh : h.Holds A) {n : ℕ}
    (hA : A.Within n) (htype : h.collection.keyType.isInt = true)
    (hsides : Dense.sides α n A.ncol = .ok (n, A.ncol)) :
    h.collect (some n) = .ok ⟨n, A.ncol, gridOf n A.ncol fun i j => A.read (.ofNat i) j⟩ := by
  obtain ⟨vs, hvs, hrows⟩ := hh.rows
  have hpositions : ∀ v ∈ vs, ∃ i < n, v = .ofNat i ∧ A.key v = .int i :=
    fun v hv => hA v (hvs.mem_iff.1 hv)
  have hplaced := foldlM_place hpositions fun _ _ => Cell.zero
  simp only [hvs.mem_iff, ← Dense.zeros_eq] at hplaced
  unfold collect
  rw [htype, hh.ncol, hrows]
  change (do
    let sides ← Dense.sides α n A.ncol
    let cells ← (vs.map A.entry).foldlM place (Dense.zeros sides.1 sides.2)
    return ⟨sides.1, sides.2, cells⟩ : Except Error (Dense α)) = _
  rw [hsides]
  change (do
    let cells ← (vs.map A.entry).foldlM place (Dense.zeros n A.ncol)
    return ⟨n, A.ncol, cells⟩ : Except Error (Dense α)) = _
  rw [hplaced]
  rfl

theorem Holds.transposed_of_sides {h : Handle α} {A : KeyedMatrix α} (hh : h.Holds A) {n : ℕ}
    (hA : A.Within n) (htype : h.collection.keyType.isInt = true)
    (hsides : Dense.sides α n A.ncol = .ok (n, A.ncol)) :
    Makes (h.transposed n) (A.transposed n) .int := by
  rw [transposed, hh.collect_of_sides hA htype hsides]
  change Makes (.ok (ofDense (Dense.transposed _) _)) _ _
  rw [Dense.transposed_gridOf]
  exact ⟨ofDense_holds _ _ _ _, rfl⟩

theorem sides_of_held {r c : ℕ} (h : @Cell.tooLarge? α _ r c = none) :
    Dense.sides α r c = .ok (r, c) := by
  have hr : ¬ (r : Int) < 0 := by omega
  have hc : ¬ (c : Int) < 0 := by omega
  simp only [Dense.sides, Dense.extent, if_neg hr, if_neg hc, Int.toNat_natCast]
  simp only [bind, Except.bind, h]
  rfl

theorem sides_of_not_held {r c : ℕ} {kind : ErrorKind} (h : @Cell.tooLarge? α _ r c = some kind) :
    Dense.sides α r c = .error (.fault kind) := by
  have hr : ¬ (r : Int) < 0 := by omega
  have hc : ¬ (c : Int) < 0 := by omega
  simp only [Dense.sides, Dense.extent, if_neg hr, if_neg hc, Int.toNat_natCast]
  simp only [bind, Except.bind, h]
  rfl

variable [Field α] [ExactCell α]

theorem sides_ok (r c : ℕ) : Dense.sides α r c = .ok (r, c) :=
  sides_of_held (ExactCell.fits r c)

/-- Matrices of exact cells can always be held. -/
theorem Holds.collect_eq {h : Handle α} {A : KeyedMatrix α} (hh : h.Holds A) {n : ℕ}
    (hA : A.Within n) (htype : h.collection.keyType.isInt = true) :
    h.collect (some n) = .ok ⟨n, A.ncol, gridOf n A.ncol fun i j => A.read (.ofNat i) j⟩ :=
  hh.collect_of_sides hA htype (sides_ok n A.ncol)

end Handle

end RowAlgebra
