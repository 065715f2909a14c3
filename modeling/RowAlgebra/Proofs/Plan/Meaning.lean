import Mathlib.Data.Matrix.Mul
import RowAlgebra.Proofs.Cell.Exact
import RowAlgebra.Proofs.Plan.Optimized

/-!
# Plans mean what their expressions mean

`Mat R` is the type of matrices of any shape over `R`. An `Interpretation` gives a matrix to every
leaf and a function to every operator parameter; `Interpretation.meaning` is the matrix that an
expression stands for then, by the laws of matrix algebra. Equal expressions mean the same matrix
(`Equal.meaning_eq`), and so do an expression and its normal form (`NormalForm.meaning_eq`), and an
expression and its clean form (`CleanForm.meaning_eq`). **Optimization preserves meaning**
(`meaning_of_optimize`).
-/

namespace RowAlgebra

/-! ## Matrices of any shape -/

/-- A matrix together with its shape. -/
structure Mat (R : Type) where
  nrow : ℕ
  ncol : ℕ
  entry : Matrix (Fin nrow) (Fin ncol) R

namespace Mat

variable {R : Type}

/-- The entry at a position, and zero outside of the matrix. -/
def get [Zero R] (A : Mat R) (i j : ℕ) : R :=
  if h : i < A.nrow ∧ j < A.ncol then A.entry ⟨i, h.1⟩ ⟨j, h.2⟩ else 0

theorem get_of_lt [Zero R] (A : Mat R) {i j : ℕ} (hi : i < A.nrow) (hj : j < A.ncol) :
    A.get i j = A.entry ⟨i, hi⟩ ⟨j, hj⟩ :=
  dif_pos ⟨hi, hj⟩

def transpose (A : Mat R) : Mat R :=
  ⟨A.ncol, A.nrow, A.entry.transpose⟩

/-- The rows from `start` up to, but without, `stop`. -/
def rows [Zero R] (A : Mat R) (start stop : Int) : Mat R :=
  ⟨(stop - start).toNat, A.ncol, fun i j => A.get (start.toNat + i) j⟩

def map (f : R → R) (A : Mat R) : Mat R :=
  ⟨A.nrow, A.ncol, A.entry.map f⟩

def zipWith [Zero R] (f : R → R → R) (A B : Mat R) : Mat R :=
  ⟨A.nrow, A.ncol, fun i j => f (A.entry i j) (B.get i j)⟩

def mul [NonUnitalNonAssocSemiring R] (A B : Mat R) : Mat R :=
  ⟨A.nrow, B.ncol,
    if h : A.ncol = B.nrow then A.entry * B.entry.submatrix (Fin.cast h) fun j => j else 0⟩

theorem mul_mk [NonUnitalNonAssocSemiring R] {m n p : ℕ} (A : Matrix (Fin m) (Fin n) R)
    (B : Matrix (Fin n) (Fin p) R) : mul ⟨m, n, A⟩ ⟨n, p, B⟩ = ⟨m, p, A * B⟩ := by
  simp only [mul, dif_pos]
  rfl

theorem mul_of_ne [NonUnitalNonAssocSemiring R] {A B : Mat R} (h : A.ncol ≠ B.nrow) :
    A.mul B = ⟨A.nrow, B.ncol, 0⟩ := by
  rw [mul, dif_neg h]

theorem transpose_transpose (A : Mat R) : A.transpose.transpose = A :=
  rfl

/-- Transposition exchanges the factors of a product. -/
theorem transpose_mul [CommRing R] (A B : Mat R) :
    (A.mul B).transpose = B.transpose.mul A.transpose := by
  obtain ⟨m, n, A⟩ := A
  obtain ⟨n', p, B⟩ := B
  by_cases h : n = n'
  · subst h
    rw [mul_mk]
    simp only [transpose]
    rw [mul_mk, Matrix.transpose_mul]
  · rw [mul_of_ne h, mul_of_ne (Ne.symm h)]
    rfl

/-- Matrices of one shape are equal if they have the same entry at every position. -/
theorem ext_get [Zero R] {A B : Mat R} (hr : A.nrow = B.nrow) (hc : A.ncol = B.ncol)
    (h : ∀ i j, i < A.nrow → j < A.ncol → A.get i j = B.get i j) : A = B := by
  obtain ⟨m, n, A⟩ := A
  obtain ⟨m', n', B⟩ := B
  obtain rfl : m = m' := hr
  obtain rfl : n = n' := hc
  congr
  ext i j
  have hij := h i j i.isLt j.isLt
  rwa [get_of_lt _ i.isLt j.isLt, get_of_lt _ i.isLt j.isLt] at hij

theorem rows_of_le [Zero R] (A : Mat R) {start stop start' stop' : Int} (h : stop ≤ start)
    (h' : stop' ≤ start') : A.rows start stop = A.rows start' stop' := by
  have hr : (stop - start).toNat = (stop' - start').toNat := by omega
  refine ext_get hr rfl fun i j hi _ => ?_
  simp only [rows] at hi
  omega

end Mat

/-! ## The meaning of expressions -/

/-- What the parts of expressions stand for in a ring: matrices for leaves, cell functions for
element-wise operators, and any function that yields as many rows as it gets for a block function.
Cells and scalars that compare equal stand for one element. -/
structure Interpretation (α R : Type) [Cell α] where
  leaf : NodeId → (c : Checkpoint α) → Matrix (Fin c.nrow.toNat) (Fin c.ncol.toNat) R
  foreign : (shape : Shape) → Matrix (Fin shape.nrow.toNat) (Fin shape.ncol.toNat) R
  cell : α → R
  scalar : Scalar → R
  cellOp : CellOp → R → R → R
  scalarOp : ScalarOp → R → R → R
  block : BlockName → (ncol : Int) → (keepsKeys : Bool) → (A : Mat R) →
    Matrix (Fin A.nrow) (Fin ncol.toNat) R
  cell_eq : ∀ {a b : α}, Cell.same a b = true → cell a = cell b
  scalar_eq : ∀ {s t : Scalar}, s.same t = true → scalar s = scalar t

namespace Interpretation

variable {α R : Type} [Cell α] [CommRing R] (I : Interpretation α R)

/-- The matrix that an in-core operand stands for. -/
def dense (m : Dense α) : Mat R :=
  ⟨m.nrow, m.ncol, fun i j => I.cell ((m.cells.get i).get j)⟩

/-- What an operator makes of the meaning of its input. -/
def unary (A : Mat R) : UnaryOp α → Mat R
  | .transpose | .transposeAnyKey => A.transpose
  | .selfGramian => A.transpose.mul A
  | .scalar op s => A.map fun x => I.scalarOp op x (I.scalar s)
  | .rowRange start stop => A.rows start stop
  | .leftMultiply m => (I.dense m).mul A
  | .rightMultiply m => A.mul (I.dense m)
  | .mapBlock fn ncol keepsKeys => ⟨A.nrow, ncol.toNat, I.block fn ncol keepsKeys A⟩

def binary (A B : Mat R) : BinaryOp → Mat R
  | .matMul => A.mul B
  | .matMulTransA => A.transpose.mul B
  | .matMulTransB => A.mul B.transpose
  | .elementwise op => A.zipWith (I.cellOp op) B

/-- The matrix that an expression stands for. -/
def meaning : Expr α → Mat R
  | .checkpoint id c => ⟨c.nrow.toNat, c.ncol.toNat, I.leaf id c⟩
  | .foreign _ shape => ⟨shape.nrow.toNat, shape.ncol.toNat, I.foreign shape⟩
  | .unary _ op a => I.unary (meaning a) op
  | .binary _ op a b => I.binary (meaning a) (meaning b) op

/-- The matrix that an expression stands for has the shape that its schema tells. -/
theorem meaning_shape (e : Expr α) :
    (I.meaning e).nrow = e.nrow.toNat ∧ (I.meaning e).ncol = e.ncol.toNat := by
  induction e with
  | checkpoint id c => exact ⟨rfl, rfl⟩
  | foreign id shape => exact ⟨rfl, rfl⟩
  | unary id op a ih =>
    obtain ⟨hr, hc⟩ := ih
    cases op <;> first | exact ⟨hr, hc⟩ | exact ⟨hc, hr⟩ | exact ⟨hc, hc⟩ | exact ⟨rfl, hc⟩ |
      exact ⟨hr, rfl⟩
  | binary id op a b iha ihb =>
    cases op with
    | matMul => exact ⟨iha.1, ihb.2⟩
    | matMulTransA => exact ⟨iha.2, ihb.2⟩
    | matMulTransB => exact ⟨iha.1, ihb.1⟩
    | elementwise op => exact iha

theorem dense_transposed (m : Dense α) : I.dense m.transposed = (I.dense m).transpose := by
  refine Mat.ext_get rfl rfl fun i j hi hj => ?_
  have hcell : I.cell m.transposed.cells[i][j] = I.cell m.cells[j][i] := by
    simp only [Dense.transposed, Dense.ofFn, Vector.getElem_ofFn]
    rfl
  calc (I.dense m.transposed).get i j
    _ = I.cell m.transposed.cells[i][j] := Mat.get_of_lt _ hi hj
    _ = I.cell m.cells[j][i] := hcell
    _ = (I.dense m).transpose.get i j := (Mat.get_of_lt (I.dense m).transpose hi hj).symm

theorem unary_of_transposes {op : UnaryOp α} (h : op.transposes = true) (A : Mat R) :
    I.unary A op = A.transpose := by
  rcases UnaryOp.transposes_iff.1 h with rfl | rfl <;> rfl

/-! ## Equal expressions -/

theorem dense_eq_of_same {m n : Dense α} (h : m.same n = true) : I.dense m = I.dense n := by
  obtain ⟨hr, hc, -⟩ := Dense.same_iff.1 h
  refine Mat.ext_get hr hc fun i j hi hj => ?_
  have hi' : i < n.nrow := hr ▸ hi
  have hj' : j < n.ncol := hc ▸ hj
  rw [Mat.get_of_lt _ hi hj, Mat.get_of_lt _ hi' hj']
  exact I.cell_eq (Dense.cells_of_same h hi hj hi' hj')

theorem unary_eq_of_same {op op' : UnaryOp α} (h : op.same op' = true) (A : Mat R) :
    I.unary A op = I.unary A op' := by
  cases op <;> cases op' <;> simp only [UnaryOp.same, Bool.false_eq_true] at h <;> try rfl
  case scalar.scalar op s op' s' =>
    simp only [Bool.and_eq_true, beq_iff_eq] at h
    simp only [unary, I.scalar_eq h.1, h.2]
  case rowRange.rowRange start stop start' stop' =>
    rcases UnaryOp.sameRange_iff.1 h with ⟨h₁, h₂⟩ | ⟨-, rfl, rfl⟩
    · exact Mat.rows_of_le A h₁ h₂
    · rfl
  case leftMultiply.leftMultiply m m' => simp only [unary, I.dense_eq_of_same h]
  case rightMultiply.rightMultiply m m' => simp only [unary, I.dense_eq_of_same h]
  case mapBlock.mapBlock fn ncol keeps fn' ncol' keeps' =>
    simp only [Bool.and_eq_true, beq_iff_eq] at h
    obtain ⟨⟨rfl, rfl⟩, rfl⟩ := h
    rfl

end Interpretation

namespace Expr

variable {α R : Type} [Cell α] [CommRing R] (I : Interpretation α R)
variable {next : NodeId} {nodes : Set (Expr α)} (hp : Population next nodes)

include hp in
/-- Equal expressions of one population mean the same matrix. -/
theorem Equal.meaning_eq {a b : Expr α} (h : Equal a b) (ha : a ∈ nodes) (hb : b ∈ nodes) :
    I.meaning a = I.meaning b := by
  induction h with
  | checkpoint i c c' =>
    cases hp.identified _ ha _ hb rfl
    rfl
  | foreign i j shape => rfl
  | unary hop _ ih =>
    simp only [Interpretation.meaning, ih (hp.input ha) (hp.input hb), I.unary_eq_of_same hop]
  | binary i j op _ _ iha ihb =>
    simp only [Interpretation.meaning, iha (hp.left ha) (hp.left hb), ihb (hp.right ha) (hp.right hb)]

/-! ## Both passes -/

include hp in
/-- Each rule of the first pass is a law of matrix algebra. -/
theorem NormalForm.meaning_eq {e e' : Expr α} (h : NormalForm e e') (he : e ∈ nodes) :
    I.meaning e' = I.meaning e := by
  induction h with
  | checkpoint => rfl
  | @gramian i j k op a a' b hop hs ha iha =>
    have hab := (same_iff_equal.1 hs).meaning_eq I hp (hp.input (hp.left he)) (hp.right he)
    have ih := iha (hp.input (hp.left he))
    simp only [Interpretation.meaning, I.unary_of_transposes hop]
    simp only [Interpretation.unary, Interpretation.binary, ih, ← hab]
  | timesTransposed i j k hg ha hb iha ihb =>
    have iha := iha (hp.left he)
    have ihb := ihb (hp.input (hp.right he))
    simp only [Interpretation.meaning, Interpretation.unary, Interpretation.binary, iha, ihb]
  | transposedTimes i j k hop hs ht ha hb iha ihb =>
    have iha := iha (hp.input (hp.left he))
    have ihb := ihb (hp.right he)
    simp only [Interpretation.meaning, Interpretation.binary, I.unary_of_transposes hop, iha, ihb]
  | times i j k hl ht ha hb iha ihb =>
    have iha := iha (hp.left he)
    have ihb := ihb (hp.right he)
    simp only [Interpretation.meaning, Interpretation.binary,
      I.unary_of_transposes (transposes_transposition _), Mat.transpose_transpose, iha, ihb]
  | leftMultiply i j k l m ha iha =>
    have iha := iha (hp.input he)
    simp only [Interpretation.meaning, Interpretation.unary, Mat.transpose_mul,
      I.dense_transposed, Mat.transpose_transpose, iha]
  | unary i j hop ha iha => simp only [Interpretation.meaning, iha (hp.input he)]
  | binary i j hop ha hb iha ihb =>
    simp only [Interpretation.meaning, iha (hp.left he), ihb (hp.right he)]

theorem CleanForm.meaning_eq {e e' : Expr α} (h : CleanForm e e') :
    I.meaning e' = I.meaning e := by
  induction h with
  | checkpoint => rfl
  | double i j ha iha =>
    simp only [Interpretation.meaning, Interpretation.unary, Mat.transpose_transpose, iha]
  | unary i j hop ht ha iha => simp only [Interpretation.meaning, iha]
  | binary i j op ha hb iha ihb => simp only [Interpretation.meaning, iha, ihb]

include hp in
/-- **Optimization preserves meaning**: whatever the leaves, the cell functions and the block
functions are, a plan means the matrix that its expression means. -/
theorem meaning_of_optimize {e plan : Expr α} {next' : NodeId} (he : e ∈ nodes)
    (h : e.optimize next = .ok (plan, next')) : I.meaning plan = I.meaning e := by
  obtain ⟨nodes', -, -, -, middle, hn, hc⟩ := planned_of_optimize hp he h
  calc I.meaning plan
    _ = I.meaning middle := hc.cleanForm.meaning_eq I
    _ = I.meaning e := hn.normalForm.meaning_eq I hp he

end Expr

/-- Rational cells stand for themselves; leaves are given, and block functions leave rows alone. -/
def Interpretation.rational
    (leaf : NodeId → (c : Checkpoint ℚ) → Matrix (Fin c.nrow.toNat) (Fin c.ncol.toNat) ℚ) :
    Interpretation ℚ ℚ where
  leaf
  foreign _ := 0
  cell x := x
  scalar s := s.rational?.getD 0
  cellOp := CellOp.apply
  scalarOp := ScalarOp.apply
  block _ _ _ A := fun i j => A.get i j
  cell_eq h := (ExactCell.same_iff _ _).1 h
  scalar_eq h := congrArg (Option.getD · 0) (Scalar.rational?_of_same h)

namespace Expr

/-- The product of a matrix with two rows and one with two columns is planned as `A(B')'`. -/
theorem meaning_of_optimize_product :
    let a : Expr ℚ := checkpoint 0 (.ofShape 2 3 .int 1)
    let b : Expr ℚ := checkpoint 1 (.ofShape 3 2 .int 2)
    let e := binary 2 .matMul a b
    let plan := binary 4 .matMulTransB a (unary 3 .transpose b)
    let I := Interpretation.rational fun id _ i j => id + i * j
    e.optimize 3 = .ok (plan, 5) ∧ I.meaning plan = I.meaning e := by
  intro a b e plan I
  have hp : Population 3 (insert e (insert b (insert a ∅))) := by
    refine (((Population.empty 0).insert rfl ?_ ?_).insert rfl ?_ ?_).insert rfl ?_ ?_
    all_goals first | trivial | simp [a, b, e, children]
  have h : e.optimize 3 = .ok (plan, 5) := by rfl
  exact ⟨h, meaning_of_optimize I hp (Set.mem_insert _ _) h⟩

end Expr

end RowAlgebra
