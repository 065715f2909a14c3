import RowAlgebra.Expr.NonZeros
import RowAlgebra.Proofs.Expr.Sameness

/-!
# What equals itself

A number that is undefined equals nothing, and that is the only reason why an expression does not
equal itself: scalars and in-core matrices compare by the numbers that they stand for. Cells that do
so, too, are `ComparedCell`s, as doubles are. An expression equals itself exactly if none of its
operators holds an undefined number (`Expr.same_self_iff`). What can be derived of non-zero cells
follows from the numbers that scalars stand for, as long as all of them can be asked whether they are
finite (`Expr.Equal.nonZeroCount_eq`).
-/

namespace RowAlgebra

/-- Cells that compare by the numbers that they stand for. -/
class ComparedCell (α : Type) [Cell α] where
  magnitude : α → Magnitude
  same_eq (a b : α) : Cell.same a b = (magnitude a).same (magnitude b)

instance : ComparedCell Float where
  magnitude := Magnitude.ofFloat
  same_eq _ _ := rfl

instance (priority := low) {α : Type} [Cell α] [ComparedCell α] : LawfulSame α where
  symm {a b} h := by
    rw [ComparedCell.same_eq] at h ⊢
    exact (Magnitude.same_comm _ _).trans h
  trans {a b c} h₁ h₂ := by
    rw [ComparedCell.same_eq] at h₁ h₂ ⊢
    exact Magnitude.same_trans h₁ h₂

/-! ## Undefined numbers -/

namespace Magnitude

def isUndefined (m : Magnitude) : Bool :=
  m == undefined

theorem same_self (m : Magnitude) : m.same m = !m.isUndefined := by
  cases m <;> simp [same, isUndefined]

/-- Arithmetic on rational numbers; what is infinite or undefined makes the result undefined. -/
def ofFinite (f : Rat → Rat → Magnitude) : Magnitude → Magnitude → Magnitude
  | finite p, finite q => f p q
  | _, _ => undefined

/-- Exact cells among which there is one that is no number. -/
instance : Cell Magnitude where
  zero := finite 0
  add := ofFinite fun p q => finite (p + q)
  sub := ofFinite fun p q => finite (p - q)
  mul := ofFinite fun p q => finite (p * q)
  div := ofFinite fun p q => if q = 0 then undefined else finite (p / q)
  ofScalar s := if s.isReal then .ok s.magnitude else .error (.fault .type)
  same := same
  isZero a := a == finite 0

instance : ComparedCell Magnitude where
  magnitude a := a
  same_eq _ _ := rfl

end Magnitude

namespace Scalar

/-- Whether a scalar is a double that is no number. -/
def isUndefined (s : Scalar) : Bool :=
  s.isReal && s.magnitude.isUndefined

theorem same_self (s : Scalar) : s.same s = !s.isUndefined := by
  cases s with
  | absent => rfl
  | text t => exact beq_self_eq_true t
  | int n => exact Magnitude.same_self (.ofInt n)
  | bool b => exact Magnitude.same_self (.ofBool b)
  | float x => exact Magnitude.same_self (.ofFloat x)

end Scalar

section Operators

variable {α : Type} [Cell α] [ComparedCell α]

namespace Dense

def hasUndefined (m : Dense α) : Bool :=
  m.rows.any fun row => row.any fun a => (ComparedCell.magnitude a).isUndefined

theorem rowsMatch_self_iff {row : Row α} : RowsMatch row row ↔
    row.any (fun a => (ComparedCell.magnitude a).isUndefined) = false := by
  induction row with
  | nil => simp
  | cons a row ih =>
    simp only [RowsMatch, List.forall₂_cons, List.any_cons, Bool.or_eq_false_iff] at ih ⊢
    rw [ih, ComparedCell.same_eq, Magnitude.same_self, Bool.not_eq_true']

theorem same_self_iff {m : Dense α} : m.same m = true ↔ m.hasUndefined = false := by
  have hrows (rows : List (Row α)) : List.Forall₂ RowsMatch rows rows ↔
      (rows.any fun row => row.any fun a => (ComparedCell.magnitude a).isUndefined) = false := by
    induction rows with
    | nil => simp
    | cons row rows ih =>
      rw [List.forall₂_cons, ih, rowsMatch_self_iff, List.any_cons, Bool.or_eq_false_iff]
  rw [same_iff, hrows, hasUndefined]
  simp

end Dense

namespace UnaryOp

/-- Whether the scalar or the in-core matrix of an operator holds an undefined number. -/
def hasUndefined : UnaryOp α → Bool
  | scalar _ s => s.isUndefined
  | leftMultiply m | rightMultiply m => m.hasUndefined
  | transpose | transposeAnyKey | selfGramian | rowRange _ _ | mapBlock _ _ _ => false

theorem same_self_iff {op : UnaryOp α} : op.same op = true ↔ op.hasUndefined = false := by
  cases op with
  | scalar op s => simp [same, hasUndefined, Scalar.same_self]
  | leftMultiply m => exact Dense.same_self_iff
  | rightMultiply m => exact Dense.same_self_iff
  | rowRange start stop =>
    refine ⟨fun _ => rfl, fun _ => sameRange_iff.2 ?_⟩
    by_cases h : stop ≤ start
    · exact .inl ⟨h, h⟩
    · exact .inr ⟨Int.not_le.1 h, rfl, rfl⟩
  | mapBlock fn ncol keeps => simp [same, hasUndefined]
  | transpose => simp [same, hasUndefined]
  | transposeAnyKey => simp [same, hasUndefined]
  | selfGramian => simp [same, hasUndefined]

end UnaryOp

namespace Expr

/-- Whether a scalar or an in-core matrix of an expression holds an undefined number. Checkpoints do
not count. -/
def hasUndefined (e : Expr α) : Bool :=
  e.unaries.any UnaryOp.hasUndefined

theorem same_self_iff {e : Expr α} : e.same e = true ↔ e.hasUndefined = false := by
  induction e with
  | checkpoint i c => simp [same, hasUndefined, unaries]
  | foreign i shape => simp [same, hasUndefined, unaries]
  | unary i op a ih =>
    rw [same, Bool.and_eq_true, UnaryOp.same_self_iff, ih, hasUndefined, hasUndefined, unaries,
      List.any_cons, Bool.or_eq_false_iff]
  | binary i op a b iha ihb =>
    rw [same, Bool.and_eq_true, Bool.and_eq_true, iha, ihb, hasUndefined, hasUndefined,
      hasUndefined, unaries, List.any_append, Bool.or_eq_false_iff]
    simp

end Expr

end Operators

/-! ## Non-zero counts -/

namespace Scalar

/-- Whether a scalar is an integer of more than 64 bits. -/
def isWide : Scalar → Bool
  | int n => !decide (-(2 ^ 63 : Int) ≤ n ∧ n < 2 ^ 64)
  | _ => false

theorem isZero_of_same {s t : Scalar} (h : s.same t = true) : s.isZero = t.isZero := by
  rcases same_eq_magnitude h with ⟨rfl, rfl⟩ | ⟨x, rfl, rfl⟩ | h
  · rfl
  · rfl
  · rw [isZero, isZero, (Magnitude.same_eq_true_iff.1 h).2]

/-- Whether a number is finite can be read off its value, as far as it can be asked. -/
theorem isFinite_of_defined {s : Scalar} (hwide : s.isWide = false)
    (h : s.magnitude ≠ .undefined) :
    s.isFinite = .ok (match s.magnitude with | .finite _ => true | _ => false) := by
  cases s with
  | int n =>
    have hn : -(2 ^ 63 : Int) ≤ n ∧ n < 2 ^ 64 := by simpa [isWide] using hwide
    rw [isFinite, if_pos hn]
    rfl
  | bool b => rfl
  | float x =>
    simp only [isFinite, magnitude, Magnitude.ofFloat]
    by_cases hx : (FloatBits.of x).isFinite = true
    · simp only [hx, if_true]
    · by_cases hf : (FloatBits.of x).fraction = 0
      · cases (FloatBits.of x).negative <;> simp [hx, hf]
      · simp [hx, hf]
  | absent => exact absurd rfl h
  | text t => exact absurd rfl h

theorem isFinite_of_same {s t : Scalar} (hs : s.isWide = false) (ht : t.isWide = false)
    (h : s.same t = true) : s.isFinite = t.isFinite := by
  rcases same_eq_magnitude h with ⟨rfl, rfl⟩ | ⟨x, rfl, rfl⟩ | h
  · rfl
  · rfl
  · obtain ⟨hdefined, heq⟩ := Magnitude.same_eq_true_iff.1 h
    rw [isFinite_of_defined hs hdefined, isFinite_of_defined ht (heq ▸ hdefined), heq]

end Scalar

section Counts

variable {α : Type} [Cell α]

namespace UnaryOp

def isWide : UnaryOp α → Bool
  | scalar _ s => s.isWide
  | _ => false

theorem name_of_same {op op' : UnaryOp α} (h : op.same op' = true) : op.name = op'.name := by
  cases op <;> cases op' <;> first | rfl | cases h

theorem keepsNonZeros_of_same {op op' : UnaryOp α} (hw : op.isWide = false)
    (hw' : op'.isWide = false) (h : op.same op' = true) :
    op.keepsNonZeros = op'.keepsNonZeros := by
  cases op with
  | scalar op s =>
    cases op' with
    | scalar op' s' =>
      simp only [same, Bool.and_eq_true, beq_iff_eq] at h
      obtain ⟨hsame, rfl⟩ := h
      have hzero := Scalar.isZero_of_same hsame
      have hfinite := Scalar.isFinite_of_same hw hw' hsame
      cases op <;> simp only [keepsNonZeros, hzero, hfinite]
    | _ => cases h
  | _ => cases op' <;> first | rfl | cases h

end UnaryOp

namespace Expr

/-- Whether some scalar of an expression is an integer of more than 64 bits. -/
def hasWide (e : Expr α) : Bool :=
  e.unaries.any UnaryOp.isWide

theorem Equal.name_eq {e f : Expr α} (h : Equal e f) : e.name = f.name := by
  cases h with
  | checkpoint => rfl
  | foreign => rfl
  | unary hop ha => exact UnaryOp.name_of_same hop
  | binary => rfl

variable {next : NodeId} {nodes : Set (Expr α)} (hp : Population next nodes)

include hp in
/-- Equal expressions have the same non-zero count, or none for the same reason, unless some scalar
is too wide to be asked whether it is finite. -/
theorem Equal.nonZeroCount_eq {e f : Expr α} (h : Equal e f) (he : e ∈ nodes) (hf : f ∈ nodes)
    (hwide : e.hasWide = false) (hwide' : f.hasWide = false) :
    e.nonZeroCount = f.nonZeroCount := by
  induction h with
  | checkpoint i c c' =>
    cases hp.identified _ he _ hf rfl
    rfl
  | foreign => rfl
  | @unary i j op op' a a' hop ha ih =>
    rw [hasWide, unaries, List.any_cons, Bool.or_eq_false_iff] at hwide hwide'
    have hinput := ih (hp.input he) (hp.input hf) hwide.2 hwide'.2
    have hname : (Expr.unary i op a).name = (Expr.unary j op' a').name := UnaryOp.name_of_same hop
    rw [nonZeroCount, nonZeroCount, UnaryOp.keepsNonZeros_of_same hwide.1 hwide'.1 hop, hinput,
      hname]
  | binary => rfl

end Expr

end Counts

end RowAlgebra
