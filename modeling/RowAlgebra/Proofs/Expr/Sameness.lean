import Mathlib.Data.List.Forall2
import RowAlgebra.Expr.Equality
import RowAlgebra.Proofs.Expr.Admission
import RowAlgebra.Proofs.Expr.Nodes

/-!
# Structural equality as a relation

`Expr.Equal` is structural equality with one constructor for each kind of node, so that facts about
equal expressions are proved by induction on it. On cells that compare lawfully it is symmetric and
transitive (`Equal.symm`, `Equal.trans`); it need not be reflexive, since a number that is undefined
equals nothing. Equal expressions of one population have the same schema (`Equal.schema_eq`).
-/

namespace RowAlgebra

/-- Cells whose equality is symmetric and transitive. -/
class LawfulSame (α : Type) [Cell α] : Prop where
  symm : ∀ {a b : α}, Cell.same a b = true → Cell.same b a = true
  trans : ∀ {a b c : α}, Cell.same a b = true → Cell.same b c = true → Cell.same a c = true

instance : LawfulSame Float where
  symm h := (Magnitude.same_comm _ _).trans h
  trans h₁ h₂ := Magnitude.same_trans h₁ h₂

/-! ## Scalars -/

namespace Scalar

/-- Scalars that are no texts and not both absent compare by what they stand for. -/
theorem same_eq_magnitude {s t : Scalar} (h : s.same t = true) :
    (s = absent ∧ t = absent) ∨ (∃ x, s = text x ∧ t = text x) ∨
      s.magnitude.same t.magnitude = true := by
  unfold same at h
  split at h
  · exact .inl ⟨rfl, rfl⟩
  · next x y => exact .inr (.inl ⟨x, rfl, congrArg text (eq_of_beq h).symm⟩)
  · exact .inr (.inr h)

theorem same_of_magnitude {s t : Scalar} (h : s.magnitude.same t.magnitude = true) :
    s.same t = true := by
  unfold same
  split
  · rfl
  · cases h
  · exact h

theorem same_symm {s t : Scalar} (h : s.same t = true) : t.same s = true := by
  rcases same_eq_magnitude h with ⟨rfl, rfl⟩ | ⟨x, rfl, rfl⟩ | h
  · rfl
  · exact h
  · exact same_of_magnitude ((Magnitude.same_comm _ _).trans h)

theorem same_trans {s t u : Scalar} (h₁ : s.same t = true) (h₂ : t.same u = true) :
    s.same u = true := by
  rcases same_eq_magnitude h₁ with ⟨rfl, rfl⟩ | ⟨x, rfl, rfl⟩ | hm₁
  · exact h₂
  · exact h₂
  rcases same_eq_magnitude h₂ with ⟨rfl, rfl⟩ | ⟨x, rfl, rfl⟩ | hm₂
  · exact h₁
  · exact h₁
  · exact same_of_magnitude (Magnitude.same_trans hm₁ hm₂)

end Scalar

/-! ## In-core matrices -/

section Pointwise

variable {β : Type} {R : β → β → Prop}

theorem forall₂_symm (hR : ∀ {a b}, R a b → R b a) {l m : List β} (h : List.Forall₂ R l m) :
    List.Forall₂ R m l :=
  (h.imp fun _ _ => hR).flip

theorem forall₂_trans (hR : ∀ {a b c}, R a b → R b c → R a c) {l m n : List β}
    (h₁ : List.Forall₂ R l m) (h₂ : List.Forall₂ R m n) : List.Forall₂ R l n := by
  induction h₁ generalizing n with
  | nil => exact h₂
  | cons hab _ ih =>
    cases h₂ with
    | cons hbc h₂ => exact .cons (hR hab hbc) (ih h₂)

end Pointwise

namespace Dense

variable {α : Type} [Cell α]

/-- Equality of rows, cell by cell. -/
abbrev RowsMatch (a b : Row α) : Prop :=
  List.Forall₂ (fun x y => Cell.same x y = true) a b

theorem sameRow_iff : ∀ {a b : Row α}, sameRow a b = true ↔ RowsMatch a b
  | [], [] => by simp [sameRow]
  | [], _ :: _ => by simp [sameRow]
  | _ :: _, [] => by simp [sameRow]
  | _ :: _, _ :: _ => by simp [sameRow, List.forall₂_cons, sameRow_iff]

theorem sameRows_iff : ∀ {a b : List (Row α)},
    sameRows a b = true ↔ List.Forall₂ RowsMatch a b
  | [], [] => by simp [sameRows]
  | [], _ :: _ => by simp [sameRows]
  | _ :: _, [] => by simp [sameRows]
  | _ :: _, _ :: _ => by simp [sameRows, List.forall₂_cons, sameRow_iff, sameRows_iff]

theorem same_iff {m n : Dense α} : m.same n = true ↔
    m.nrow = n.nrow ∧ m.ncol = n.ncol ∧ List.Forall₂ RowsMatch m.rows n.rows := by
  simp [same, sameRows_iff, and_assoc]

/-- Equal matrices hold equal cells at every position. -/
theorem cells_of_same {m n : Dense α} (h : m.same n = true) {i j : Nat} (hi : i < m.nrow)
    (hj : j < m.ncol) (hi' : i < n.nrow) (hj' : j < n.ncol) :
    Cell.same m.cells[i][j] n.cells[i][j] = true := by
  obtain ⟨-, -, hrows⟩ := same_iff.1 h
  have hrow := hrows.get (i := i) (by simpa [rows] using hi) (by simpa [rows] using hi')
  have hcell := hrow.get (i := j) (by simpa [rows] using hj) (by simpa [rows] using hj')
  simpa [rows] using hcell

variable [LawfulSame α]

theorem RowsMatch.symm {a b : Row α} (h : RowsMatch a b) : RowsMatch b a :=
  forall₂_symm (R := fun x y : α => Cell.same x y = true) LawfulSame.symm h

theorem RowsMatch.trans {a b c : Row α} (h₁ : RowsMatch a b) (h₂ : RowsMatch b c) :
    RowsMatch a c :=
  forall₂_trans (R := fun x y : α => Cell.same x y = true) LawfulSame.trans h₁ h₂

theorem same_symm {m n : Dense α} (h : m.same n = true) : n.same m = true := by
  obtain ⟨hr, hc, hrows⟩ := same_iff.1 h
  exact same_iff.2 ⟨hr.symm, hc.symm, forall₂_symm (R := RowsMatch) RowsMatch.symm hrows⟩

theorem same_trans {l m n : Dense α} (h₁ : l.same m = true) (h₂ : m.same n = true) :
    l.same n = true := by
  obtain ⟨hr₁, hc₁, hrows₁⟩ := same_iff.1 h₁
  obtain ⟨hr₂, hc₂, hrows₂⟩ := same_iff.1 h₂
  exact same_iff.2 ⟨hr₁.trans hr₂, hc₁.trans hc₂,
    forall₂_trans (R := RowsMatch) RowsMatch.trans hrows₁ hrows₂⟩

end Dense

/-! ## Operators -/

namespace UnaryOp

variable {α : Type} [Cell α]

theorem sameRange_iff {start stop start' stop' : Int} :
    sameRange start stop start' stop' = true ↔
      (stop ≤ start ∧ stop' ≤ start') ∨ (start < stop ∧ start = start' ∧ stop = stop') := by
  unfold sameRange
  split
  · simp; omega
  · simp; omega

/-- Equal operators turn one schema into one schema, as long as they admit it: a range that is
admitted does not end before it starts. -/
theorem schema_of_same {op op' : UnaryOp α} {s : Schema} (h : op.same op' = true)
    (ha : op.admits s = .ok ()) (ha' : op'.admits s = .ok ()) : op.schema s = op'.schema s := by
  cases op <;> cases op' <;> simp only [same, Bool.false_eq_true] at h <;> try rfl
  case rowRange.rowRange start stop start' stop' =>
    rcases sameRange_iff.1 h with ⟨h₁, h₂⟩ | ⟨-, rfl, rfl⟩
    · obtain ⟨-, -, hle, -⟩ := admits_rowRange_iff.1 ha
      obtain ⟨-, -, hle', -⟩ := admits_rowRange_iff.1 ha'
      have hlen : stop - start = stop' - start' := by omega
      simp only [schema, Side.ofRange, hlen]
    · rfl
  case leftMultiply.leftMultiply m m' => simp only [schema, (Dense.same_iff.1 h).1]
  case rightMultiply.rightMultiply m m' => simp only [schema, (Dense.same_iff.1 h).2.1]
  case mapBlock.mapBlock fn ncol keeps fn' ncol' keeps' =>
    simp only [Bool.and_eq_true, beq_iff_eq] at h
    simp only [schema, h.1.2, h.2]

variable [LawfulSame α]

theorem same_symm {op op' : UnaryOp α} (h : op.same op' = true) : op'.same op = true := by
  cases op <;> cases op' <;> simp only [same, Bool.false_eq_true] at h ⊢
  case scalar.scalar op s op' s' =>
    simp only [Bool.and_eq_true, beq_iff_eq] at h ⊢
    exact ⟨Scalar.same_symm h.1, h.2.symm⟩
  case rowRange.rowRange start stop start' stop' =>
    rw [sameRange_iff] at h ⊢
    omega
  case leftMultiply.leftMultiply m m' => exact Dense.same_symm h
  case rightMultiply.rightMultiply m m' => exact Dense.same_symm h
  case mapBlock.mapBlock fn ncol keeps fn' ncol' keeps' =>
    simp only [Bool.and_eq_true, beq_iff_eq] at h ⊢
    exact ⟨⟨h.1.1.symm, h.1.2.symm⟩, h.2.symm⟩

theorem same_trans {op₁ op₂ op₃ : UnaryOp α} (h₁ : op₁.same op₂ = true)
    (h₂ : op₂.same op₃ = true) : op₁.same op₃ = true := by
  cases op₁ <;> cases op₂ <;> simp only [same, Bool.false_eq_true] at h₁ <;>
    cases op₃ <;> simp only [same, Bool.false_eq_true] at h₂ ⊢
  case scalar.scalar.scalar op s op' s' op'' s'' =>
    simp only [Bool.and_eq_true, beq_iff_eq] at h₁ h₂ ⊢
    exact ⟨Scalar.same_trans h₁.1 h₂.1, h₁.2.trans h₂.2⟩
  case rowRange.rowRange.rowRange =>
    rw [sameRange_iff] at h₁ h₂ ⊢
    omega
  case leftMultiply.leftMultiply.leftMultiply => exact Dense.same_trans h₁ h₂
  case rightMultiply.rightMultiply.rightMultiply => exact Dense.same_trans h₁ h₂
  case mapBlock.mapBlock.mapBlock =>
    simp only [Bool.and_eq_true, beq_iff_eq] at h₁ h₂ ⊢
    exact ⟨⟨h₁.1.1.trans h₂.1.1, h₁.1.2.trans h₂.1.2⟩, h₁.2.trans h₂.2⟩

end UnaryOp

/-! ## Expressions -/

namespace Expr

variable {α : Type} [Cell α]

/-- Structural equality, node by node. -/
inductive Equal : Expr α → Expr α → Prop
  | checkpoint (i : NodeId) (c c' : Checkpoint α) : Equal (checkpoint i c) (checkpoint i c')
  | foreign (i j : NodeId) (shape : Shape) : Equal (foreign i shape) (foreign j shape)
  | unary {i j : NodeId} {op op' : UnaryOp α} {a a' : Expr α} (hop : op.same op' = true)
      (ha : Equal a a') : Equal (unary i op a) (unary j op' a')
  | binary (i j : NodeId) (op : BinaryOp) {a a' b b' : Expr α} (ha : Equal a a')
      (hb : Equal b b') : Equal (binary i op a b) (binary j op a' b')

theorem same_iff_equal {a b : Expr α} : a.same b = true ↔ Equal a b := by
  constructor
  · intro h
    induction a generalizing b with
    | checkpoint i c =>
      cases b <;> simp only [same, Bool.false_eq_true, beq_iff_eq] at h
      exact h ▸ .checkpoint _ _ _
    | foreign i shape =>
      cases b <;> simp only [same, Bool.false_eq_true, beq_iff_eq] at h
      exact h ▸ .foreign _ _ _
    | unary i op a ih =>
      cases b <;> simp only [same, Bool.false_eq_true, Bool.and_eq_true] at h
      exact .unary h.1 (ih h.2)
    | binary i op a b iha ihb =>
      cases b <;> simp only [same, Bool.false_eq_true, Bool.and_eq_true, beq_iff_eq] at h
      obtain ⟨⟨rfl, ha⟩, hb⟩ := h
      exact .binary _ _ _ (iha ha) (ihb hb)
  · intro h
    induction h with
    | checkpoint => simp [same]
    | foreign => simp [same]
    | unary hop _ ih => simp [same, hop, ih]
    | binary i j op _ _ iha ihb => simp [same, iha, ihb]

namespace Equal

/-- Equal expressions of one population have the same schema. -/
theorem schema_eq {next : NodeId} {nodes : Set (Expr α)} (hp : Population next nodes)
    {a b : Expr α} (h : Equal a b) (ha : a ∈ nodes) (hb : b ∈ nodes) : a.schema = b.schema := by
  induction h with
  | checkpoint i c c' =>
    cases hp.identified _ ha _ hb rfl
    rfl
  | foreign => rfl
  | @unary i j op op' a a' hop _ ih =>
    have hs := ih (hp.input ha) (hp.input hb)
    have hadm := hp.admitted _ ha
    have hadm' := hp.admitted _ hb
    simp only [Admitted, ← hs] at hadm hadm'
    simp only [schema, ← hs, UnaryOp.schema_of_same hop hadm hadm']
  | binary i j op _ _ iha ihb =>
    simp only [schema, iha (hp.left ha) (hp.left hb), ihb (hp.right ha) (hp.right hb)]

variable [LawfulSame α]

theorem symm {a b : Expr α} (h : Equal a b) : Equal b a := by
  induction h with
  | checkpoint => exact .checkpoint _ _ _
  | foreign => exact .foreign _ _ _
  | unary hop _ ih => exact .unary (UnaryOp.same_symm hop) ih
  | binary i j op _ _ iha ihb => exact .binary _ _ _ iha ihb

theorem trans {a b c : Expr α} (h₁ : Equal a b) (h₂ : Equal b c) : Equal a c := by
  induction h₁ generalizing c with
  | checkpoint => cases h₂; exact .checkpoint _ _ _
  | foreign => cases h₂; exact .foreign _ _ _
  | unary hop _ ih =>
    cases h₂ with
    | unary hop' h₂ => exact .unary (UnaryOp.same_trans hop hop') (ih h₂)
  | binary i j op _ _ iha ihb =>
    cases h₂ with
    | binary _ _ _ ha hb => exact .binary _ _ _ (iha ha) (ihb hb)

/-- Equality does not change when both sides are exchanged for equal expressions. -/
theorem congr {a a' b b' : Expr α} (ha : Equal a a') (hb : Equal b b') :
    a.same b = a'.same b' := by
  rw [Bool.eq_iff_iff, same_iff_equal, same_iff_equal]
  exact ⟨fun h => (ha.symm.trans h).trans hb, fun h => (ha.trans h).trans hb.symm⟩

end Equal

end Expr

end RowAlgebra
