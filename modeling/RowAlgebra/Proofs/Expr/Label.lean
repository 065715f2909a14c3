import RowAlgebra.Expr.Label
import RowAlgebra.Proofs.Ending
import RowAlgebra.Proofs.Expr.Nodes

/-!
# What can be written

The label of a node can be written unless it shows an integer of too many digits (`Expr.label_ends`);
`Expr.shownInts` are the integers that it shows. A whole expression can be written if this is true
of all its nodes and if there is room for as many nodes as lie one below the other, which is the
`Expr.height` of the expression (`Expr.representation_ends`). With as much room as it takes, only
long integers are in the way (`Expr.text_ends`).
-/

namespace RowAlgebra

/-- Only an integer of too many digits cannot be written. -/
theorem Decimal.intText_ends (n : Int) :
    Ends (intText n) (fun _ => isLong n = false) (fun e => e = .fault .value ∧ isLong n = true) := by
  unfold intText
  split
  · next h => exact Ends.error ⟨rfl, h⟩
  · next h => exact Ends.ok (Bool.eq_false_iff.2 h)

variable {α : Type}

/-- The integers in the label of an operator. -/
def UnaryOp.shownInts : UnaryOp α → List Int
  | scalar _ (.int n) => [n]
  | rowRange start stop => [start, stop]
  | leftMultiply m | rightMultiply m => [m.shape.nrow, m.shape.ncol]
  | _ => []

namespace Expr

/-- The integers in the label of a node. -/
def shownInts : Expr α → List Int
  | checkpoint _ c => [c.nrow, c.ncol]
  | unary _ op _ => op.shownInts
  | foreign _ _ | binary _ _ _ _ => []

/-- Whether the label of a node shows an integer of too many digits. -/
def ShowsLongInt (e : Expr α) : Prop :=
  ∃ n ∈ e.shownInts, Decimal.isLong n = true

/-- Whether the label of some node shows an integer of too many digits. -/
def HasLongInt (e : Expr α) : Prop :=
  ∃ x ∈ e.walk, x.ShowsLongInt

instance (e : Expr α) : Decidable e.ShowsLongInt :=
  inferInstanceAs (Decidable (∃ n ∈ e.shownInts, _))

instance (e : Expr α) : Decidable e.HasLongInt :=
  inferInstanceAs (Decidable (∃ x ∈ e.walk, _))

/-- How many nodes lie one below the other. -/
def height : Expr α → Nat
  | checkpoint _ _ | foreign _ _ => 1
  | unary _ _ input => input.height + 1
  | binary _ _ left right => max left.height right.height + 1

theorem height_le_size (e : Expr α) : e.height ≤ e.size := by
  induction e with
  | checkpoint | foreign => exact Nat.le_refl 1
  | unary i op a ih => exact Nat.succ_le_succ ih
  | binary i op a b iha ihb =>
    have hmax := Nat.max_le.2 ⟨iha.trans (Nat.le_add_right _ _), ihb.trans (Nat.le_add_left _ _)⟩
    exact Nat.succ_le_succ hmax

/-! ## Labels -/

section Labels

theorem shapeLabel_ends (s : Shape) :
    Ends s.label (fun _ => ∀ n ∈ [s.nrow, s.ncol], Decimal.isLong n = false)
      (fun e => e = .fault .value ∧ ∃ n ∈ [s.nrow, s.ncol], Decimal.isLong n = true) := by
  refine ((Decimal.intText_ends s.nrow).mapBad ?_).bind fun nrow hrow =>
    ((Decimal.intText_ends s.ncol).mapBad ?_).bind fun ncol hcol => Ends.ok ?_
  · exact fun e h => ⟨h.1, s.nrow, List.mem_cons_self, h.2⟩
  · exact fun e h => ⟨h.1, s.ncol, List.mem_cons_of_mem _ (List.mem_singleton_self _), h.2⟩
  · exact List.forall_mem_cons.2 ⟨hrow, List.forall_mem_singleton.2 hcol⟩

theorem parameters_ends (op : UnaryOp α) :
    Ends op.parameters (fun _ => ∀ n ∈ op.shownInts, Decimal.isLong n = false)
      (fun e => e = .fault .value ∧ ∃ n ∈ op.shownInts, Decimal.isLong n = true) := by
  cases op with
  | scalar op s =>
    cases s with
    | int n =>
      refine (((Decimal.intText_ends n).mapBad fun e h => ?_).bind fun _ h => ?_).bind
        fun _ h => Ends.ok h
      · exact ⟨h.1, n, List.mem_singleton_self n, h.2⟩
      · exact Ends.ok (List.forall_mem_singleton.2 h)
    | bool b => cases b <;> exact List.forall_mem_nil _
    | float | absent | text => exact List.forall_mem_nil _
  | rowRange start stop =>
    refine ((Decimal.intText_ends start).mapBad ?_).bind fun _ hstart =>
      ((Decimal.intText_ends stop).mapBad ?_).bind fun _ hstop => Ends.ok ?_
    · exact fun e h => ⟨h.1, start, List.mem_cons_self, h.2⟩
    · exact fun e h => ⟨h.1, stop, List.mem_cons_of_mem _ (List.mem_singleton_self _), h.2⟩
    · exact List.forall_mem_cons.2 ⟨hstart, List.forall_mem_singleton.2 hstop⟩
  | leftMultiply m | rightMultiply m => exact (shapeLabel_ends m.shape).bind fun _ h => Ends.ok h
  | transpose | transposeAnyKey | selfGramian | mapBlock => exact List.forall_mem_nil _

/-- A label can be written unless it shows an integer of too many digits. -/
theorem label_ends (e : Expr α) :
    Ends e.label (fun _ => ¬ e.ShowsLongInt) (fun err => err = .fault .value ∧ e.ShowsLongInt) := by
  have hno {l : List Int} (h : ∀ n ∈ l, Decimal.isLong n = false) :
      ¬ ∃ n ∈ l, Decimal.isLong n = true := by
    rintro ⟨n, hn, hlong⟩
    cases (h n hn).symm.trans hlong
  cases e with
  | checkpoint i c => exact (shapeLabel_ends c.shape).bind fun _ h => Ends.ok (hno h)
  | unary i op a => exact (parameters_ends op).bind fun _ h => Ends.ok (hno h)
  | foreign | binary => exact hno (List.forall_mem_nil _)

end Labels

/-! ## Whole expressions -/

theorem HasLongInt.of_mem {e x : Expr α} (h : x.HasLongInt) (hx : x ∈ e.walk) : e.HasLongInt := by
  obtain ⟨y, hy, hlong⟩ := h
  exact ⟨y, mem_walk_trans hy hx, hlong⟩

theorem ShowsLongInt.hasLongInt {e : Expr α} (h : e.ShowsLongInt) : e.HasLongInt :=
  ⟨e, mem_walk_self e, h⟩

theorem not_hasLongInt_iff {e : Expr α} : ¬ e.HasLongInt ↔ ∀ x ∈ e.walk, ¬ x.ShowsLongInt := by
  simp only [HasLongInt, not_exists, not_and]

/-- **What can be written**: an expression that fits into the room and shows no long integer. -/
theorem representation_ends (e : Expr α) (room : Nat) :
    Ends (e.representation room) (fun _ => e.height ≤ room ∧ ¬ e.HasLongInt) (fun err =>
      (err = .fault .recursion ∧ room < e.height) ∨ (err = .fault .value ∧ e.HasLongInt)) := by
  induction e generalizing room with
  | checkpoint i c =>
    cases room with
    | zero => exact Ends.error (.inl ⟨rfl, Nat.zero_lt_one⟩)
    | succ room =>
      refine ((label_ends (checkpoint i c)).mapBad fun _ h => ?_).imp fun _ h => ?_
      · exact .inr ⟨h.1, h.2.hasLongInt⟩
      · exact ⟨Nat.le_add_left 1 room, not_hasLongInt_iff.2 (List.forall_mem_singleton.2 h)⟩
  | foreign i shape =>
    cases room with
    | zero => exact Ends.error (.inl ⟨rfl, Nat.zero_lt_one⟩)
    | succ room =>
      refine Ends.ok ⟨Nat.le_add_left 1 room, not_hasLongInt_iff.2 (List.forall_mem_singleton.2 ?_)⟩
      rintro ⟨n, hn, -⟩
      cases hn
  | unary i op a ih =>
    cases room with
    | zero => exact Ends.error (.inl ⟨rfl, Nat.succ_pos _⟩)
    | succ room =>
      refine ((label_ends (unary i op a)).mapBad fun _ h => ?_).bind fun _ hlabel =>
        ((ih room).mapBad ?_).bind fun _ h => Ends.ok ⟨Nat.succ_le_succ h.1, ?_⟩
      · exact .inr ⟨h.1, h.2.hasLongInt⟩
      · rintro _ (⟨hkind, hroom⟩ | ⟨hkind, hlong⟩)
        · exact .inl ⟨hkind, Nat.succ_lt_succ hroom⟩
        · exact .inr ⟨hkind, hlong.of_mem (mem_walk_input i op a)⟩
      · exact not_hasLongInt_iff.2 (forall_walk_unary.2 ⟨hlabel, not_hasLongInt_iff.1 h.2⟩)
  | binary i op a b iha ihb =>
    cases room with
    | zero => exact Ends.error (.inl ⟨rfl, Nat.succ_pos _⟩)
    | succ room =>
      have hlabel : ¬ (binary i op a b).ShowsLongInt := (label_ends (binary i op a b)).of_ok rfl
      refine ((iha room).mapBad ?_).bind fun _ ha => ((ihb room).mapBad ?_).bind fun _ hb =>
        Ends.ok ⟨Nat.succ_le_succ (Nat.max_le.2 ⟨ha.1, hb.1⟩), ?_⟩
      · rintro _ (⟨hkind, hroom⟩ | ⟨hkind, hlong⟩)
        · exact .inl ⟨hkind, Nat.succ_lt_succ (hroom.trans_le (Nat.le_max_left _ _))⟩
        · exact .inr ⟨hkind, hlong.of_mem (mem_walk_left i op a b)⟩
      · rintro _ (⟨hkind, hroom⟩ | ⟨hkind, hlong⟩)
        · exact .inl ⟨hkind, Nat.succ_lt_succ (hroom.trans_le (Nat.le_max_right _ _))⟩
        · exact .inr ⟨hkind, hlong.of_mem (mem_walk_right i op a b)⟩
      · exact not_hasLongInt_iff.2 (forall_walk_binary.2
          ⟨hlabel, not_hasLongInt_iff.1 ha.2, not_hasLongInt_iff.1 hb.2⟩)

theorem representation_eq_ok_iff {e : Expr α} {room : Nat} :
    (∃ t, e.representation room = .ok t) ↔ e.height ≤ room ∧ ¬ e.HasLongInt := by
  have h := e.representation_ends room
  cases hrep : e.representation room with
  | ok t => exact ⟨fun _ => h.of_ok hrep, fun _ => ⟨t, rfl⟩⟩
  | error err =>
    refine ⟨nofun, fun ⟨hroom, hshort⟩ => ?_⟩
    rcases h.of_error hrep with ⟨-, hhigh⟩ | ⟨-, hlong⟩
    · exact absurd hroom (Nat.not_le.2 hhigh)
    · exact absurd hlong hshort

/-- With as much room as it takes, only long integers are in the way. -/
theorem text_ends (e : Expr α) :
    Ends e.text (fun _ => ¬ e.HasLongInt) (fun err => err = .fault .value ∧ e.HasLongInt) := by
  refine ((e.representation_ends e.size).imp fun _ h => h.2).mapBad fun _ h => h.resolve_left ?_
  exact fun hroom => absurd e.height_le_size (Nat.not_le.2 hroom.2)

end Expr

end RowAlgebra
